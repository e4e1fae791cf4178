import Mathlib.Algebra.Ring.Nat
import DocDelta.Bson.Reader

/-! The bytes of numbers, texts and frames.

What is written in a fixed count of bytes, up to a NUL or within a length comes back from the front
of any bytes, and leaves those behind it. -/
namespace DocDelta.Bson
open Number

/-! ### Numbers -/

@[simp] theorem length_littleEndian (count n : Nat) : (littleEndian count n).length = count := by
  induction count generalizing n with
  | zero => rfl
  | succ count ih => rw [littleEndian, List.length_cons, ih]

theorem ofLittleEndian_littleEndian {count n : Nat} (hn : n < 256 ^ count) :
    ofLittleEndian (littleEndian count n) = n := by
  induction count generalizing n with
  | zero =>
    rw [Nat.pow_zero] at hn
    rw [littleEndian, ofLittleEndian]
    omega
  | succ count ih =>
    have hquotient : n / 256 < 256 ^ count := by
      rw [Nat.pow_succ] at hn
      exact Nat.div_lt_of_lt_mul (by omega)
    have hbyte : (UInt8.ofNat (n % 256)).toNat = n % 256 := by
      rw [UInt8.toNat_ofNat']
      omega
    rw [littleEndian, ofLittleEndian, hbyte, ih hquotient]
    omega

/-- **A signed number comes back** from as many bytes as hold it. -/
theorem ofSignedBytes_signedBytes {count : Nat} {n : Int} (hl : -(256 ^ count : Nat) ≤ 2 * n)
    (hu : 2 * n < (256 ^ count : Nat)) : ofSignedBytes (signedBytes count n) = n := by
  have hpower : power 2 (8 * count) = 256 ^ count := by
    rw [power, Nat.pow_eq, Nat.pow_mul]
  have hmod : n % (256 ^ count : Nat) = if 0 ≤ n then n else n + (256 ^ count : Nat) := by
    split
    · exact Int.emod_eq_of_lt ‹_› (by omega)
    · rw [← Int.add_emod_right]
      exact Int.emod_eq_of_lt (by omega) (by omega)
  have hlt : (n % (256 ^ count : Nat)).toNat < 256 ^ count := by
    rw [hmod]
    split <;> omega
  have hlength : power 256 (littleEndian count (n % (256 ^ count : Nat)).toNat).length =
      256 ^ count := by
    rw [length_littleEndian, power, Nat.pow_eq]
  rw [ofSignedBytes, signedBytes, hpower, ofLittleEndian_littleEndian hlt, hlength, hmod]
  split <;> split <;> omega

/-! ### What comes back from the front -/

/-- A part is taken from the front of any bytes that begin with its own. -/
def Reads {α : Type} (take : List UInt8 → Option (α × List UInt8)) (bs : List UInt8) (a : α) :
    Prop :=
  ∀ rest, take (bs ++ rest) = some (a, rest)

theorem reads_bytes (bs : List UInt8) : Reads (takeBytes bs.length) bs bs := by
  intro rest
  rw [takeBytes, if_pos (by rw [List.length_append]; omega), List.take_left, List.drop_left]

theorem reads_littleEndian (count n : Nat) :
    Reads (takeBytes count) (littleEndian count n) (littleEndian count n) := by
  have hreads := reads_bytes (littleEndian count n)
  rwa [length_littleEndian] at hreads

/-! ### Texts -/

theorem toList_loop (bs : ByteArray) (i : Nat) (r : List UInt8) :
    ByteArray.toList.loop bs i r = r.reverse ++ bs.data.toList.drop i := by
  rw [ByteArray.toList.loop]
  split
  · rename_i hi
    have hsize : i < bs.data.toList.length := hi
    have hbyte : bs.get! i = bs.data.toList[i] := by
      rw [ByteArray.get!, getElem!_pos bs.data i hi, Array.getElem_toList]
    rw [toList_loop bs (i + 1), List.reverse_cons, List.append_assoc, hbyte,
      List.drop_eq_getElem_cons hsize]
    rfl
  · rename_i hi
    have hsize : bs.data.toList.length ≤ i := Nat.le_of_not_lt hi
    rw [List.drop_eq_nil_of_le hsize, List.append_nil]
termination_by bs.size - i

theorem toList_eq (bs : ByteArray) : bs.toList = bs.data.toList := by
  rw [ByteArray.toList, toList_loop]
  rfl

/-- A text comes back from its bytes. -/
theorem textOf?_toUTF8 (s : String) : textOf? s.toUTF8.toList = some s := by
  rw [textOf?, toList_eq]
  show String.fromUTF8? s.toByteArray = some s
  rw [String.fromUTF8?, dif_pos s.isValidUTF8]
  rfl

/-- Only the NUL has a zero byte. -/
theorem utf8EncodeChar_ne_zero {c : Char} (hc : c ≠ '\x00') {b : UInt8}
    (hb : b ∈ String.utf8EncodeChar c) : b ≠ 0 := by
  have hval : c.val.toNat ≠ 0 := fun h => hc (Char.ext (UInt32.toNat_inj.mp h))
  rintro rfl
  revert hb
  fun_cases String.utf8EncodeChar c
  all_goals
    intro hb
    simp only [List.mem_cons, List.not_mem_nil, or_false, ← UInt8.toNat_inj, UInt8.toNat_ofNat',
      UInt8.toNat_zero] at hb
    omega

theorem toUTF8_ne_zero {s : String} (hs : '\x00' ∉ s.toList) {b : UInt8}
    (hb : b ∈ s.toUTF8.toList) : b ≠ 0 := by
  have hbytes : s.toUTF8.toList = s.toList.flatMap String.utf8EncodeChar := by
    rw [toList_eq, String.toUTF8, ← String.utf8Encode_toList, List.utf8Encode,
      List.toList_data_toByteArray]
  rw [hbytes] at hb
  obtain ⟨c, hc, hb⟩ := List.mem_flatMap.mp hb
  exact utf8EncodeChar_ne_zero (fun h => hs (h ▸ hc)) hb

/-- **A name comes back** where it has no NUL of its own. -/
theorem reads_name {s : String} (hs : '\x00' ∉ s.toList) : Reads takeName (nameBytes s) s := by
  intro rest
  have hname : (nameBytes s ++ rest).takeWhile (· ≠ 0) = s.toUTF8.toList := by
    rw [nameBytes, List.append_assoc, List.takeWhile_append_of_pos fun b hb =>
      decide_eq_true (toUTF8_ne_zero hs hb)]
    exact List.append_nil _
  rw [takeName, hname, nameBytes, List.append_assoc, List.drop_left]
  dsimp only [List.cons_append]
  rw [textOf?_toUTF8]
  rfl

/-- **A text comes back**, whatever its characters. -/
theorem reads_text {s : String} (hs : (nameBytes s).length < 256 ^ 4) :
    Reads takeText (littleEndian 4 (nameBytes s).length ++ nameBytes s) s := by
  intro rest
  have hlast : (s.toUTF8.toList ++ [0]).getLast? = some 0 := List.getLast?_concat
  rw [takeText, List.append_assoc, reads_littleEndian]
  dsimp only [Option.bind_eq_bind, Option.bind_some]
  rw [ofLittleEndian_littleEndian hs, reads_bytes]
  dsimp only [Option.bind_some]
  rw [nameBytes, hlast, if_neg (by simp), List.dropLast_concat, textOf?_toUTF8]
  rfl

@[simp] theorem length_framed (elements : List UInt8) :
    (framed elements).length = elements.length + 5 := by
  simp only [framed, List.length_append, length_littleEndian, List.length_singleton]
  omega

/-- **A frame gives back its elements.** -/
theorem reads_frame {elements : List UInt8} (hl : elements.length + 5 < 256 ^ 4) :
    Reads takeFrame (framed elements) elements := by
  intro rest
  have hhead : takeBytes 4 (framed elements ++ rest) =
      some (littleEndian 4 (elements.length + 5), elements ++ [0] ++ rest) := by
    rw [framed, List.append_assoc, List.append_assoc, reads_littleEndian, List.append_assoc]
  have hframe := reads_bytes (framed elements) rest
  have hlast : (framed elements).getLast? = some 0 := List.getLast?_concat
  have hbody : ((framed elements).drop 4).dropLast = elements := by
    rw [framed, List.append_assoc, List.drop_left' (length_littleEndian 4 _), List.dropLast_concat]
  rw [length_framed] at hframe
  rw [takeFrame, hhead]
  dsimp only [Option.bind_eq_bind, Option.bind_some]
  rw [ofLittleEndian_littleEndian hl, hframe]
  dsimp only [Option.bind_some]
  rw [hlast, hbody, if_neg (by simp)]
  rfl

end DocDelta.Bson
