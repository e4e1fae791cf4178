import DocDelta.Proofs.Bson.Bytes
import DocDelta.Proofs.Calendar.Instants
import DocDelta.Proofs.Number.Words
import DocDelta.Proofs.Text.Splitting

/-! Documents come back from their bytes.

The reader undoes the writer on every value that the notation has (`Native`), as long as the
lengths fit the four bytes that they are given. A part of a document is read with as many steps as
it has bytes, which is why the reader never runs out of steps. -/
namespace DocDelta.Bson
open Number Calendar Text

/-- A value of the notation: its numbers are as large as their bytes, its instants lie within the
calendar, and its documents have distinct names that a NUL can end. -/
inductive Native : Node → Prop
  | null : Native .null
  | bool (b : Bool) : Native (.bool b)
  | int32 {n : Int} (hl : -2 ^ 31 ≤ n) (hu : n < 2 ^ 31) : Native (.int32 n)
  | int64 {n : Int} (hl : -2 ^ 63 ≤ n) (hu : n < 2 ^ 63) : Native (.int64 n)
  | double {x : Binary64} (hx : x.Proper) : Native (.double x)
  | text (s : String) : Native (.text s)
  | bytes (bs : List UInt8) : Native (.bytes bs)
  | datetime {millis : Int} (hm : (DateTime.ofEpoch? (1000 * millis) none).isSome = true) :
      Native (.datetime millis)
  | decimal {w : Nat} (hw : w < 2 ^ 128) : Native (.decimal w)
  | list {xs : List Node} (hx : ∀ x ∈ xs, Native x) : Native (.list xs)
  | document {es : List (String × Node)} (hd : (es.map (·.1)).Nodup)
      (hs : ∀ e ∈ es, '\x00' ∉ e.1.toList) (he : ∀ e ∈ es, Native e.2) : Native (.document es)

/-- A value comes back from its bytes in any number of steps above their count. -/
def ReadsBack (x : Node) : Prop :=
  ∀ n, (valueBytes x).2.length < n → Reads (takeValue n (valueBytes x).1) (valueBytes x).2 x

/-! ### Items -/

theorem itemBytes_cons (place : Nat) (x : Node) (xs : List Node) :
    itemBytes place (x :: xs) = (valueBytes x).1 ::
      (nameBytes (decimalText place) ++ (valueBytes x).2 ++ itemBytes (place + 1) xs) := by
  rw [itemBytes]
  rfl

theorem length_le_itemBytes {x : Node} {xs : List Node} (hx : x ∈ xs) (place : Nat) :
    (valueBytes x).2.length ≤ (itemBytes place xs).length := by
  induction xs generalizing place with
  | nil => cases hx
  | cons y ys ih =>
    rw [itemBytes_cons, List.length_cons, List.length_append, List.length_append]
    rcases List.mem_cons.mp hx with rfl | hx
    · omega
    · have := ih hx (place + 1)
      omega

/-- The items of a list come back in their order. -/
theorem takeItems_itemBytes {xs : List Node} (hx : ∀ x ∈ xs, ReadsBack x) (place : Nat) {n : Nat}
    (hn : (itemBytes place xs).length ≤ n) : takeItems n (itemBytes place xs) = some xs := by
  induction xs generalizing place n with
  | nil =>
    rw [itemBytes, takeItems]
  | cons x xs ih =>
    have hlength := congrArg List.length (itemBytes_cons place x xs)
    simp only [List.length_cons, List.length_append, nameBytes] at hlength
    obtain ⟨n, rfl⟩ : ∃ k, n = k + 1 := ⟨n - 1, by omega⟩
    have hname : (nameBytes (decimalText place) ++ (valueBytes x).2 ++
        itemBytes (place + 1) xs).dropWhile (· ≠ 0) =
          0 :: ((valueBytes x).2 ++ itemBytes (place + 1) xs) := by
      rw [nameBytes, List.append_assoc, List.append_assoc, List.dropWhile_append_of_pos fun b hb =>
        decide_eq_true (toUTF8_ne_zero (notMem_decimalText rfl place) hb)]
      rfl
    rw [itemBytes_cons, takeItems, hname]
    dsimp only
    rw [hx x (List.mem_cons_self ..) n (by omega)]
    dsimp only [Option.bind_eq_bind, Option.bind_some]
    rw [ih (fun y hy => hx y (List.mem_cons_of_mem x hy)) (place + 1) (by omega)]
    rfl

/-! ### Entries -/

theorem entryBytes_cons (e : String × Node) (es : List (String × Node)) :
    entryBytes (e :: es) =
      (valueBytes e.2).1 :: (nameBytes e.1 ++ ((valueBytes e.2).2 ++ entryBytes es)) := by
  obtain ⟨name, x⟩ := e
  rw [entryBytes, elementBytes, ← List.append_assoc]
  rfl

theorem length_le_entryBytes {e : String × Node} {es : List (String × Node)} (he : e ∈ es) :
    (valueBytes e.2).2.length ≤ (entryBytes es).length := by
  induction es with
  | nil => cases he
  | cons d ds ih =>
    rw [entryBytes_cons, List.length_cons, List.length_append, List.length_append]
    rcases List.mem_cons.mp he with rfl | he
    · omega
    · have := ih he
      omega

/-- An entry of a new name is the last. -/
theorem putEntry_new {name : String} {es : List (String × Node)} (hn : name ∉ es.map (·.1))
    (x : Node) : putEntry name x es = es ++ [(name, x)] := by
  induction es with
  | nil => rfl
  | cons e es ih =>
    rw [List.map_cons, List.mem_cons, not_or] at hn
    obtain ⟨m, y⟩ := e
    rw [putEntry, if_neg (Ne.symm hn.1), ih hn.2]
    rfl

/-- The entries of a document come back in their order, behind those that were read before. -/
theorem takeEntries_entryBytes (acc : List (String × Node)) {es : List (String × Node)}
    (hd : ((acc ++ es).map (·.1)).Nodup) (hs : ∀ e ∈ es, '\x00' ∉ e.1.toList)
    (he : ∀ e ∈ es, ReadsBack e.2) {n : Nat} (hn : (entryBytes es).length ≤ n) :
    takeEntries n acc (entryBytes es) = some (acc ++ es) := by
  induction es generalizing acc n with
  | nil =>
    rw [entryBytes, takeEntries, List.append_nil]
  | cons e es ih =>
    have hlength := congrArg List.length (entryBytes_cons e es)
    simp only [List.length_cons, List.length_append, nameBytes] at hlength
    obtain ⟨n, rfl⟩ : ∃ k, n = k + 1 := ⟨n - 1, by omega⟩
    have hnew : e.1 ∉ acc.map (·.1) := by
      rw [List.map_append, List.map_cons] at hd
      exact fun hm => (List.nodup_append.mp hd).2.2 _ hm _ (List.mem_cons_self ..) rfl
    have hmem : e ∈ e :: es := List.mem_cons_self ..
    have happend : acc ++ e :: es = acc ++ [e] ++ es := by
      rw [List.append_assoc]
      rfl
    rw [happend] at hd ⊢
    rw [entryBytes_cons, takeEntries, reads_name (hs e hmem)]
    dsimp only [Option.bind_eq_bind, Option.bind_some]
    rw [he e hmem n (by omega)]
    dsimp only [Option.bind_some]
    rw [putEntry_new hnew]
    exact ih (acc ++ [e]) hd (fun d hm => hs d (List.mem_cons_of_mem e hm))
      (fun d hm => he d (List.mem_cons_of_mem e hm)) (by omega)

/-! ### Values -/

/-- A value of which the reader takes some bytes and what they mean. -/
theorem readsBack_of_bytes {x : Node} {α : Type} {a : α}
    {take : List UInt8 → Option (α × List UInt8)} (make : α → Node)
    (hread : Reads take (valueBytes x).2 a) (hmake : make a = x)
    (htake : ∀ n bs, takeValue (n + 1) (valueBytes x).1 bs =
      take bs >>= fun p => some (make p.1, p.2)) : ReadsBack x := by
  intro n hn rest
  obtain ⟨n, rfl⟩ : ∃ k, n = k + 1 := ⟨n - 1, by omega⟩
  rw [htake, hread, ← hmake]
  rfl

theorem readsBack_bytes {bs : List UInt8} (hl : bs.length < 256 ^ 4) : ReadsBack (.bytes bs) := by
  intro n hn rest
  obtain ⟨n, rfl⟩ : ∃ k, n = k + 1 := ⟨n - 1, by omega⟩
  have hsubtype : takeBytes 1 ([0] ++ (bs ++ rest)) = some ([0], bs ++ rest) :=
    reads_bytes [0] (bs ++ rest)
  show (takeBytes 4 (littleEndian 4 bs.length ++ ([0] ++ bs) ++ rest) >>= fun p =>
    takeBytes 1 p.2 >>= fun q => takeBytes (ofLittleEndian p.1) q.2 >>= fun r =>
      some (Node.bytes r.1, r.2)) = _
  rw [List.append_assoc, List.append_assoc, reads_littleEndian]
  dsimp only [Option.bind_eq_bind, Option.bind_some]
  rw [hsubtype, ofLittleEndian_littleEndian hl]
  dsimp only [Option.bind_some]
  rw [reads_bytes]
  rfl

/-- The milliseconds of an instant within the calendar fit eight bytes. -/
theorem millis_bounds {millis : Int} {offset : Option Int}
    (hm : (DateTime.ofEpoch? (1000 * millis) offset).isSome = true) :
    -2 ^ 63 ≤ millis ∧ millis < 2 ^ 63 := by
  rw [DateTime.ofEpoch?] at hm
  split at hm
  · rename_i hrange
    rw [DateTime.inRange_iff] at hrange
    simp only [DateTime.epochDay, microsPerDay, microsPerSecond] at hrange
    omega
  · cases hm

theorem readsBack_datetime {millis : Int}
    (hm : (DateTime.ofEpoch? (1000 * millis) none).isSome = true) :
    ReadsBack (.datetime millis) := by
  intro n hn rest
  obtain ⟨n, rfl⟩ : ∃ k, n = k + 1 := ⟨n - 1, by omega⟩
  obtain ⟨x, hx⟩ := Option.isSome_iff_exists.mp hm
  obtain ⟨hlow, hhigh⟩ := millis_bounds hm
  have hmillis : ofSignedBytes (signedBytes 8 millis) = millis :=
    ofSignedBytes_signedBytes (by omega) (by omega)
  have hword : takeBytes 8 (signedBytes 8 millis ++ rest) = some (signedBytes 8 millis, rest) :=
    reads_littleEndian 8 _ rest
  show (takeBytes 8 (signedBytes 8 millis ++ rest) >>= fun p =>
    DateTime.ofEpoch? (1000 * ofSignedBytes p.1) none >>= fun _ =>
      some (Node.datetime (ofSignedBytes p.1), p.2)) = _
  rw [hword]
  dsimp only [Option.bind_eq_bind, Option.bind_some]
  rw [hmillis, hx]
  rfl

theorem readsBack_list {xs : List Node} (hl : (itemBytes 0 xs).length + 5 < 256 ^ 4)
    (hx : ∀ x ∈ xs, ReadsBack x) : ReadsBack (.list xs) := by
  intro n hn rest
  obtain ⟨n, rfl⟩ : ∃ k, n = k + 1 := ⟨n - 1, by omega⟩
  have hbytes : (valueBytes (.list xs)).2 = framed (itemBytes 0 xs) := by rw [valueBytes]
  rw [hbytes, length_framed] at hn
  show (takeFrame ((valueBytes (.list xs)).2 ++ rest) >>= fun p =>
    takeItems n p.1 >>= fun xs => some (Node.list xs, p.2)) = _
  rw [hbytes, reads_frame hl]
  dsimp only [Option.bind_eq_bind, Option.bind_some]
  rw [takeItems_itemBytes hx 0 (by omega)]
  rfl

theorem readsBack_document {es : List (String × Node)} (hl : (entryBytes es).length + 5 < 256 ^ 4)
    (hd : (es.map (·.1)).Nodup) (hs : ∀ e ∈ es, '\x00' ∉ e.1.toList)
    (he : ∀ e ∈ es, ReadsBack e.2) : ReadsBack (.document es) := by
  intro n hn rest
  obtain ⟨n, rfl⟩ : ∃ k, n = k + 1 := ⟨n - 1, by omega⟩
  have hbytes : (valueBytes (.document es)).2 = framed (entryBytes es) := by rw [valueBytes]
  rw [hbytes, length_framed] at hn
  show (takeFrame ((valueBytes (.document es)).2 ++ rest) >>= fun p =>
    takeEntries n [] p.1 >>= fun es => some (Node.document es, p.2)) = _
  rw [hbytes, reads_frame hl]
  dsimp only [Option.bind_eq_bind, Option.bind_some]
  rw [takeEntries_entryBytes [] hd hs he (by omega)]
  rfl

/-- **Every native value comes back from its bytes**, where they are no more than four bytes can
count. -/
theorem readsBack_of_native {x : Node} (hx : Native x)
    (hl : (valueBytes x).2.length < 256 ^ 4) : ReadsBack x := by
  induction hx with
  | null =>
    have hread : Reads (fun bs => some ((), bs)) (valueBytes .null).2 () := fun _ => rfl
    exact readsBack_of_bytes (fun _ => .null) hread rfl fun _ _ => rfl
  | bool b =>
    intro n hn rest
    obtain ⟨n, rfl⟩ : ∃ k, n = k + 1 := ⟨n - 1, by omega⟩
    cases b <;> rfl
  | int32 hlow hhigh =>
    exact readsBack_of_bytes (fun w => .int32 (ofSignedBytes w)) (reads_littleEndian 4 _)
      (congrArg Node.int32 (ofSignedBytes_signedBytes (by omega) (by omega))) fun _ _ => rfl
  | int64 hlow hhigh =>
    exact readsBack_of_bytes (fun w => .int64 (ofSignedBytes w)) (reads_littleEndian 8 _)
      (congrArg Node.int64 (ofSignedBytes_signedBytes (by omega) (by omega))) fun _ _ => rfl
  | @double x hx =>
    obtain ⟨hword, hlt⟩ := Binary64.ofWord_toWord hx
    exact readsBack_of_bytes (fun w => .double (.ofWord (ofLittleEndian w)))
      (reads_littleEndian 8 x.toWord)
      (by rw [ofLittleEndian_littleEndian (hlt.trans_le (by decide)), hword]) fun _ _ => rfl
  | text s =>
    have hbytes : (valueBytes (.text s)).2 =
        littleEndian 4 (nameBytes s).length ++ nameBytes s := rfl
    rw [hbytes, List.length_append] at hl
    exact readsBack_of_bytes .text (reads_text (by omega)) rfl fun _ _ => rfl
  | bytes bs =>
    have hbytes : (valueBytes (.bytes bs)).2 = littleEndian 4 bs.length ++ 0 :: bs := rfl
    rw [hbytes, List.length_append, List.length_cons] at hl
    exact readsBack_bytes (by omega)
  | datetime hm => exact readsBack_datetime hm
  | @decimal w hw =>
    exact readsBack_of_bytes (fun w => .decimal (ofLittleEndian w))
      (reads_littleEndian 16 w)
      (by rw [ofLittleEndian_littleEndian (hw.trans_le (by decide))]) fun _ _ => rfl
  | @list xs hx ih =>
    rw [valueBytes, length_framed] at hl
    refine readsBack_list hl fun x hm => ih x hm ?_
    have := length_le_itemBytes hm 0
    omega
  | @document es hd hs he ih =>
    rw [valueBytes, length_framed] at hl
    refine readsBack_document hl hd hs fun e hm => ih e hm ?_
    have := length_le_entryBytes hm
    omega

/-- **A document comes back from its bytes**, where four bytes with a sign can count them. -/
theorem decode_encode {es : List (String × Node)} (hx : Native (.document es))
    (hl : (encode (.document es)).length < 2 ^ 31) :
    decode (encode (.document es)) = .ok (.document es) := by
  have hbytes : encode (.document es) = framed (entryBytes es) := by rw [encode, valueBytes]
  rw [hbytes, length_framed] at hl
  cases hx with
  | document hd hs he =>
    have hback : ∀ e ∈ es, ReadsBack e.2 := fun e hm => by
      have := length_le_entryBytes hm
      exact readsBack_of_native (he e hm) (by omega)
    have hframe : takeFrame (framed (entryBytes es) ++ []) = some (entryBytes es, []) :=
      reads_frame (by omega) []
    rw [List.append_nil] at hframe
    rw [hbytes, decode, hframe]
    dsimp only
    rw [takeEntries_entryBytes [] hd hs hback (by rw [length_framed]; omega)]
    rfl

end DocDelta.Bson
