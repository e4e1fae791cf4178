import Mathlib.Algebra.BigOperators.Group.List.Basic
import Mathlib.Algebra.GroupWithZero.Nat
import Mathlib.Data.List.Forall2
import DocDelta.Text.Quoted

/-! What quoted literals are made of.

A literal has no line feed. Where a text holds at most one kind of quote, the quotes around its
literal are of the other kind, so each character takes the same room wherever the text is cut, and
the literals of its pieces are together no shorter than its own. -/
namespace DocDelta.Text
open Number

/-! ### Line feeds -/

theorem newline_toDigits (n : Nat) : '\n' ∉ Nat.toDigits 16 n := by
  induction n using Nat.strongRecOn with
  | _ n ih =>
    rw [Nat.toDigits_eq_if (by decide)]
    split
    · simp
    · have hlt : n / 16 < n := by omega
      simp [ih _ hlt]

theorem newline_hexText (width n : Nat) : '\n' ∉ (hexText width n).toList := by
  simp [hexText, newline_toDigits, List.mem_replicate]

theorem newline_escaped {quote : Char} (hq : '\n' ≠ quote) (c : Char) : '\n' ∉ escaped quote c := by
  by_cases hc : '\n' = c
  · subst hc
    simp [escaped, hq]
  · have hhex := fun width => newline_hexText width c.toNat
    unfold escaped
    dsimp only
    split_ifs <;> simp [hc, hhex]

theorem quoteFor_eq (cs : List Char) : quoteFor cs = '"' ∨ quoteFor cs = '\x27' := by
  unfold quoteFor
  split <;> simp

theorem newline_quoteFor (cs : List Char) : '\n' ≠ quoteFor cs := by
  rcases quoteFor_eq cs with he | he <;> rw [he] <;> decide

/-- The literal of a text is one line. -/
theorem newline_quotedChars (cs : List Char) : '\n' ∉ (quotedChars cs).toList := by
  simp [quotedChars, newline_quoteFor, newline_escaped]

theorem newline_escapedByte {quote : Char} (hq : '\n' ≠ quote) (b : UInt8) :
    '\n' ∉ escapedByte quote b := by
  unfold escapedByte
  dsimp only
  split
  · exact newline_escaped hq _
  · simp [newline_hexText]

theorem newline_quotedBytes (bs : List UInt8) : '\n' ∉ (quotedBytes bs).toList := by
  simp [quotedBytes, bytesBetween, newline_quoteFor, newline_escapedByte]

/-! ### Room -/

/-- Whether a text holds at most one kind of quote. -/
def OneQuote (cs : List Char) : Prop := '\x27' ∉ cs ∨ '"' ∉ cs

instance (cs : List Char) : Decidable (OneQuote cs) := inferInstanceAs (Decidable (_ ∨ _))

section Room
variable {cs : List Char}

theorem OneQuote.of_subset {ds : List Char} (hc : OneQuote cs) (hs : ds ⊆ cs) : OneQuote ds :=
  hc.imp (mt (@hs _)) (mt (@hs _))

/-- The quotes around a text with one kind of quote are of the other kind. -/
theorem quoteFor_notMem (hc : OneQuote cs) : quoteFor cs ∉ cs := by
  unfold quoteFor
  split
  · rename_i hq
    simpa using (Bool.and_eq_true_iff.mp hq).2
  · rename_i hq
    rcases hc with hc | hc
    · exact hc
    · simpa [hc] using hq

/-- What stands for a character that is not the quote does not depend on the quote. -/
theorem escaped_eq {quote c : Char} (hc : c ≠ quote) : escaped quote c = escaped '\\' c := by
  unfold escaped
  simp [hc]

theorem length_quotedChars (hc : OneQuote cs) :
    (quotedChars cs).length = (cs.flatMap (escaped '\\')).length + 2 := by
  have hbare : cs.flatMap (escaped (quoteFor cs)) = cs.flatMap (escaped '\\') := by
    refine List.flatMap_congr fun c hm => escaped_eq ?_
    rintro rfl
    exact quoteFor_notMem hc hm
  rw [quotedChars, hbare, String.length_ofList, List.length_append, List.length_cons]
  rfl

/-- The character of a byte. -/
def byteChar (b : UInt8) : Char := Char.ofNat b.toNat

theorem length_quotedBytes {bs : List UInt8} (hc : OneQuote (bs.map byteChar)) :
    (quotedBytes bs).length = (bs.flatMap (escapedByte '\\')).length + 3 := by
  have hbare : bs.flatMap (escapedByte (quoteFor (bs.map byteChar))) =
      bs.flatMap (escapedByte '\\') := by
    refine List.flatMap_congr fun b hm => ?_
    have hne : byteChar b ≠ quoteFor (bs.map byteChar) := fun he =>
      quoteFor_notMem hc (he ▸ List.mem_map_of_mem hm)
    unfold escapedByte
    dsimp only
    rw [show Char.ofNat b.toNat = byteChar b from rfl, escaped_eq hne]
  show (String.ofList
    ('b' :: _ :: bs.flatMap (escapedByte (quoteFor (bs.map byteChar))) ++ _)).length = _
  rw [hbare, String.length_ofList, List.length_append, List.length_cons, List.length_cons]
  rfl

/-- The literals of pieces are together no shorter than that of the whole. -/
theorem length_flatten_le {α : Type} {literal : List α → String} {bare : α → List Char}
    {around : Nat} {pieces : List (List α)} (hne : pieces ≠ [])
    (hl : ∀ xs, xs ⊆ pieces.flatten → (literal xs).length = (xs.flatMap bare).length + around) :
    (literal pieces.flatten).length ≤ ((pieces.map literal).map String.length).sum := by
  have hsum : ∀ ps : List (List α), (∀ xs ∈ ps, xs ⊆ pieces.flatten) →
      ((ps.map literal).map String.length).sum =
        (ps.flatten.flatMap bare).length + ps.length * around := by
    intro ps hps
    induction ps with
    | nil => simp
    | cons xs ps ih =>
      obtain ⟨hxs, hps⟩ := List.forall_mem_cons.mp hps
      rw [List.map_cons, List.map_cons, List.sum_cons, hl xs hxs, ih hps, List.flatten_cons,
        List.flatMap_append, List.length_append, List.length_cons, Nat.succ_mul]
      omega
  have hone : 1 * around ≤ pieces.length * around :=
    Nat.mul_le_mul_right around (List.length_pos_iff.mpr hne)
  rw [hl _ (List.Subset.refl _), hsum pieces fun xs hxs x hx => List.mem_flatten.mpr ⟨xs, hxs, hx⟩]
  omega

end Room

/-! ### Put together -/

theorem sum_le_length_intercalate (separator : String) (parts : List String) :
    (parts.map String.length).sum ≤ (separator.intercalate parts).length := by
  induction parts with
  | nil => exact Nat.zero_le _
  | cons s parts ih =>
    cases parts with
    | nil => simp
    | cons t parts =>
      rw [String.intercalate_cons_cons, String.length_append, String.length_append, List.map_cons,
        List.sum_cons]
      omega

theorem length_intercalate_le {s t : String} (hst : s.length ≤ t.length) {xs ys : List String}
    (hp : List.Forall₂ (fun x y => x.length ≤ y.length) xs ys) :
    (s.intercalate xs).length ≤ (t.intercalate ys).length := by
  induction hp with
  | nil => exact Nat.le_refl _
  | @cons x y xs ys hxy hrest ih =>
    cases hrest with
    | nil => simpa using hxy
    | cons h₁ h₂ =>
      simp only [String.intercalate_cons_cons, String.length_append] at ih ⊢
      omega

theorem newline_intercalate {s : String} (hs : '\n' ∉ s.toList) {parts : List String}
    (hp : ∀ t ∈ parts, '\n' ∉ t.toList) : '\n' ∉ (s.intercalate parts).toList := by
  induction parts with
  | nil => exact List.not_mem_nil
  | cons t parts ih =>
    obtain ⟨hhead, htail⟩ := List.forall_mem_cons.mp hp
    cases parts with
    | nil => simpa using hhead
    | cons u parts =>
      simp only [String.intercalate_cons_cons, String.toList_append, List.mem_append, not_or]
      exact ⟨⟨hhead, hs⟩, ih htail⟩

end DocDelta.Text
