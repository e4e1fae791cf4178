import Mathlib.Data.String.Basic
import DocDelta.Number.Digits
import DocDelta.Text.Space

/-! Where texts are cut.

A text is not cut at a character that it lacks, and a number in decimals lacks all but digits. The
lines of a text put together are the text, and a line feed stands nowhere in a line but at its
end. -/
namespace DocDelta.Text
open Number

/-! ### At a character -/

theorem splitOnAux_lacks {c : Char} {more front back : List Char} (hb : c ∉ back) :
    (String.ofList (front ++ back)).splitOnAux (String.ofList (c :: more)) 0
      ⟨String.utf8Len front⟩ 0 [] = [String.ofList (front ++ back)] := by
  induction back generalizing front with
  | nil =>
    have hend := String.atEnd_of_valid front []
    have hall := String.extract_of_valid [] front []
    simp only [List.nil_append, String.utf8Len_nil, Nat.zero_add, List.append_nil] at hend hall ⊢
    rw [String.splitOnAux, if_pos (hend.mpr trivial)]
    exact congrArg (fun s => [s]) hall
  | cons d back ih =>
    have hend := String.atEnd_of_valid front (d :: back)
    have hhere := String.get_of_valid front (d :: back)
    have hsep : String.Pos.Raw.get (String.ofList (c :: more)) 0 = c :=
      String.get_of_valid [] (c :: more)
    have hnext := String.next_of_valid front d back
    have hback : (String.Pos.Raw.mk (String.utf8Len front)).unoffsetBy 0 =
      ⟨String.utf8Len front⟩ := rfl
    obtain ⟨hne, hb⟩ := not_or.mp (List.mem_cons.not.mp hb)
    rw [String.splitOnAux, if_neg (by simpa using hend), hhere, hsep,
      if_neg (by simpa using Ne.symm hne), hback, hnext]
    have hrest := @ih (front ++ [d]) hb
    simpa using hrest

/-- A text is not cut at what starts with a character that it lacks. -/
theorem splitOn_lacks {s : String} {c : Char} {more : List Char} (hs : c ∉ s.toList) :
    s.splitOn (String.ofList (c :: more)) = [s] := by
  have hcut : (String.ofList ([] ++ s.toList)).splitOnAux (String.ofList (c :: more)) 0
    ⟨0⟩ 0 [] = _ := splitOnAux_lacks hs
  rw [List.nil_append, String.ofList_toList] at hcut
  rw [String.splitOn, if_neg (by simp)]
  exact hcut

theorem notMem_decimalText {c : Char} (hc : c.isDigit = false) (n : Nat) :
    c ∉ (decimalText n).toList := by
  intro hm
  rw [decimalText, digits, String.toList_ofList] at hm
  rw [Nat.isDigit_of_mem_toDigits (by decide) (by decide) hm] at hc
  cases hc

theorem endsWith_newline {s : String} : s.endsWith "\n" = true ↔ s.toList.getLast? = some '\n' := by
  rw [String.endsWith_eq_endsWith_toSlice, String.Slice.endsWith_string_iff, String.copy_toSlice]
  exact List.singleton_suffix_iff_getLast?_eq_some

/-! ### At line breaks -/

theorem flatten_go (line cs : List Char) :
    (linesKeeping.go line cs).flatten = line.reverse ++ cs := by
  fun_induction linesKeeping.go line cs <;> simp_all

/-- The lines of a text put together are the text. -/
theorem flatten_linesKeeping (cs : List Char) : (linesKeeping cs).flatten = cs := flatten_go [] cs

/-- A line: whatever it ends with, there is no line feed in front of that. -/
def IsLine (l : List Char) : Prop := ∃ front c, l = front ++ [c] ∧ '\n' ∉ front

theorem isLine_reverse {line : List Char} (hline : '\n' ∉ line) (c : Char) :
    IsLine (c :: line).reverse :=
  ⟨line.reverse, c, List.reverse_cons, List.mem_reverse.not.mpr hline⟩

theorem isLine_go {line : List Char} (hline : '\n' ∉ line) (cs : List Char) :
    ∀ l ∈ linesKeeping.go line cs, IsLine l := by
  fun_induction linesKeeping.go line cs with
  | case1 => exact nofun
  | case2 line hne =>
    cases line with
    | nil => exact absurd rfl hne
    | cons c line =>
      refine List.forall_mem_singleton.mpr (isLine_reverse ?_ c)
      exact fun hm => hline (List.mem_cons_of_mem c hm)
  | case3 line cs ih =>
    refine List.forall_mem_cons.mpr ⟨isLine_reverse ?_ '\n', ih List.not_mem_nil⟩
    exact List.mem_cons.not.mpr (not_or.mpr ⟨by decide, hline⟩)
  | case4 line c cs _ _ ih =>
    exact List.forall_mem_cons.mpr ⟨isLine_reverse hline c, ih List.not_mem_nil⟩
  | case5 line c cs _ hbreak ih =>
    refine ih (List.mem_cons.not.mpr (not_or.mpr ⟨?_, hline⟩))
    rintro rfl
    exact hbreak rfl

theorem isLine_linesKeeping {cs l : List Char} (hl : l ∈ linesKeeping cs) : IsLine l :=
  isLine_go List.not_mem_nil cs l hl

/-- The lines of a text without their breaks hold no line feed. -/
theorem newline_lines {cs l : List Char} (hl : l ∈ lines cs) : '\n' ∉ l := by
  obtain ⟨k, hk, rfl⟩ := List.mem_map.mp hl
  obtain ⟨front, c, rfl, hfront⟩ := isLine_linesKeeping hk
  rw [List.reverse_concat, List.mem_reverse, List.dropWhile_cons]
  intro hm
  split at hm
  · exact hfront (List.mem_reverse.mp ((List.dropWhile_suffix _).subset hm))
  · rename_i hbreak
    rcases List.mem_cons.mp hm with rfl | hm
    · exact hbreak rfl
    · exact hfront (List.mem_reverse.mp hm)

end DocDelta.Text
