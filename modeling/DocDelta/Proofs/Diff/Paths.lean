import DocDelta.Proofs.Diff.Changes

/-! The names on a path.

A path is its names with dots between them, and the names can be read back as long as none of
them is empty or holds a dot. So a path lies below another just when its names start with those
of the other, and two paths whose names are `Apart` do not meet. -/
namespace DocDelta.Diff

/-! ### Names -/

/-- A name that can be told from its neighbours on a path. -/
def Segment (s : String) : Prop := s ≠ "" ∧ '.' ∉ s.toList

/-- A segment that is not taken for a placeholder. -/
def PlainName (s : String) : Prop := Segment s ∧ s.toList.head? ≠ some '$'

instance (s : String) : Decidable (Segment s) := inferInstanceAs (Decidable (_ ∧ _))

instance (s : String) : Decidable (PlainName s) := inferInstanceAs (Decidable (_ ∧ _))

/-- The names of a path. -/
def names (path : String) : List String :=
  if path = "" then [] else (path.toList.splitOn '.').map String.ofList

@[simp] theorem names_empty : names "" = [] := rfl

theorem names_of_ne {path : String} (hp : path ≠ "") :
    names path = (path.toList.splitOn '.').map String.ofList := if_neg hp

theorem names_segment {s : String} (hs : Segment s) : names s = [s] := by
  rw [names_of_ne hs.1, List.splitOn_eq_singleton hs.2, List.map_singleton, String.ofList_toList]

/-- What follows a dot comes after the names before it. -/
theorem names_dot {base rest : String} (hb : base ≠ "") (hr : rest ≠ "") :
    names (base ++ "." ++ rest) = names base ++ names rest := by
  have hne : base ++ "." ++ rest ≠ "" := by simp
  have hchars : (base ++ "." ++ rest).toList = base.toList ++ '.' :: rest.toList := by simp
  rw [names_of_ne hne, names_of_ne hb, names_of_ne hr, hchars, List.splitOn_append_cons_self,
    List.map_append]

theorem names_joinPath (base : Label) {name : Label} (hn : Segment name.text) :
    names (joinPath base name).text = names base.text ++ [name.text] := by
  unfold joinPath
  split
  · rename_i hb
    rw [String.isEmpty_iff.mp hb, names_empty, List.nil_append, names_segment hn]
  · rename_i hb
    have hb : base.text ≠ "" := fun he => hb (String.isEmpty_iff.mpr he)
    show names (base.text ++ "." ++ name.text) = _
    rw [names_dot hb hn.1, names_segment hn]

theorem names_joinAll (base : Label) {path : List Label} (hp : ∀ l ∈ path, Segment l.text) :
    names (joinAll base path).text = names base.text ++ path.map (·.text) := by
  induction path generalizing base with
  | nil => exact (List.append_nil _).symm
  | cons l path ih =>
    show names (joinAll (joinPath base l) path).text = _
    rw [ih _ fun k hk => hp k (List.mem_cons_of_mem l hk),
      names_joinPath base (hp l (List.mem_cons_self ..)), List.append_assoc]
    rfl

/-- A path spelled out from its names. -/
def dotted (ns : List String) : String := (joinAll (.plain "") (ns.map .plain)).text

theorem names_dotted {ns : List String} (hs : ∀ s ∈ ns, Segment s) : names (dotted ns) = ns := by
  have hlabels : ∀ l ∈ ns.map Label.plain, Segment l.text := by
    intro l hl
    obtain ⟨s, hm, rfl⟩ := List.mem_map.mp hl
    exact hs s hm
  rw [dotted, names_joinAll _ hlabels, List.map_map]
  exact List.map_id ns

theorem text_joinPath {base base' name name' : Label} (hb : base.text = base'.text)
    (hn : name.text = name'.text) : (joinPath base name).text = (joinPath base' name').text := by
  unfold joinPath
  rw [hb, hn]
  split
  · exact hn
  · rfl

/-- What is spelled out depends on the texts of the labels only. -/
theorem text_joinAll {base base' : Label} (hb : base.text = base'.text) (path : List Label) :
    (joinAll base path).text = (joinAll base' ((path.map (·.text)).map .plain)).text := by
  induction path generalizing base base' with
  | nil => exact hb
  | cons l path ih => exact ih (text_joinPath hb rfl)

/-! ### Placeholders -/

theorem placeName_chars (n : Nat) :
    (placeName n).text.toList =
      '$' :: '[' :: 'e' :: 'l' :: 'e' :: 'm' :: (Nat.toDigits 10 n ++ [']']) := by
  simp [placeName, placeholder, Label.plain, Number.decimalText, Number.digits]

theorem segment_placeName (n : Nat) : Segment (placeName n).text := by
  refine ⟨fun he => ?_, fun hd => ?_⟩
  · have := congrArg String.toList he
    rw [placeName_chars] at this
    cases this
  · rw [placeName_chars] at hd
    have hd : '.' ∈ Nat.toDigits 10 n := by simpa using hd
    exact absurd (Nat.isDigit_of_mem_toDigits (by decide) (by decide) hd) (by decide)

theorem not_plainName_placeName (n : Nat) : ¬ PlainName (placeName n).text := fun hp =>
  hp.2 (by rw [placeName_chars]; rfl)

/-- Every number has its own placeholder. -/
theorem placeName_inj {m n : Nat} (he : (placeName m).text = (placeName n).text) : m = n := by
  have hc := congrArg String.toList he
  rw [placeName_chars, placeName_chars] at hc
  have hd : Nat.toDigits 10 m = Nat.toDigits 10 n := by simpa using hc
  rw [← Nat.ofDigitChars_ten_toDigits (n := m), hd, Nat.ofDigitChars_ten_toDigits]

/-- A name no part of which is a placeholder. -/
def Unnumbered (s : String) : Prop := ∀ n, (placeName n).text ∉ names s

theorem PlainName.unnumbered {s : String} (hs : PlainName s) : Unnumbered s := by
  intro n hn
  rw [names_segment hs.1, List.mem_singleton] at hn
  exact not_plainName_placeName n (hn ▸ hs)

theorem unnumbered_joinPath {base name : Label} (hb : Unnumbered base.text)
    (hn : Unnumbered name.text) : Unnumbered (joinPath base name).text := by
  intro n hm
  unfold joinPath at hm
  split at hm
  · exact hn n hm
  · rename_i hbase
    have hbase : base.text ≠ "" := fun he => hbase (String.isEmpty_iff.mpr he)
    by_cases hname : name.text = ""
    · -- an empty name leaves an empty part behind the dot
      have hne : base.text ++ "." ++ name.text ≠ "" := by simp
      have hchars : (base.text ++ "." ++ name.text).toList = base.text.toList ++ '.' :: [] := by
        simp [hname]
      have hm : (placeName n).text ∈ names (base.text ++ "." ++ name.text) := hm
      rw [names_of_ne hne, hchars, List.splitOn_append_cons_self, List.map_append,
        ← names_of_ne hbase] at hm
      rcases List.mem_append.mp hm with hm | hm
      · exact hb n hm
      · exact (segment_placeName n).1 (by simpa using hm)
    · have hm : (placeName n).text ∈ names (base.text ++ "." ++ name.text) := hm
      rw [names_dot hbase hname] at hm
      exact (List.mem_append.mp hm).elim (hb n) (hn n)

theorem unnumbered_joinAll {base : Label} (hb : Unnumbered base.text) {path : List Label}
    (hp : ∀ l ∈ path, Unnumbered l.text) : Unnumbered (joinAll base path).text := by
  induction path generalizing base with
  | nil => exact hb
  | cons l path ih =>
    exact ih (unnumbered_joinPath hb (hp l (List.mem_cons_self ..)))
      fun k hk => hp k (List.mem_cons_of_mem l hk)

/-! ### Paths below others -/

/-- A path covers the paths below it; the empty path covers every path. -/
def Covers (a b : String) : Prop := a = "" ∨ ∃ rest, b = a ++ "." ++ rest

theorem covers_joinPath (base name : Label) : Covers base.text (joinPath base name).text := by
  unfold joinPath
  split
  · rename_i hb
    exact .inl (String.isEmpty_iff.mp hb)
  · exact .inr ⟨name.text, rfl⟩

/-- The names of a path below another start with those of the other. -/
theorem covers_names {a b : String} (hc : Covers a b) : names a <+: names b := by
  rcases hc with rfl | ⟨rest, rfl⟩
  · exact List.nil_prefix
  · by_cases ha : a = ""
    · rw [ha]
      exact List.nil_prefix
    · have hne : a ++ "." ++ rest ≠ "" := by simp
      have hchars : (a ++ "." ++ rest).toList = a.toList ++ '.' :: rest.toList := by simp
      rw [names_of_ne hne, names_of_ne ha, hchars, List.splitOn_append_cons_self, List.map_append]
      exact List.prefix_append ..

/-- The names of a base come first on every path below it. -/
theorem names_prefix_joinAll (base : Label) (path : List Label) :
    names base.text <+: names (joinAll base path).text := by
  induction path generalizing base with
  | nil => exact List.prefix_rfl
  | cons l path ih => exact (covers_names (covers_joinPath base l)).trans (ih (joinPath base l))

/-- Neither of two lists of names starts with the other. -/
def Apart (xs ys : List String) : Prop := ¬ xs <+: ys ∧ ¬ ys <+: xs

theorem Apart.append {xs ys : List String} (hd : Apart xs ys) (us vs : List String) :
    Apart (xs ++ us) (ys ++ vs) := by
  have hlonger : ∀ {as bs cs ds : List String}, ¬ as <+: bs → ¬ bs <+: as →
      ¬ as ++ cs <+: bs ++ ds := by
    intro as bs cs ds hab hba hp
    have ha : as <+: bs ++ ds := (List.prefix_append as cs).trans hp
    rcases List.prefix_or_prefix_of_prefix ha (List.prefix_append bs ds) with h | h
    · exact hab h
    · exact hba h
  exact ⟨hlonger hd.1 hd.2, hlonger hd.2 hd.1⟩

theorem Apart.under {xs ys : List String} (hd : Apart xs ys) (zs : List String) :
    Apart (zs ++ xs) (zs ++ ys) :=
  ⟨fun h => hd.1 ((List.prefix_append_right_inj zs).mp h),
    fun h => hd.2 ((List.prefix_append_right_inj zs).mp h)⟩

theorem apart_cons {x y : String} (hne : x ≠ y) (xs ys : List String) :
    Apart (x :: xs) (y :: ys) :=
  ⟨fun h => hne (List.cons_prefix_cons.mp h).1, fun h => hne (List.cons_prefix_cons.mp h).1.symm⟩

/-- Paths whose names are disjoint do not meet. -/
theorem not_covers_of_apart {a b : String} (hd : Apart (names a) (names b)) :
    a ≠ b ∧ ¬ Covers a b ∧ ¬ Covers b a := by
  refine ⟨?_, fun hc => hd.1 (covers_names hc), fun hc => hd.2 (covers_names hc)⟩
  rintro rfl
  exact hd.1 List.prefix_rfl

end DocDelta.Diff
