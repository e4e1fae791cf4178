import DocDelta.Proofs.Report.Written
import DocDelta.Proofs.Value.Literals

/-! Values broken over several lines.

Where no text holds both kinds of quotes, a value that is broken takes no less room than the line
that it does not fit. So what is laid out in fewer columns than a page has is one line. -/
namespace DocDelta
open Number Text Heap Relation

namespace Layout

/-! ### Pieces -/

theorem flatten_words_go (word : List Char) (inBlanks : Bool) (cs : List Char) :
    (words.go word inBlanks cs).flatten = word.reverse ++ cs := by
  fun_induction words.go word inBlanks cs <;> simp_all

theorem flatten_words (cs : List Char) : (words cs).flatten = cs := flatten_words_go [] false cs

/-- Pieces begun with what is there already, if it is anything. -/
theorem flatten_begun {α : Type} (current : List α) (rest : List (List α)) :
    ((if current.isEmpty then [] else [current]) ++ rest).flatten = current ++ rest.flatten := by
  cases current <;> simp

theorem flatten_fillWords (width : Int) (kept : Nat) (current : List Char)
    (rest : List (List Char)) : (fillWords width kept current rest).flatten =
      current ++ rest.flatten := by
  fun_induction fillWords width kept current rest with
  | case1 => simp_all
  | case2 => simp
  | case3 width current word rest candidate _ _ ih => rw [flatten_begun, ih, List.flatten_cons]
  | case4 width current word rest candidate _ _ ih =>
    rw [ih, List.flatten_cons, List.append_assoc]

/-- The pieces of lines put together are the lines. -/
theorem flatten_textPieces (width : Int) (kept : Nat) (ls : List (List Char)) :
    (textPieces width kept ls).flatten = ls.flatten := by
  induction ls with
  | nil => rfl
  | cons line rest ih =>
    have hline : ∀ (fits : Prop) [Decidable fits] (width : Int) (kept : Nat),
        (if fits then [line] else fillWords width kept [] (words line)).flatten = line := by
      intro fits _ width kept
      split
      · exact List.flatten_singleton
      · rw [flatten_fillWords, List.nil_append, flatten_words]
    rw [textPieces, List.flatten_append, List.flatten_cons, ih]
    exact congrArg (· ++ rest.flatten) (hline ..)

theorem flatten_fillBytes (width : Int) (kept : Nat) {n : Nat} {current rest : List UInt8}
    (hn : rest.length ≤ n) : (fillBytes width kept n current rest).flatten = current ++ rest := by
  fun_induction fillBytes width kept n current rest with
  | case1 => simp_all
  | case2 => simp_all
  | case3 => simp_all
  | case4 => simp_all
  | case5 width n current rest hne part candidate _ _ ih =>
    rw [flatten_begun, ih (by simp; omega), List.take_append_drop]
  | case6 width n current rest hne part candidate _ _ ih =>
    rw [ih (by simp; omega), List.append_assoc, List.take_append_drop]

theorem length_le_parenthesised (alone : Prop) [Decidable alone] (body : String) :
    body.length ≤ (if alone then "(" ++ body ++ ")" else body).length := by
  split
  · simp only [String.length_append]
    omega
  · exact Nat.le_refl _

/-- The literals of pieces on lines of their own take no less room than that of the whole. -/
theorem length_pieces {α : Type} {literal : List α → String} {bare : α → List Char} {around : Nat}
    {whole : List α} {pieces : List (List α)}
    (hl : ∀ xs, xs ⊆ whole → (literal xs).length = (xs.flatMap bare).length + around)
    (hflat : pieces.flatten = whole) (hne : pieces ≠ [])
    (separator : String) (alone : Prop) [Decidable alone] :
    (literal whole).length ≤ (if alone then "(" ++ separator.intercalate (pieces.map literal) ++ ")"
      else separator.intercalate (pieces.map literal)).length := by
  subst hflat
  refine (length_flatten_le hne hl).trans ((sum_le_length_intercalate separator _).trans ?_)
  exact length_le_parenthesised ..

/-- A text in pieces takes no less room than its literal. -/
theorem length_textLayout {s : String} (hs : OneQuote s.toList) (r : Room) :
    (quoted s).length ≤ (textLayout r s).length := by
  have hflat : ∀ width kept, (textPieces width kept (linesKeeping s.toList)).flatten = s.toList :=
    fun width kept => (flatten_textPieces width kept _).trans (flatten_linesKeeping _)
  unfold textLayout
  dsimp only
  split
  · exact Nat.le_refl _
  · rename_i piece hp
    have hone := hflat _ _ ▸ congrArg List.flatten hp
    rw [List.flatten_singleton] at hone
    rw [quoted, hone]
  · rename_i pieces hnil hone
    exact length_pieces (fun xs hxs => length_quotedChars (hs.of_subset hxs)) (hflat _ _) hnil _ _

/-- A byte string in pieces takes no less room than its literal. -/
theorem length_bytesLayout {bs : List UInt8} (hb : OneQuote (bs.map byteChar)) (r : Room) :
    (quotedBytes bs).length ≤ (bytesLayout r bs).length := by
  unfold bytesLayout
  dsimp only
  split
  · exact Nat.le_refl _
  · rename_i hlong
    have hflat : ∀ width kept, (fillBytes width kept bs.length [] bs).flatten = bs :=
      fun width kept => flatten_fillBytes width kept (Nat.le_refl bs.length)
    refine length_pieces (fun xs hxs => length_quotedBytes (hb.of_subset (List.map_subset _ hxs)))
      (hflat _ _) (fun hnil => ?_) _ _
    have hempty : bs = [] := (hflat _ _).symm.trans (congrArg List.flatten hnil)
    rw [hempty] at hlong
    exact hlong (Nat.zero_le _)

/-! ### One layer -/

section Layer
variable {h : Heap} {v w : Value} {active : List (Option Addr)} {n : Nat}

/-- A value with none of the objects that are being laid out in it. -/
structure Unmet (h : Heap) (active : List (Option Addr)) (v : Value) : Prop where
  nothing : none ∉ active
  untouched : Untouched h active v
  acyclic : h.Acyclic v

/-- The objects that are being laid out inside a value. -/
def inside (h : Heap) (active : List (Option Addr)) (v : Value) : List (Option Addr) :=
  match v.identity h with
  | some a => a :: active
  | none => active

theorem identity_of_nil (hv : h.view v = .nil) : v.identity h = some none := by
  cases v with
  | ref a =>
    have ho : h.object a = .nil := by
      cases ho : h.object a <;> simp_all [view, Object.mapChildren]
    rw [Value.identity, ho]
  | inline o =>
    cases hv
    rfl

theorem Unmet.fresh (hv : Unmet h active v) {m : Option Addr} (hm : v.identity h = some m) :
    active.contains m = false := by
  by_cases hn : h.view v = .nil
  · rw [identity_of_nil hn] at hm
    cases hm
    simpa using hv.nothing
  · exact not_contains_of_untouched hv.untouched hn hm

theorem Unmet.part (hv : Unmet h active v) (hp : h.Part v w) : Unmet h (inside h active v) w := by
  have hacyclic := hv.acyclic.of_within (.single hp)
  unfold inside
  cases hm : v.identity h with
  | none => exact ⟨hv.nothing, hv.untouched.of_within (.single hp), hacyclic⟩
  | some m =>
    obtain ⟨a, -, rfl, -⟩ := identity_eq_some (view_ne_nil_of_below (.single hp)) hm
    exact ⟨by simpa using hv.nothing, hv.untouched.cons hv.acyclic hm (.single hp), hacyclic⟩

/-- An object that was not met is entered. -/
theorem Unmet.entered (hv : Unmet h active v) (met : Except Fault String)
    (body : List (Option Addr) → Except Fault String) :
    (match v.identity h with
      | none => body active
      | some a => if active.contains a then met else body (a :: active)) =
      body (inside h active v) := by
  unfold inside
  cases hm : v.identity h with
  | none => rfl
  | some m => exact if_neg (Bool.eq_false_iff.mp (hv.fresh hm))

/-- The line of an entry. -/
def entryLine (h : Heap) (n : Nat) (active : List (Option Addr)) (e : Value × Value) :
    Except Fault String := do
  let key ← lineWithin h n active e.1
  return key ++ ": " ++ (← lineWithin h n active e.2)

theorem lineWithin_map (hv : Unmet h active v) {c : Option Subclass} {es : List (Value × Value)}
    (hview : h.view v = .map c es) : lineWithin h (n + 1) active v = do
      let parts ← (← sortedEntries h es).mapM (entryLine h n (inside h active v))
      return "\x7b" ++ ", ".intercalate parts ++ "\x7d" := by
  rw [lineWithin, hview]
  cases es with
  | nil => rfl
  | cons e es =>
    exact hv.entered (.ok _) fun active => do
      let parts ← (← sortedEntries h (e :: es)).mapM (entryLine h n active)
      return "\x7b" ++ ", ".intercalate parts ++ "\x7d"

theorem lineWithin_list (hv : Unmet h active v) {c : Option Subclass} {xs : List Value}
    (hview : h.view v = .list c xs) : lineWithin h (n + 1) active v = do
      return "[" ++ ", ".intercalate (← xs.mapM (lineWithin h n (inside h active v))) ++ "]" := by
  rw [lineWithin, hview]
  cases xs with
  | nil => rfl
  | cons x xs =>
    exact hv.entered (.ok _) fun active => do
      return "[" ++ ", ".intercalate (← (x :: xs).mapM (lineWithin h n active)) ++ "]"

theorem literal_scalar (hs : (h.view v).IsScalar) : h.literal v = scalarLiteral (h.view v) := by
  rw [literal, literalWithin]
  cases hview : h.view v <;> rw [hview] at hs <;>
    first | exact hs.elim | (cases v.identity h <;> rfl)

theorem isScalar_of_text {s : String} (hv : (h.view v).text? = some s) : (h.view v).IsScalar := by
  obtain ⟨c, hc⟩ := text_of_text? hv
  rw [hc]
  trivial

theorem line_scalar (hs : (h.view v).IsScalar) {line : String}
    (hl : lineWithin h n active v = .ok line) : line = scalarLiteral (h.view v) := by
  cases n with
  | zero => cases hl
  | succ n =>
    have hscalar : lineWithin h (n + 1) active v = .ok (h.literal v) := by
      rw [lineWithin]
      cases hview : h.view v <;> rw [hview] at hs <;> exact hs.elim
    cases hscalar.symm.trans hl
    exact literal_scalar hs

/-- A layout is a line or a broken value. -/
theorem layoutWithin_cases (hv : Unmet h active v) {r : Room} {t : String}
    (ht : layoutWithin h (n + 1) active r v = .ok t) :
    ∃ line, lineWithin h (n + 1) active v = .ok line ∧ (t = line ∨
      r.width < line.length ∧ isBreakable (h.view v) = true ∧
        breakObject h (inside h active v) (lineWithin h (n + 1) (inside h active v))
          (layoutWithin h n (inside h active v)) { r with level := r.level + 1 } (h.view v) =
            .ok t) := by
  have hmet : ((v.identity h).map active.contains).getD false = false := by
    cases hm : v.identity h with
    | none => rfl
    | some m => exact hv.fresh hm
  have hlayout : layoutWithin h (n + 1) active r v = do
      let line ← lineWithin h (n + 1) active v
      if r.width < line.length && isBreakable (h.view v) then
        breakObject h (inside h active v) (lineWithin h (n + 1) (inside h active v))
          (layoutWithin h n (inside h active v)) { r with level := r.level + 1 } (h.view v)
      else return line := by
    rw [layoutWithin]
    exact if_neg (Bool.eq_false_iff.mp hmet)
  rw [hlayout, bind_eq_ok] at ht
  obtain ⟨line, hline, ht⟩ := ht
  refine ⟨line, hline, ?_⟩
  split at ht
  · rename_i hbroken
    obtain ⟨hwide, hbreakable⟩ := Bool.and_eq_true_iff.mp hbroken
    exact .inr ⟨of_decide_eq_true hwide, hbreakable, ht⟩
  · exact .inl (Except.ok.inj ht).symm

/-- What the line of an entry is made of. -/
theorem entryLine_eq_ok {e : Value × Value} {s : String} (hs : entryLine h n active e = .ok s) :
    ∃ key x, lineWithin h n active e.1 = .ok key ∧ lineWithin h n active e.2 = .ok x ∧
      s = key ++ ": " ++ x := by
  obtain ⟨key, hkey, hs⟩ := bind_eq_ok.mp hs
  obtain ⟨x, hx, hs⟩ := bind_eq_ok.mp hs
  exact ⟨key, x, hkey, hx, (Except.ok.inj hs).symm⟩

theorem line_map (hv : Unmet h active v) {c : Option Subclass} {es : List (Value × Value)}
    (hview : h.view v = .map c es) (hk : ∀ e ∈ es, ∃ s, (h.view e.1).text? = some s) {line : String}
    (hl : lineWithin h (n + 1) active v = .ok line) :
    ∃ ds parts, sortedEntries h es = .ok ds ∧ ds.Perm es ∧
      List.Forall₂ (fun e s => entryLine h n (inside h active v) e = .ok s) ds parts ∧
        line = "\x7b" ++ ", ".intercalate parts ++ "\x7d" := by
  rw [lineWithin_map hv hview] at hl
  obtain ⟨ds, hds, hl⟩ := bind_eq_ok.mp hl
  obtain ⟨parts, hparts, hl⟩ := bind_eq_ok.mp hl
  obtain ⟨ds', hds', hperm⟩ := sortedEntries_texts hk
  cases hds.symm.trans hds'
  exact ⟨ds, parts, hds, hperm, mapM_eq_ok.mp hparts, (Except.ok.inj hl).symm⟩

theorem line_list (hv : Unmet h active v) {c : Option Subclass} {xs : List Value}
    (hview : h.view v = .list c xs) {line : String}
    (hl : lineWithin h (n + 1) active v = .ok line) :
    ∃ parts, List.Forall₂ (fun x s => lineWithin h n (inside h active v) x = .ok s) xs parts ∧
      line = "[" ++ ", ".intercalate parts ++ "]" := by
  rw [lineWithin_list hv hview] at hl
  obtain ⟨parts, hparts, hl⟩ := bind_eq_ok.mp hl
  exact ⟨parts, mapM_eq_ok.mp hparts, (Except.ok.inj hl).symm⟩

theorem stack_eq_ok {α : Type} {indent kept : Nat} {part : α → Nat → Except Fault String}
    {xs : List α} {parts : List String} (hs : stack indent kept part xs = .ok parts) :
    List.Forall₂ (fun x s => ∃ k, part x k = .ok s) xs parts := by
  induction xs generalizing parts with
  | nil =>
    cases hs
    exact .nil
  | cons x xs ih =>
    cases xs with
    | nil =>
      obtain ⟨s, hx, he⟩ := bind_eq_ok.mp hs
      cases he
      exact .cons ⟨kept, hx⟩ .nil
    | cons y ys =>
      obtain ⟨s, hx, hs⟩ := bind_eq_ok.mp hs
      obtain ⟨rest, hrest, he⟩ := bind_eq_ok.mp hs
      cases he
      exact .cons ⟨1, hx⟩ (ih hrest)

theorem stacked_eq_ok {α : Type} {indent kept : Nat} {part : α → Nat → Except Fault String}
    {xs : List α} {body : String} (hs : stacked indent kept part xs = .ok body) :
    ∃ parts, List.Forall₂ (fun x s => ∃ k, part x k = .ok s) xs parts ∧
      body = ("," ++ newline indent).intercalate parts := by
  obtain ⟨parts, hparts, he⟩ := bind_eq_ok.mp hs
  exact ⟨parts, stack_eq_ok hparts, (Except.ok.inj he).symm⟩

/-- What is written of the same things in two ways, one of them never longer than the other. -/
theorem smaller_parts {α : Type} {P Q : α → String → Prop} {xs : List α} {parts rows : List String}
    (hp : List.Forall₂ P xs parts) (hq : List.Forall₂ Q xs rows)
    (hle : ∀ x ∈ xs, ∀ s t, P x s → Q x t → s.length ≤ t.length) :
    List.Forall₂ (fun s t => s.length ≤ t.length) parts rows := by
  have hsame : List.Forall₂ Eq xs xs := List.forall₂_same.mpr fun _ _ => rfl
  refine forall₂_square hsame hp hq ?_
  rintro x hx _ _ s t rfl hs ht
  exact hle x hx s t hs ht

/-- Parts on lines of their own take no less room than smaller parts on one line. -/
theorem length_stacked {parts rows : List String} (indent : Nat)
    (hp : List.Forall₂ (fun s t => s.length ≤ t.length) parts rows) :
    (", ".intercalate parts).length ≤ (("," ++ newline indent).intercalate rows).length := by
  refine length_intercalate_le ?_ hp
  rw [newline, String.length_append, String.length_append]
  show 2 ≤ 1 + (1 + _)
  omega

end Layer

/-! ### Whole values -/

section Whole
variable {h : Heap} {v w : Value} {active : List (Option Addr)} {n : Nat}

/-- A layer of a document in which no text or byte string holds both kinds of quotes. -/
def Even (h : Heap) : Object Value → Prop
  | .list .. => True
  | .map _ es => ∀ e ∈ es, ∃ s, (h.view e.1).text? = some s
  | .text _ s => OneQuote s.toList
  | .bytes _ bs => OneQuote (bs.map byteChar)
  | o => o.IsScalar

/-- The line of a document has no line feed. -/
theorem newline_line {line : String} (hv : Unmet h active v) (he : h.Everywhere (Even h) v)
    (hl : lineWithin h n active v = .ok line) : '\n' ∉ line.toList := by
  induction n generalizing active v line with
  | zero => cases hl
  | succ n ih =>
    have hpart : ∀ w, h.Part v w → ∀ s, lineWithin h n (inside h active v) w = .ok s →
        '\n' ∉ s.toList := fun w hp s hs => ih (hv.part hp) (he.of_within (.single hp)) hs
    have hlayer := he.here
    cases hview : h.view v with
    | map c es =>
      rw [hview] at hlayer
      obtain ⟨ds, parts, -, hperm, hparts, rfl⟩ := line_map hv hview hlayer hl
      have hentries : ∀ s ∈ parts, '\n' ∉ s.toList := by
        intro s hs
        obtain ⟨e, hm, hentry⟩ := exists_right hparts.flip s hs
        obtain ⟨key, x, hkey, hx, rfl⟩ := entryLine_eq_ok hentry
        obtain ⟨hp₁, hp₂⟩ := entry_parts hview (hperm.subset hm)
        simpa using ⟨hpart e.1 hp₁ key hkey, hpart e.2 hp₂ x hx⟩
      exact newline_enclosed (by decide) (by decide) hentries
    | list c xs =>
      obtain ⟨parts, hparts, rfl⟩ := line_list hv hview hl
      have hitems : ∀ s ∈ parts, '\n' ∉ s.toList := by
        intro s hs
        obtain ⟨x, hm, hx⟩ := exists_right hparts.flip s hs
        exact hpart x (item_part hview hm) s hx
      exact newline_enclosed (by decide) (by decide) hitems
    | _ =>
      have hs : (h.view v).IsScalar := by
        rw [hview] at hlayer ⊢
        first | exact hlayer | exact trivial
      rw [line_scalar hs hl]
      exact newline_scalar hs

/-- **A value that is laid out takes no less room than its line.** -/
theorem length_line_le {line t : String} {r : Room} (hv : Unmet h active v)
    (he : h.Everywhere (Even h) v) (hl : lineWithin h n active v = .ok line)
    (ht : layoutWithin h n active r v = .ok t) : line.length ≤ t.length := by
  induction n generalizing active v r line t with
  | zero => cases hl
  | succ n ih =>
    have hlayer := he.here
    have hpart : ∀ w, h.Part v w → ∀ r s t, lineWithin h n (inside h active v) w = .ok s →
        layoutWithin h n (inside h active v) r w = .ok t → s.length ≤ t.length :=
      fun w hp r s t hs ht => ih (hv.part hp) (he.of_within (.single hp)) hs ht
    obtain ⟨line', hl', rfl | ⟨-, hbreakable, ht⟩⟩ := layoutWithin_cases hv ht
    · cases hl.symm.trans hl'
      exact Nat.le_refl _
    cases hview : h.view v with
    | map c es =>
      rw [hview] at hlayer ht
      obtain ⟨ds, parts, hds, hperm, hparts, rfl⟩ := line_map hv hview hlayer hl
      obtain ⟨ds', hds', ht⟩ := bind_eq_ok.mp ht
      cases hds.symm.trans hds'
      obtain ⟨body, hbody, he⟩ := bind_eq_ok.mp ht
      obtain ⟨rows, hrows, rfl⟩ := stacked_eq_ok hbody
      cases he
      have hsmaller : List.Forall₂ (fun s t : String => s.length ≤ t.length) parts rows := by
        refine smaller_parts hparts hrows ?_
        rintro e hm s t hs ⟨k, ht⟩
        obtain ⟨hp₁, hp₂⟩ := entry_parts hview (hperm.subset hm)
        obtain ⟨name, htext⟩ := hlayer e (hperm.subset hm)
        obtain ⟨key, x, hkey, hx, rfl⟩ := entryLine_eq_ok hs
        obtain ⟨key', hkey', ht⟩ := bind_eq_ok.mp ht
        obtain ⟨y, hy, he⟩ := bind_eq_ok.mp ht
        cases he
        have hscalar := isScalar_of_text htext
        have hle := hpart e.2 hp₂ _ x y hx hy
        rw [line_scalar hscalar hkey, line_scalar hscalar hkey']
        simp only [String.length_append]
        omega
      have hwhole := length_stacked (r.indent + 1) hsmaller
      simp only [String.length_append]
      omega
    | list c xs =>
      rw [hview] at ht
      obtain ⟨parts, hparts, rfl⟩ := line_list hv hview hl
      obtain ⟨body, hbody, he⟩ := bind_eq_ok.mp ht
      obtain ⟨rows, hrows, rfl⟩ := stacked_eq_ok hbody
      cases he
      have hsmaller := smaller_parts hparts hrows fun x hx s t hs ⟨k, ht⟩ =>
        hpart x (item_part hview hx) _ s t hs ht
      have hwhole := length_stacked (r.indent + 1) hsmaller
      simp only [String.length_append]
      omega
    | text c s =>
      have hs : (h.view v).IsScalar := by rw [hview]; trivial
      rw [line_scalar hs hl, hview]
      rw [hview] at hlayer ht
      cases ht
      exact length_textLayout hlayer _
    | bytes c bs =>
      have hs : (h.view v).IsScalar := by rw [hview]; trivial
      rw [line_scalar hs hl, hview]
      rw [hview] at hlayer ht
      cases ht
      exact length_bytesLayout hlayer _
    | _ =>
      rw [hview] at hlayer hbreakable
      first | exact hlayer.elim | cases hbreakable

end Whole

end Layout

/-- **A document that is laid out in no more columns than a page has is on one line**, where no text
or byte string in it holds both kinds of quotes. -/
theorem newline_layout {h : Heap} {v : Value} (hv : h.Acyclic v)
    (he : h.Everywhere (Layout.Even h) v) {s : String} (hs : h.layout v = .ok s)
    (hn : (s.length : Int) ≤ Layout.pageWidth) : '\n' ∉ s.toList := by
  have hunmet : Layout.Unmet h [] v := ⟨List.not_mem_nil, untouched_nil v, hv⟩
  obtain ⟨line, hline, rfl | ⟨hwide, -, -⟩⟩ := Layout.layoutWithin_cases hunmet hs
  · exact Layout.newline_line hunmet he hline
  · have hle := Layout.length_line_le hunmet he hline hs
    have hwidth : Layout.Room.width ⟨0, 0, 0⟩ = Layout.pageWidth := rfl
    omega

end DocDelta
