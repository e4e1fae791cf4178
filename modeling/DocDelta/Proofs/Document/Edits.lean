import DocDelta.Proofs.Diff.Changes
import DocDelta.Proofs.Document.Agreement

/-! What edits make of a document.

An edit goes down a path of names and places and sets, unsets or pushes what it finds there. A
list of edits that go through names acts on each name by itself: what comes to be under a name is
what the edits below that name, taken in their order, make of what was there. So edits below
distinct names can be told one name at a time, whatever their order. -/
namespace DocDelta.Document
open Heap Diff

/-! ### Edits -/

/-- One step down a document: to the entry under a name, or to an item of a list. -/
inductive Place
  | name (s : String)
  | item (index : Nat)

/-- An action on what is at the end of a path; the values of the action are documents. -/
abbrev Edit := List Place × Action

section Definitions
variable (h : Heap)

/-- The entries at a place; where there is nothing there is room for a map. -/
def entriesAt : Option Value → Option (List (Value × Value))
  | none => some []
  | some d => match h.view d with
    | .nil => some []
    | .map none es => some es
    | _ => none

/-- The items at a place; where there is nothing there is room for a list. -/
def itemsAt : Option Value → Option (List Value)
  | none => some []
  | some d => match h.view d with
    | .nil => some []
    | .list none xs => some xs
    | _ => none

/-- Entries with something else, or nothing, under a name. -/
def putAt (s : String) (c : Option Value) (es : List (Value × Value)) : List (Value × Value) :=
  (es.filter fun e => !h.isText s e.1) ++ (c.map fun d => (.text s, d)).toList

/-- What an action makes of a place. -/
def act : Action → Option Value → Option (Option Value)
  | .set d, _ => some (some d)
  | .unset, _ => some none
  | .push ds, c => do return some (.list ((← itemsAt h c) ++ ds))

/-- What an action at the end of a path makes of a place. An item must be there. -/
def edit (action : Action) : List Place → Option Value → Option (Option Value)
  | [], c => act h action c
  | .name s :: rest, c => do
    let es ← entriesAt h c
    return some (.map (putAt h s (← edit action rest (h.entry? s es)) es))
  | .item i :: rest, c => do
    let xs ← itemsAt h c
    let x ← xs[i]?
    return some (.list (xs.set i ((← edit action rest (some x)).getD .nil)))

/-- What edits make of a place, one after another. -/
def runEdits (edits : List Edit) (c : Option Value) : Option (Option Value) :=
  edits.foldlM (fun c e => edit h e.2 e.1 c) c

end Definitions

/-- The edits below a name. -/
def below (s : String) (edits : List Edit) : List Edit :=
  edits.filterMap fun
    | (.name t :: rest, action) => if t = s then some (rest, action) else none
    | _ => none

/-- An edit seen from one name further up. -/
def Edit.under (s : String) (e : Edit) : Edit := (.name s :: e.1, e.2)

variable {h : Heap} {c e : Option Value} {s t : String} {as bs es : List (Value × Value)}

theorem runEdits_cons (e : Edit) (M : List Edit) (c : Option Value) :
    runEdits h (e :: M) c = (edit h e.2 e.1 c).bind (runEdits h M) := rfl

@[simp] theorem entriesAt_map (es : List (Value × Value)) :
    entriesAt h (some (.map es)) = some es := rfl

theorem entriesAt_nil {d : Value} (hd : h.view d = .nil) : entriesAt h (some d) = some [] := by
  simp only [entriesAt, hd]

@[simp] theorem itemsAt_list (xs : List Value) : itemsAt h (some (.list xs)) = some xs := rfl

theorem entry?_append : h.entry? s (as ++ bs) = ( h.entry? s as).or ( h.entry? s bs) := by
  simp [Heap.entry?, List.find?_append, Option.map_or]

theorem entry?_filter (s t : String) (es : List (Value × Value)) :
    h.entry? t (es.filter fun e => !h.isText s e.1) = if s = t then none else h.entry? t es := by
  induction es with
  | nil => simp
  | cons e es ih =>
    rw [List.filter_cons, entry?_cons]
    by_cases hs : h.isText s e.1 = true
    · have ht : s ≠ t → ¬ h.isText t e.1 = true := by
        rw [isText_iff] at hs ⊢
        exact fun hne ht => hne (Option.some.inj (hs.symm.trans ht))
      rw [hs, if_neg (by decide), ih]
      by_cases hst : s = t
      · rw [if_pos hst, if_pos hst]
      · rw [if_neg hst, if_neg hst, if_neg (ht hst)]
    · rw [Bool.eq_false_iff.mpr hs, if_pos (by decide), entry?_cons, ih]
      by_cases hst : s = t
      · rw [if_pos hst, if_pos hst, if_neg (hst ▸ hs)]
      · rw [if_neg hst, if_neg hst]

/-- **Putting something under a name changes what is found there, and nothing else.** -/
theorem entry?_putAt (s t : String) (c : Option Value) (es : List (Value × Value)) :
    h.entry? t (putAt h s c es) = if s = t then c else h.entry? t es := by
  have htail : h.entry? t ((c.map fun d => (Value.text s, d)).toList) = if s = t then c else none := by
    cases c with
    | none => simp
    | some d =>
      show h.entry? t [(.text s, d)] = _
      simp only [entry?_cons, isText_text]
      rfl
  rw [putAt, entry?_append, entry?_filter, htail]
  by_cases hst : s = t <;> simp [hst]

/-! ### Edits below names -/

/-- **What comes to be under each name is what the edits below it make of what was there.** -/
theorem runEdits_below {M : List Edit} {r : String → Option Value}
    (hM : ∀ e ∈ M, ∃ s e', e = Edit.under s e') (hc : entriesAt h c = some es)
    (hr : ∀ s, runEdits h (below s M) ( h.entry? s es) = some (r s)) :
    ∃ c' es', runEdits h M c = some c' ∧ entriesAt h c' = some es' ∧ ∀ s, h.entry? s es' = r s := by
  induction M generalizing c es with
  | nil => exact ⟨c, es, rfl, hc, fun s => Option.some.inj (hr s)⟩
  | cons e M ih =>
    obtain ⟨s, ⟨rest, action⟩, rfl⟩ := hM e (List.mem_cons_self ..)
    have hs := hr s
    have hbelow : below s (Edit.under s (rest, action) :: M) = (rest, action) :: below s M := by
      simp [below, Edit.under]
    rw [hbelow, runEdits_cons] at hs
    obtain ⟨inner, hinner, hs⟩ := Option.bind_eq_some_iff.mp hs
    have hstep : edit h action (.name s :: rest) c = some (some (.map (putAt h s inner es))) := by
      rw [edit, hc]
      show (edit h action rest ( h.entry? s es) >>= _) = _
      rw [hinner]
      rfl
    rw [runEdits_cons]
    show ∃ c' es', (edit h action (.name s :: rest) c).bind (runEdits h M) = some c' ∧ _
    rw [hstep]
    refine ih (fun e he => hM e (List.mem_cons_of_mem _ he)) (entriesAt_map _) fun t => ?_
    rw [entry?_putAt]
    by_cases hst : s = t
    · rw [if_pos hst, ← hst]
      exact hs
    · rw [if_neg hst, ← hr t]
      simp [below, Edit.under, hst]

theorem below_perm {M L : List Edit} (hp : M.Perm L) (s : String) :
    (below s M).Perm (below s L) := hp.filterMap _

theorem below_under (s t : String) (L : List Edit) :
    below t (L.map (Edit.under s)) = if s = t then L else [] := by
  by_cases hst : s = t
  · induction L with
    | nil => simp [below]
    | cons e L ih =>
      rw [if_pos hst] at ih ⊢
      simpa [below, Edit.under, hst] using ih
  · rw [if_neg hst]
    simp [below, Edit.under, hst]

section Branches
variable {α : Type} {f : α → String} {g : α → List Edit} {xs : List α}

theorem below_flatMap_of_notMem (hs : s ∉ xs.map f) :
    below s (xs.flatMap fun x => (g x).map (Edit.under (f x))) = [] := by
  rw [below, List.filterMap_flatMap]
  refine List.flatMap_eq_nil_iff.mpr fun x hx => ?_
  have hne : f x ≠ s := fun he => hs (he ▸ List.mem_map_of_mem hx)
  exact (below_under (f x) s (g x)).trans (if_neg hne)

/-- Of edits below distinct names, those below one of them. -/
theorem below_flatMap (hn : (xs.map f).Nodup) {x : α} (hx : x ∈ xs) :
    below (f x) (xs.flatMap fun y => (g y).map (Edit.under (f y))) = g x := by
  induction xs with
  | nil => cases hx
  | cons y ys ih =>
    obtain ⟨hy, hn⟩ := List.nodup_cons.mp hn
    have hcons : below (f x) ((y :: ys).flatMap fun y => (g y).map (Edit.under (f y))) =
        below (f x) ((g y).map (Edit.under (f y))) ++
          below (f x) (ys.flatMap fun y => (g y).map (Edit.under (f y))) := by
      simp only [below, List.flatMap_cons, List.filterMap_append]
    rw [hcons, below_under]
    rcases List.mem_cons.mp hx with rfl | hx
    · rw [if_pos rfl, below_flatMap_of_notMem hy, List.append_nil]
    · have hne : f y ≠ f x := fun he => hy (he ▸ List.mem_map_of_mem hx)
      rw [if_neg hne, ih hn hx, List.nil_append]

end Branches

/-! ### Edits of items -/

/-- The edits that set items. -/
def setItems (updates : List (Nat × Value)) : List Edit :=
  updates.map fun u => ([.item u.1], .set u.2)

/-- **Setting items of a list changes those, and no others.** -/
theorem runEdits_setItems {updates : List (Nat × Value)} (ds : List Value)
    (hn : (updates.map (·.1)).Nodup) (hl : ∀ u ∈ updates, u.1 < ds.length) :
    ∃ es, runEdits h (setItems updates) (some (.list ds)) = some (some (.list es)) ∧
      es.length = ds.length ∧ (∀ u ∈ updates, es[u.1]? = some u.2) ∧
      ∀ i ∉ updates.map (·.1), es[i]? = ds[i]? := by
  induction updates generalizing ds with
  | nil => exact ⟨ds, rfl, rfl, nofun, fun i _ => rfl⟩
  | cons u updates ih =>
    obtain ⟨hu, hn⟩ := List.nodup_cons.mp hn
    have hlt := hl u (List.mem_cons_self ..)
    obtain ⟨es, hrun, hlength, hset, hother⟩ := ih (ds.set u.1 u.2) hn fun w hw => by
      rw [List.length_set]
      exact hl w (List.mem_cons_of_mem u hw)
    have hstep : edit h (.set u.2) [.item u.1] (some (.list ds)) = some (some (.list (ds.set u.1 u.2))) := by
      rw [edit, itemsAt_list]
      show (ds[u.1]? >>= _) = _
      rw [List.getElem?_eq_getElem hlt]
      rfl
    refine ⟨es, ?_, by rw [hlength, List.length_set], fun w hw => ?_, fun i hi => ?_⟩
    · rw [setItems, List.map_cons, runEdits_cons]
      show (edit h (.set u.2) [.item u.1] (some (.list ds))).bind _ = _
      rw [hstep]
      exact hrun
    · rcases List.mem_cons.mp hw with rfl | hw
      · rw [hother w.1 hu, List.getElem?_set_self hlt]
      · exact hset w hw
    · rw [List.map_cons, List.mem_cons, not_or] at hi
      rw [hother i hi.2, List.getElem?_set_ne (Ne.symm hi.1)]

/-- Edits that set items, in another order, set the same items. -/
theorem setItems_perm {updates : List (Nat × Value)} {M : List Edit}
    (hp : M.Perm (setItems updates)) :
    ∃ updates', M = setItems updates' ∧ updates'.Perm updates := by
  have hcomp := congrFun (congrFun (List.eq_map_comp_perm fun u : Nat × Value =>
    (([.item u.1], .set u.2) : Edit)) M) updates
  exact hcomp.mpr hp

/-! ### Agreement of maps -/

theorem entriesAt_eq_some (hc : entriesAt h c = some es) :
    (es = [] ∧ Blank h c) ∨ ∃ d, c = some d ∧ h.view d = .map none es := by
  cases c with
  | none =>
    cases hc
    exact .inl ⟨rfl, .absent⟩
  | some d =>
    unfold entriesAt at hc
    dsimp only at hc
    split at hc
    · cases hc
      exact .inl ⟨rfl, blank_nil ‹_›⟩
    · cases hc
      exact .inr ⟨d, rfl, ‹_›⟩
    · cases hc

theorem blank_of_entries (hc : entriesAt h c = some es) (hb : ∀ s, Blank h ( h.entry? s es)) :
    Blank h c := by
  rcases entriesAt_eq_some hc with ⟨_, hc⟩ | ⟨d, rfl, hd⟩
  · exact hc
  · exact .map hd hb

/-- **Places agree when what is under each name does.** -/
theorem agree_of_entries (hc : entriesAt h c = some as) (he : entriesAt h e = some bs)
    (hp : ∀ s, Agree h ( h.entry? s as) ( h.entry? s bs)) : Agree h c e := by
  have hnone : ∀ {e : Option Value}, Agree h none e → Blank h e := fun ha => by
    cases ha with
    | blank hc he => exact he
  have hnone' : ∀ {c : Option Value}, Agree h c none → Blank h c := fun ha => by
    cases ha with
    | blank hc he => exact hc
  rcases entriesAt_eq_some hc with ⟨rfl, hbc⟩ | ⟨d, rfl, hd⟩
  · exact .blank hbc (blank_of_entries he fun s => hnone (hp s))
  · rcases entriesAt_eq_some he with ⟨rfl, hbe⟩ | ⟨k, rfl, hk⟩
    · exact .blank (blank_of_entries hc fun s => hnone' (hp s)) hbe
    · exact .map hd hk hp

end DocDelta.Document
