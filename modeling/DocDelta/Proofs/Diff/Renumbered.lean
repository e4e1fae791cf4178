import DocDelta.Proofs.Diff.Tally

/-! The same changes in another order.

Where steps change places, so do the changes under different names, and the items that change are
numbered anew. `Renumbered` is that correspondence: at every place the same is done as a whole, one action
after the other, and the same items change, in some order. -/
namespace DocDelta.Diff
open Heap Patch

/-! ### What is done where -/

/-- What a change does as a whole at a place below a base. -/
def Change.actionAt? (base : Label) (place : String) : Change → Option Action
  | .whole path action => if (joinAll base path).text = place then some action else none
  | .item .. => none

/-- What is done as a whole at a place, one action after the other. -/
def actionsAt (base : Label) (place : String) (cs : List Change) : List Action :=
  cs.filterMap (·.actionAt? base place)

/-- An item that changes: the names of its sequence, its place there and what it becomes. -/
abbrev ItemChange := List String × Nat × Value

def Change.item? : Change → Option ItemChange
  | .whole .. => none
  | .item path index v => some (path.map (·.text), index, v)

/-- The items that change, in the order of their placeholders. -/
def itemsIn (cs : List Change) : List ItemChange := cs.filterMap Change.item?

section Changes
variable {cs ds : List Change} {base base' : Label} {place : String} {l k : Label}

theorem actionsAt_append :
    actionsAt base place (cs ++ ds) = actionsAt base place cs ++ actionsAt base place ds :=
  List.filterMap_append ..

theorem itemsIn_append : itemsIn (cs ++ ds) = itemsIn cs ++ itemsIn ds := List.filterMap_append ..

theorem actionsAt_under :
    actionsAt base place (cs.map (·.under l)) = actionsAt (joinPath base l) place cs := by
  rw [actionsAt, List.filterMap_map]
  refine List.filterMap_congr fun c _ => ?_
  cases c <;> rfl

/-- Only the texts of labels matter. -/
theorem actionsAt_congr (hb : base.text = base'.text) :
    actionsAt base place cs = actionsAt base' place cs := by
  refine List.filterMap_congr fun c _ => ?_
  cases c with
  | whole path action =>
    rw [Change.actionAt?, Change.actionAt?, text_joinAll hb, ← text_joinAll rfl]
  | item path index v => rfl

theorem itemsIn_under :
    itemsIn (cs.map (·.under l)) = (itemsIn cs).map fun i => (l.text :: i.1, i.2) := by
  rw [itemsIn, itemsIn, List.filterMap_map, List.map_filterMap]
  refine congrArg (List.filterMap · cs) (funext fun c => ?_)
  cases c <;> rfl

/-- What is done at a place is done below the first name of it that can be told. -/
theorem names_of_actionsAt (hl : Segment l.text)
    (ha : actionsAt (joinPath base l) place cs ≠ []) : names base.text ++ [l.text] <+: names place := by
  obtain ⟨a, ha⟩ := List.exists_mem_of_ne_nil _ ha
  obtain ⟨c, _, hc⟩ := List.mem_filterMap.mp ha
  cases c with
  | item path index v => cases hc
  | whole path action =>
    obtain ⟨hplace, _⟩ := Option.ite_none_right_eq_some.mp hc
    rw [← names_joinPath base hl, ← hplace]
    exact names_prefix_joinAll _ path

end Changes

/-- Names that can be told from each other. -/
def Distinct (l k : Label) : Prop := Segment l.text ∧ Segment k.text ∧ l.text ≠ k.text

/-- At most one of several steps under different names does anything at a place, so their order
does not matter to it. -/
theorem actionsAt_perm {es es' : List (Label × List Change)} (hp : es.Perm es')
    (hd : (es.map (·.1)).Pairwise Distinct) (base : Label) (place : String) :
    actionsAt base place (spread es) = actionsAt base place (spread es') := by
  induction hp with
  | nil => rfl
  | cons e _ ih =>
    rw [spread, spread, List.flatMap_cons, List.flatMap_cons, actionsAt_append, actionsAt_append]
    exact congrArg (_ ++ ·) (ih (List.pairwise_cons.mp hd).2)
  | swap e e' es =>
    obtain ⟨hs', hs, hne⟩ : Distinct e'.1 e.1 :=
      (List.pairwise_cons.mp hd).1 _ (List.mem_cons_self ..)
    have hone : actionsAt (joinPath base e.1) place e.2 = [] ∨
        actionsAt (joinPath base e'.1) place e'.2 = [] := by
      by_contra hboth
      obtain ⟨ha, ha'⟩ := not_or.mp hboth
      have hsame := List.prefix_of_prefix_length_le (names_of_actionsAt hs' ha')
        (names_of_actionsAt hs ha) (by simp)
      have hsame := List.append_cancel_left (hsame.eq_of_length (by simp))
      exact hne (List.singleton_inj.mp hsame)
    simp only [spread, List.flatMap_cons, actionsAt_append, actionsAt_under]
    rcases hone with hnone | hnone <;> simp [hnone]
  | trans hp _ ih ih' =>
    have hsymm : ∀ {l k : Label}, Distinct l k → Distinct k l := fun hlk =>
      ⟨hlk.2.1, hlk.1, hlk.2.2.symm⟩
    exact (ih hd).trans (ih' (((hp.map _).pairwise_iff hsymm).mp hd))

/-! ### Correspondence -/

/-- Two actions that do the same with values that `E` relates. -/
inductive Action.Same (E : Value → Value → Prop) : Action → Action → Prop
  | set {v w : Value} (he : E v w) : Same E (.set v) (.set w)
  | unset : Same E .unset .unset
  | push {xs ys : List Value} (he : List.Forall₂ E xs ys) : Same E (.push xs) (.push ys)

/-- Two items at one place become values that `E` relates. -/
structure SameItem (E : Value → Value → Prop) (i j : ItemChange) : Prop where
  names : i.1 = j.1
  index : i.2.1 = j.2.1
  value : E i.2.2 j.2.2

/-- The same is done at every place, and the same items change, in some order; none does where
changes are `flat`. -/
structure Renumbered (flat : Prop) (E : Value → Value → Prop) (cs ds : List Change) : Prop where
  left : ∀ c ∈ cs, ∀ l ∈ c.path, Unnumbered l.text
  right : ∀ d ∈ ds, ∀ l ∈ d.path, Unnumbered l.text
  wholes : ∀ base place,
    List.Forall₂ (Action.Same E) (actionsAt base place cs) (actionsAt base place ds)
  items : Relation.Comp (List.Forall₂ (SameItem E)) List.Perm (itemsIn cs) (itemsIn ds)
  flat : flat → itemsIn cs = []

section Correspondence
variable {flat : Prop} {E : Value → Value → Prop} {cs ds : List Change}

theorem unnumbered_under {l : Label} (hl : Unnumbered l.text)
    (hp : ∀ c ∈ cs, ∀ k ∈ c.path, Unnumbered k.text) :
    ∀ c ∈ cs.map (·.under l), ∀ k ∈ c.path, Unnumbered k.text := by
  intro d hd k hk
  obtain ⟨c, hc, rfl⟩ := List.mem_map.mp hd
  rw [Change.path_under] at hk
  rcases List.mem_cons.mp hk with rfl | hk
  · exact hl
  · exact hp c hc k hk

theorem tallying_renumbered : Tallying (fun l k => l.text = k.text ∧ Unnumbered l.text) Distinct
    (Renumbered flat E) where
  nil := ⟨nofun, nofun, fun _ _ => .nil, ⟨[], .nil, .refl _⟩, fun _ => rfl⟩
  append := by
    rintro as as' bs bs' ⟨hl, hr, hw, ⟨xs, hx, hxp⟩, hf⟩ ⟨hl', hr', hw', ⟨ys, hy, hyp⟩, hf'⟩
    refine ⟨List.forall_mem_append.mpr ⟨hl, hl'⟩, List.forall_mem_append.mpr ⟨hr, hr'⟩,
      fun base place => ?_, ⟨xs ++ ys, ?_, ?_⟩, fun h => ?_⟩
    · rw [actionsAt_append, actionsAt_append]
      exact List.rel_append (hw base place) (hw' base place)
    · rw [itemsIn_append]
      exact List.rel_append hx hy
    · rw [itemsIn_append]
      exact hxp.append hyp
    · rw [itemsIn_append, hf h, hf' h]
      rfl
  under := by
    rintro as bs l k ⟨hlk, hnumber⟩ ⟨hl, hr, hw, ⟨xs, hx, hxp⟩, hf⟩
    refine ⟨unnumbered_under hnumber hl, unnumbered_under (hlk ▸ hnumber) hr, fun base place => ?_,
      ⟨xs.map fun i => (l.text :: i.1, i.2), ?_, ?_⟩, fun h => ?_⟩
    · rw [actionsAt_under, actionsAt_under, actionsAt_congr (text_joinPath rfl hlk)]
      exact hw _ place
    · rw [itemsIn_under]
      refine List.forall₂_map_left_iff.mpr (List.forall₂_map_right_iff.mpr (hx.imp fun i j hij => ?_))
      exact ⟨congrArg (l.text :: ·) hij.names, hij.index, hij.value⟩
    · rw [itemsIn_under, ← hlk]
      exact hxp.map _
    · rw [itemsIn_under, hf h]
      rfl
  perm := by
    rintro as es es' hp hd ⟨hl, hr, hw, ⟨xs, hx, hxp⟩, hf⟩
    have hspread : (spread es).Perm (spread es') := hp.flatMap_right _
    refine ⟨hl, fun d hd => hr d (hspread.mem_iff.mpr hd), fun base place => ?_,
      ⟨xs, hx, hxp.trans (hspread.filterMap _)⟩, hf⟩
    rw [← actionsAt_perm hp hd]
    exact hw base place

theorem allows_renumbered :
    Allows PlainName (fun l k => l.text = k.text ∧ Unnumbered l.text) Distinct :=
  ⟨fun hp he => ⟨he, hp.unnumbered⟩, fun hp hp' hne => ⟨hp.1, hp'.1, hne⟩⟩

theorem Renumbered.symm (hr : Renumbered flat E cs ds) : Renumbered flat (fun v w => E w v) ds cs where
  left := hr.right
  right := hr.left
  wholes base place := by
    refine (hr.wholes base place).flip.imp fun a b hab => ?_
    cases hab with
    | set he => exact .set he
    | unset => exact .unset
    | push he => exact .push he.flip
  items := by
    obtain ⟨xs, hx, hp⟩ := hr.items
    have hcomp : Relation.Comp List.Perm (List.Forall₂ (SameItem fun v w => E w v)) (itemsIn ds)
        (itemsIn cs) :=
      ⟨xs, hp.symm, hx.flip.imp fun i j hij => ⟨hij.names.symm, hij.index.symm, hij.value⟩⟩
    rwa [← List.forall₂_comp_perm_eq_perm_comp_forall₂] at hcomp
  flat h := by
    obtain ⟨xs, hx, hp⟩ := hr.items
    rw [hr.flat h, List.forall₂_nil_left_iff] at hx
    subst hx
    exact List.nil_perm.mp hp

/-- One change as a whole, at the place where both walks stand. -/
theorem renumbered_here {a b : Action} (hab : Action.Same E a b) :
    Renumbered flat E [.whole [] a] [.whole [] b] where
  left := by simp [Change.path]
  right := by simp [Change.path]
  wholes base place := by
    by_cases hplace : base.text = place
    · simp [actionsAt, Change.actionAt?, joinAll, hplace, hab]
    · simp [actionsAt, Change.actionAt?, joinAll, hplace]
  items := ⟨[], .nil, .refl _⟩
  flat _ := rfl

/-- The changes of the items of one sequence. -/
theorem renumbered_items {is js : List (Nat × Value)} (hflat : flat → is = [])
    (hp : List.Forall₂ (fun i j => i.1 = j.1 ∧ E i.2 j.2) is js) :
    Renumbered flat E (is.map fun i => .item [] i.1 i.2) (js.map fun j => .item [] j.1 j.2) := by
  have hpaths : ∀ is : List (Nat × Value), ∀ c ∈ is.map (fun i => Change.item [] i.1 i.2),
      ∀ l ∈ c.path, Unnumbered l.text := by
    intro is c hc l hl
    obtain ⟨i, _, rfl⟩ := List.mem_map.mp hc
    cases hl
  have hnone : ∀ base place, ∀ is : List (Nat × Value),
      actionsAt base place (is.map fun i => .item [] i.1 i.2) = [] := by
    intro base place is
    induction is with
    | nil => rfl
    | cons i is ih => exact ih
  have hitems : ∀ is : List (Nat × Value),
      itemsIn (is.map fun i => .item [] i.1 i.2) = is.map fun i => ([], i) := by
    intro is
    induction is with
    | nil => rfl
    | cons i is ih => exact congrArg (_ :: ·) ih
  refine ⟨hpaths is, hpaths js, fun base place => ?_, ⟨_, ?_, .refl _⟩, fun h => ?_⟩
  · rw [hnone, hnone]
    exact .nil
  · rw [hitems, hitems]
    refine List.forall₂_map_left_iff.mpr (List.forall₂_map_right_iff.mpr (hp.imp fun i j hij => ?_))
    exact ⟨rfl, hij.1, hij.2⟩
  · rw [hflat h]
    rfl

end Correspondence

end DocDelta.Diff
