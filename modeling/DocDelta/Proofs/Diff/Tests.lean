import DocDelta.Diff.Walk
import DocDelta.Proofs.Value.Descent

/-! What the tests of a comparison fail with.

A comparison asks its values whether they are equal or zero and what they hold. Where a value
does not support what it is asked for, the failure tells of no place in the document: only the
walks, which know where they are, name a path, and only the check of the patch that comes out
finds a flaw in it. -/
namespace DocDelta
open Heap Number

/-- Whether a failure says only that a value does not support what is asked of it. -/
def Fault.isPlaceless : Fault → Bool
  | .misuse _ | .noSuchAttribute | .invalidOperation | .tooDeep => true
  | _ => false

/-- A test whose failures tell of no place. -/
def Placeless {α : Type} (x : Except Fault α) : Prop := ∀ e, x = .error e → e.isPlaceless = true

section Placeless
variable {α β : Type} {x y : Except Fault α}

theorem placeless_ok (a : α) : Placeless (.ok a) := nofun

theorem placeless_error {e : Fault} (he : e.isPlaceless = true) : Placeless (.error e : Except Fault α) := by
  intro d hd
  cases hd
  exact he

theorem placeless_bind {f : α → Except Fault β} (hx : Placeless x) (hf : ∀ a, Placeless (f a)) :
    Placeless (x >>= f) := by
  cases x with
  | error e => exact placeless_error (hx e rfl)
  | ok a => exact hf a

theorem placeless_ite {c : Prop} [Decidable c] (hx : Placeless x) (hy : Placeless y) :
    Placeless (if c then x else y) := by
  split
  · exact hx
  · exact hy

theorem placeless_allHold {f : α → Except Fault Bool} (hf : ∀ a, Placeless (f a)) (xs : List α) :
    Placeless (allHold f xs) := by
  induction xs with
  | nil => exact placeless_ok true
  | cons a xs ih => exact placeless_bind (hf a) fun _ => placeless_ite ih (placeless_ok false)

theorem placeless_filterM {f : α → Except Fault Bool} (hf : ∀ a, Placeless (f a)) (xs : List α) :
    Placeless (xs.filterM f) := by
  have haux : ∀ xs acc : List α, Placeless (xs.filterAuxM f acc) := by
    intro xs
    induction xs with
    | nil => exact fun acc => placeless_ok acc
    | cons a xs ih => exact fun acc => placeless_bind (hf a) fun _ => ih _
  exact placeless_bind (haux xs []) fun _ => placeless_ok _

theorem placeless_foldlM {f : β → α → Except Fault β} (hf : ∀ b a, Placeless (f b a)) (xs : List α)
    (b : β) : Placeless (xs.foldlM f b) := by
  induction xs generalizing b with
  | nil => exact placeless_ok b
  | cons a xs ih =>
    rw [List.foldlM_cons]
    exact placeless_bind (hf b a) fun _ => ih _

end Placeless

namespace Heap
variable {h : Heap}

theorem stepwise_placeless : Stepwise fun x y => Placeless x ∧ Placeless y where
  ok a := ⟨placeless_ok a, placeless_ok a⟩
  invalid := ⟨placeless_error rfl, placeless_error rfl⟩
  bind hx hf := ⟨placeless_bind hx.1 fun a => (hf a).1, placeless_bind hx.2 fun a => (hf a).2⟩

theorem placeless_sameWithin (n : Nat) (a b : Value) : Placeless (h.sameWithin n a b) := by
  induction n generalizing a b with
  | zero => exact placeless_error rfl
  | succ n ih =>
    exact placeless_ite (placeless_ok _) (stepwise_placeless.sameObject (fun u w => ⟨ih u w, ih u w⟩) _ _).1

theorem placeless_same (a b : Value) : Placeless (h.same a b) ∧ Placeless (h.same a b) :=
  ⟨placeless_sameWithin _ a b, placeless_sameWithin _ a b⟩

theorem placeless_matching (a b : Value) : Placeless (h.matching a b) :=
  (stepwise_placeless.matchPart placeless_same a b).1

theorem placeless_find? (key : Value) (es : List (Value × Value)) : Placeless (h.find? key es) :=
  (stepwise_placeless.findPart placeless_same key es).1

theorem placeless_isZeroScalar (o : Object Value) : Placeless (h.isZeroScalar o) := by
  unfold isZeroScalar
  split
  case h_8 => exact placeless_ite (placeless_error rfl) (placeless_ok _)
  all_goals exact placeless_ok _

theorem placeless_isZeroWithin (n : Nat) (active : List (Option Addr)) (v : Value) :
    Placeless (h.isZeroWithin n active v) := by
  induction n generalizing active v with
  | zero => exact placeless_error rfl
  | succ n ih =>
    rw [isZeroWithin]
    split
    · exact placeless_ok _
    · exact placeless_ok _
    · split
      · exact placeless_ite (placeless_ok _) (placeless_allHold (fun f => ih _ _) _)
      · exact placeless_allHold (fun f => ih _ _) _
    · exact placeless_isZeroScalar _

theorem placeless_isZero (v : Value) : Placeless (h.isZero v) := placeless_isZeroWithin _ _ v

theorem placeless_equalParts {eq : Value → Value → Except Fault Bool} (he : ∀ u w, Placeless (eq u w))
    (x y : Object Value) : Placeless (h.equalParts eq x y) := by
  unfold equalParts
  split
  · refine placeless_ite (placeless_allHold (fun name => ?_) _) (placeless_ok _)
    split
    · exact he _ _
    · exact placeless_ok _
  · have hkeys : Placeless (h.sameKeys ((h.entries? x).getD []) ((h.entries? y).getD [])) :=
      placeless_ite (placeless_ok _) (placeless_allHold
        (fun e => placeless_bind (placeless_find? _ _) fun _ => placeless_ok _) _)
    refine placeless_bind hkeys fun _ => placeless_ite (placeless_allHold (fun e => ?_) _) (placeless_ok _)
    refine placeless_bind (placeless_find? _ _) fun found => ?_
    cases found with
    | none => exact placeless_ok _
    | some w => exact he _ _
  · exact placeless_ite (placeless_allHold (fun p => he _ _) _) (placeless_ok _)

/-- A pair of objects is compared under the assumption that it is equal. -/
theorem placeless_assumed {active : Assumed} {a b : Value} {f : Assumed → Except Fault Bool}
    (hf : ∀ active, Placeless (f active)) :
    Placeless (if Value.isSame h a b then .ok true else match h.assume active a b with
      | none => .ok true
      | some active => f active) := by
  refine placeless_ite (placeless_ok _) ?_
  split
  · exact placeless_ok _
  · exact hf _

theorem placeless_deepEqualWithin (n : Nat) (active : Assumed) (a b : Value) :
    Placeless (h.deepEqualWithin n active a b) := by
  induction n generalizing active a b with
  | zero => exact placeless_error rfl
  | succ n ih =>
    rw [deepEqualWithin]
    refine placeless_ite (placeless_ok _) ?_
    split
    · exact placeless_matching a b
    · exact placeless_matching a b
    · exact placeless_matching a b
    · exact placeless_assumed fun active => placeless_equalParts (fun u w => ih active u w) _ _

theorem placeless_deepEqual (a b : Value) : Placeless (h.deepEqual a b) := placeless_deepEqualWithin _ _ a b

theorem placeless_iterate (v : Value) : Placeless (h.iterate v) := by
  dsimp only [iterate]
  split
  case h_6 =>
    split
    · exact placeless_ok _
    · exact placeless_ok _
    · exact placeless_error rfl
  all_goals exact placeless_ok _

end Heap

/-! ### What a walk asks -/

namespace Diff
variable {h : Heap} {o : Options}

theorem placeless_itemsOf (v : Value) : Placeless (itemsOf h v) := by
  dsimp only [itemsOf]
  split
  case h_4 =>
    split
    · exact placeless_ok _
    · exact placeless_error rfl
  all_goals exact placeless_iterate v

theorem placeless_changedPlaces (i : Nat) (xs ys : List Value) : Placeless (changedPlaces h i xs ys) := by
  induction xs generalizing i ys with
  | nil => exact placeless_ok []
  | cons x xs ih =>
    cases ys with
    | nil => exact placeless_ok []
    | cons y ys =>
      exact placeless_bind (placeless_deepEqual x y) fun _ => placeless_bind (ih _ ys) fun _ => placeless_ok _

theorem placeless_firstChange (i : Nat) (xs ys : List Value) : Placeless (firstChange h i xs ys) := by
  induction xs generalizing i ys with
  | nil => exact placeless_ok none
  | cons x xs ih =>
    cases ys with
    | nil => exact placeless_ok none
    | cons y ys =>
      exact placeless_bind (placeless_deepEqual x y) fun _ => placeless_ite (ih _ ys) (placeless_ok _)

theorem placeless_decideByIdentifier (old new : Value) (names : List String) :
    Placeless (decideByIdentifier h old new names) := by
  induction names with
  | nil => exact placeless_deepEqual old new
  | cons name names ih =>
    rw [decideByIdentifier]
    split
    · exact ih
    · refine placeless_bind (placeless_isZeroScalar _) fun _ => placeless_ite ih ?_
      split
      · exact ih
      · exact placeless_deepEqual _ _

theorem placeless_findSimilar (item : Value) (xs : List (Nat × Value)) :
    Placeless (findSimilar h item xs) := by
  induction xs with
  | nil => exact placeless_ok none
  | cons e xs ih =>
    refine placeless_bind ?_ fun _ => placeless_ite (placeless_ok _) ih
    exact placeless_ite (placeless_decideByIdentifier _ _ _) (placeless_deepEqual _ _)

theorem placeless_add (p : Pairing) (item : Value) : Placeless (p.add h item) := by
  refine placeless_bind (placeless_findSimilar item _) fun found => ?_
  cases found with
  | none => exact placeless_ok _
  | some e =>
    exact placeless_bind (placeless_deepEqual _ _) fun _ => placeless_ite (placeless_ok _) (placeless_ok _)

theorem placeless_pairUp (xs ys : List Value) : Placeless (pairUp h xs ys) := placeless_foldlM placeless_add ys _

theorem placeless_activeFields (old new : Value) (path : Label) :
    Placeless (activeFields h o old new path) := by
  unfold activeFields
  split
  · exact placeless_error rfl
  · exact placeless_ok _

theorem placeless_unionKeys (as bs : List (Value × Value)) : Placeless (unionKeys h as bs) :=
  placeless_bind (placeless_filterM
    (fun e => placeless_bind (placeless_find? e.1 as) fun _ => placeless_ok _) bs) fun _ => placeless_ok _

theorem placeless_entriesOf (v : Value) : Placeless (entriesOf h v) := by
  unfold entriesOf
  split
  · exact placeless_ok _
  · exact placeless_error rfl

theorem placeless_valueUnder (key : Value) (es : List (Value × Value)) :
    Placeless (valueUnder h key es) := placeless_bind (placeless_find? key es) fun _ => placeless_ok _

end Diff
end DocDelta
