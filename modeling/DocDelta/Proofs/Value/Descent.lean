import DocDelta.Proofs.Value.Answers

/-! How far equality descends.

Equality of layers is put together from the tests of their parts and knows nothing else of them,
so what two ways of testing parts have in common, two layers tested with them have in common too
(`Stepwise.sameObject`).

Equality is given up when it has gone a number of layers down. An answer does not depend on
that number: where one bound is enough for an answer every larger one gives the same
(`sameWithin_mono`), so values are equal as soon as they are for some bound (`Equal`), and
what is equal in that sense is what `same` reports wherever it comes to an answer. -/
namespace DocDelta

/-! ### Relations of tests -/

/-- A relation of tests that is kept by putting tests together: by answers, by the refusal of a
signaling NaN, and by going on with an answer. -/
structure Stepwise (R : ∀ {α : Type}, Except Fault α → Except Fault α → Prop) : Prop where
  ok : ∀ {α : Type} (a : α), R (.ok a) (.ok a)
  invalid : ∀ {α : Type}, R (.error .invalidOperation : Except Fault α) (.error .invalidOperation)
  bind : ∀ {α β : Type} {x y : Except Fault α} {f g : α → Except Fault β}, R x y →
    (∀ a, R (f a) (g a)) → R (x >>= f) (y >>= g)

namespace Stepwise
variable {R : ∀ {α : Type}, Except Fault α → Except Fault α → Prop}

theorem ite {α : Type} {c : Prop} [Decidable c] {x y u v : Except Fault α} (hx : R x y)
    (hu : R u v) : R (if c then x else u) (if c then y else v) := by
  split
  · exact hx
  · exact hu

variable {h : Heap} {eq eq' : Value → Value → Except Fault Bool} (hR : Stepwise @R)
include hR

theorem numbers (x y : Object Value) :
    R (Heap.sameObject.numbers h x y) (Heap.sameObject.numbers h x y) := by
  have hreals : ∀ d e : Number.Decimal, R (Numeric.same.reals d e) (Numeric.same.reals d e) :=
    fun _ _ => ite hR.invalid (hR.ok _)
  unfold Heap.sameObject.numbers
  split
  · rename_i a b _ _
    cases a with
    | real d =>
      cases b with
      | real e => exact hreals d e
      | complex re im => exact ite (hreals _ _) (hR.ok _)
    | complex re im =>
      cases b with
      | real e => exact ite (hreals _ _) (hR.ok _)
      | complex re' im' => exact hR.ok _
  · exact hR.ok _

variable (he : ∀ u w, R (eq u w) (eq' u w))
include he

theorem matchPart (a b : Value) : R (matchPart h eq a b) (DocDelta.matchPart h eq' a b) :=
  ite (hR.ok true) (he a b)

theorem matchParts (as bs : List Value) :
    R (matchParts h eq as bs) (DocDelta.matchParts h eq' as bs) := by
  induction as generalizing bs with
  | nil => cases bs <;> exact hR.ok _
  | cons a as ih =>
    cases bs with
    | nil => exact hR.ok _
    | cons b bs => exact hR.bind (hR.matchPart he a b) fun _ => ite (ih bs) (hR.ok _)

theorem hasPart (x : Value) (ys : List Value) :
    R (hasPart h eq x ys) (DocDelta.hasPart h eq' x ys) := by
  induction ys with
  | nil => exact hR.ok _
  | cons y ys ih => exact hR.bind (hR.matchPart he y x) fun _ => ite (hR.ok _) ih

theorem findPart (key : Value) (es : List (Value × Value)) :
    R (findPart h eq key es) (DocDelta.findPart h eq' key es) := by
  induction es with
  | nil => exact hR.ok _
  | cons e es ih => exact hR.bind (hR.matchPart he e.1 key) fun _ => ite (hR.ok _) ih

theorem coversItems (xs ys : List Value) :
    R (coversItems h eq ys xs) (DocDelta.coversItems h eq' ys xs) := by
  induction xs with
  | nil => exact hR.ok _
  | cons x xs ih => exact hR.bind (hR.hasPart he x ys) fun _ => ite ih (hR.ok _)

theorem coversEntries (as bs : List (Value × Value)) :
    R (coversEntries h eq bs as) (DocDelta.coversEntries h eq' bs as) := by
  induction as with
  | nil => exact hR.ok _
  | cons e as ih =>
    refine hR.bind (hR.findPart he e.1 bs) fun found => ?_
    cases found with
    | none => exact hR.ok _
    | some w => exact hR.bind (hR.matchPart he e.2 w) fun _ => ite ih (hR.ok _)

/-- Layers are compared alike where their parts are. -/
theorem sameObject (x y : Object Value) : R (h.sameObject eq x y) (h.sameObject eq' x y) := by
  have hmaps : ∀ as bs, R (Heap.sameObject.sameEntries h eq as bs)
      (Heap.sameObject.sameEntries h eq' as bs) := fun as bs =>
    ite (hR.coversEntries he as bs) (hR.ok _)
  unfold Heap.sameObject
  split
  case h_13 => exact ite (hR.matchParts he _ _) (hR.ok _)
  case h_14 => exact ite (hR.coversItems he _ _) (hR.ok _)
  case h_15 => exact ite (hR.coversItems he _ _) (hR.ok _)
  case h_16 => exact ite (hR.coversItems he _ _) (hR.ok _)
  case h_17 => exact ite (hR.coversItems he _ _) (hR.ok _)
  case h_18 =>
    split
    · exact hmaps _ _
    · exact hR.ok _
  case h_19 =>
    split
    · exact hmaps _ _
    · exact hR.ok _
  case h_20 =>
    split
    · exact ite (hR.numbers _ _) (hR.ok _)
    · exact ite (hR.matchParts he _ _) (ite (hR.matchParts he _ _) (hR.ok _))
    · split
      · exact hR.matchParts he _ _
      · exact hR.numbers _ _
  all_goals exact hR.ok _

end Stepwise

/-! ### Tests that answer what others answer -/

/-- What the first test answers the second answers too. -/
def Yields {α : Type} (x y : Except Fault α) : Prop := ∀ r, x = .ok r → y = .ok r

theorem stepwise_yields : Stepwise @Yields where
  ok _ _ hr := hr
  invalid _ hr := hr
  bind hx hf r hr := by
    obtain ⟨a, ha, hfa⟩ := bind_eq_ok.mp hr
    exact bind_eq_ok.mpr ⟨a, hx a ha, hf a r hfa⟩

namespace Heap
variable {h : Heap}

/-! ### Equality within a bound -/

/-- What equality finds within a bound it finds within any larger one. -/
theorem sameWithin_mono {n m : Nat} (hm : n ≤ m) (a b : Value) :
    Yields (h.sameWithin n a b) (h.sameWithin m a b) := by
  induction n generalizing m a b with
  | zero => exact fun r hr => by cases hr
  | succ n ih =>
    obtain ⟨m, rfl⟩ : ∃ k, m = k + 1 := ⟨m - 1, by omega⟩
    rw [sameWithin, sameWithin]
    exact Stepwise.ite (stepwise_yields.ok _)
      (stepwise_yields.sameObject (fun u w => ih (by omega) u w) _ _)

/-- Two values are equal, however far down that shows. -/
def Equal (h : Heap) (a b : Value) : Prop := ∃ n, h.sameWithin n a b = .ok true

/-- Two values are one object or equal. -/
def Matches (h : Heap) (a b : Value) : Prop := Value.isSame h a b = true ∨ h.Equal a b

variable {a b : Value}

/-- Equal values are found to be equal within any bound that is enough for an answer. -/
theorem sameWithin_of_equal {n : Nat} (he : h.Equal a b) (hans : Answers (h.sameWithin n a b)) :
    h.sameWithin n a b = .ok true := by
  obtain ⟨m, hm⟩ := he
  obtain ⟨r, hr⟩ := hans
  have hfound := sameWithin_mono (Nat.le_max_left m n) a b true hm
  have hbound := sameWithin_mono (Nat.le_max_right m n) a b r hr
  cases hfound.symm.trans hbound
  exact hr

theorem matchPart_of_matches {n : Nat} (hm : h.Matches a b) (hans : Answers (h.sameWithin n a b)) :
    matchPart h (h.sameWithin n) a b = .ok true := by
  unfold matchPart
  split
  · rfl
  · exact sameWithin_of_equal (hm.resolve_left ‹_›) hans

theorem matches_of_matching (hm : h.matching a b = .ok true) : h.Matches a b := by
  unfold matching matchPart at hm
  split at hm
  · exact .inl ‹_›
  · exact .inr ⟨_, hm⟩

theorem matching_of_matches (hm : h.Matches a b) (hans : Answers (h.matching a b)) :
    h.matching a b = .ok true := by
  unfold matching matchPart at hans ⊢
  split at hans
  · exact if_pos ‹_›
  · rename_i hs
    rw [if_neg hs]
    exact sameWithin_of_equal (hm.resolve_left hs) hans

end Heap
end DocDelta
