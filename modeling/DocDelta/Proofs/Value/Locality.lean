import DocDelta.Proofs.Value.Acyclic
import DocDelta.Proofs.Value.Outline
import DocDelta.Value.Contents
import DocDelta.Value.DeepEqual

/-! What equality looks at.

Two heaps with the same outlines may show different parts. They are the `SameOn` a set of values
that holds the contents of its values when they show each of these alike; then every kind of
equality between two values of the set has the same answer in both. The value of an enumeration's
member is not looked into, so it need not be in the set. -/
namespace DocDelta

namespace Object
variable {α : Type}

/-- What stands in a layer, except for the value of an enumeration's member. -/
def contents : Object α → List α
  | .member .. => []
  | o => o.children

theorem contents_children {o : Object α} {w : α} (hw : w ∈ o.contents) : w ∈ o.children := by
  cases o <;> first | exact hw | cases hw

theorem children_contents {o : Object α} {w : α} (ho : ∀ c n v, o ≠ .member c n v)
    (hw : w ∈ o.children) : w ∈ o.contents := by
  cases o <;> first | exact hw | exact absurd rfl (ho _ _ _)

theorem attribute?_contents {o : Object α} {name : String} {w : α} (ha : o.attribute? name = some w) :
    w ∈ o.contents := by
  cases o with
  | record c as =>
    obtain ⟨a, hf, rfl⟩ := Option.map_eq_some_iff.mp ha
    exact List.mem_map.mpr ⟨a, List.mem_of_find?_eq_some hf, rfl⟩
  | _ => cases ha

theorem items?_contents {o : Object α} {xs : List α} (ho : o.items? = some xs) : o.contents = xs := by
  cases o with
  | list c ys => cases ho; rfl
  | tuple c ys => cases ho; rfl
  | record c as =>
    simp only [items?] at ho
    split at ho
    · cases ho
      rfl
    · cases ho
  | _ => cases ho

theorem tupleItems?_contents {o : Object α} {xs : List α} (ho : o.tupleItems? = some xs) :
    o.contents = xs := by
  cases o with
  | tuple c ys => cases ho; rfl
  | record c as =>
    simp only [tupleItems?] at ho
    split at ho
    · cases ho
      rfl
    · cases ho
  | _ => cases ho

end Object

namespace Heap
variable {h h' : Heap}

/-- Two heaps of one size that show the same outlines. -/
structure Congruent (h h' : Heap) : Prop where
  size : h'.size = h.size
  outline : ∀ v, (h'.view v).outline = (h.view v).outline

/-- Two heaps that show the same of some values and of what stands in these. -/
structure SameOn (h h' : Heap) (D : Value → Prop) : Prop extends Congruent h h' where
  view : ∀ {v}, D v → h'.view v = h.view v
  below : ∀ {v w}, D v → w ∈ (h.view v).contents → D w

/-! ### Outlines -/

section Congruent
variable (hs : Congruent h h')
include hs

theorem Congruent.kind (v : Value) : (h'.view v).kind = (h.view v).kind := by
  rw [← Object.kind_outline, hs.outline, Object.kind_outline]

theorem Congruent.isRecord (v : Value) : (h'.view v).isRecord = (h.view v).isRecord := by
  rw [← Object.isRecord_outline, hs.outline, Object.isRecord_outline]

theorem Congruent.text? (v : Value) : (h'.view v).text? = (h.view v).text? := by
  rw [← Object.text?_outline, hs.outline, Object.text?_outline]

/-- The exported fields of a record. -/
theorem Congruent.fields (v : Value) : (h'.view v).fields = (h.view v).fields := by
  have hown : ∀ o : Object Value, o.fields = (o.outline.fields? []).getD [] := fun o =>
    congrArg (Option.getD · []) (Object.fields?_outline o []).symm
  rw [hown, hs.outline, ← hown]

theorem Congruent.identity (v : Value) : v.identity h' = v.identity h := by
  cases v with
  | inline o => cases o <;> rfl
  | ref a =>
    have hmark : ∀ g : Heap, (Value.ref a).identity g =
        if (g.view (.ref a)).isNil then some none else some (some a) := by
      intro g
      rw [Heap.view, Value.identity]
      generalize g.object a = o
      cases o <;> rfl
    rw [hmark, hmark, ← Object.isNil_outline, hs.outline, Object.isNil_outline]

theorem Congruent.isSame (a b : Value) : Value.isSame h' a b = Value.isSame h a b := by
  unfold Value.isSame
  rw [hs.identity, hs.identity]

theorem Congruent.pairBound (a b : Value) : h'.pairBound a b = h.pairBound a b := by
  simp only [Heap.pairBound, hs.size]

theorem Congruent.layerBound (v : Value) : h'.layerBound v = h.layerBound v := by
  simp only [Heap.layerBound, hs.size]

theorem Congruent.isText (s : String) (v : Value) : h'.isText s v = h.isText s v := by
  unfold Heap.isText
  rw [hs.text?]

/-- The number that a layer denotes. -/
theorem Congruent.numeric? (o : Object Value) : h'.numeric? o = h.numeric? o := by
  cases o with
  | member c n v =>
    simp only [Heap.numeric?]
    rw [← Object.whole?_outline, hs.outline, Object.whole?_outline]
  | _ => rfl

theorem Congruent.numbers (x y : Object Value) :
    sameObject.numbers h' x y = sameObject.numbers h x y := by
  unfold sameObject.numbers
  rw [hs.numeric?, hs.numeric?]

theorem Congruent.isZeroScalar (o : Object Value) : h'.isZeroScalar o = h.isZeroScalar o := by
  unfold Heap.isZeroScalar
  simp only [hs.numeric?]

end Congruent

/-! ### Equality -/

section SameOn
variable {D : Value → Prop} {eq eq' : Value → Value → Except Fault Bool} (hs : SameOn h h' D)
include hs

/-- The entries of a mapping whose contents are in the set. -/
theorem SameOn.entriesFrom {n : Nat} {o : Object Value} (ho : ∀ w ∈ o.contents, D w) :
    h'.entriesFrom n o = h.entriesFrom n o ∧
      ∀ es, h.entriesFrom n o = some es → ∀ e ∈ es, D e.1 ∧ D e.2 := by
  have hmap : ∀ {c : Option Subclass} {es : List (Value × Value)},
      (∀ w ∈ (Object.map c es).contents, D w) → ∀ e ∈ es, D e.1 ∧ D e.2 := fun hes e he =>
    ⟨hes _ (entry_children (c := none) he).1, hes _ (entry_children (c := none) he).2⟩
  induction n generalizing o with
  | zero =>
    cases o with
    | map c es => exact ⟨rfl, fun _ he => Option.some.inj he ▸ hmap ho⟩
    | _ => exact ⟨rfl, nofun⟩
  | succ n ih =>
    cases o with
    | map c es => exact ⟨rfl, fun _ he => Option.some.inj he ▸ hmap ho⟩
    | mapView t =>
      have ht : D t := ho t (List.mem_singleton.mpr rfl)
      have htarget := ih fun w hw => hs.below ht hw
      refine ⟨?_, htarget.2⟩
      show h'.entriesFrom n (h'.view t) = h.entriesFrom n (h.view t)
      rw [hs.view ht]
      exact htarget.1
    | _ => exact ⟨rfl, nofun⟩

theorem SameOn.entries? {o : Object Value} (ho : ∀ w ∈ o.contents, D w) :
    h'.entries? o = h.entries? o := by
  unfold Heap.entries?
  rw [hs.size]
  exact (hs.entriesFrom ho).1

theorem SameOn.of_entries {o : Object Value} (ho : ∀ w ∈ o.contents, D w) :
    ∀ e ∈ (h.entries? o).getD [], D e.1 ∧ D e.2 := by
  intro e he
  cases hes : h.entries? o with
  | none =>
    rw [hes] at he
    cases he
  | some es =>
    rw [hes] at he
    exact (hs.entriesFrom ho).2 es hes e he

variable (he : ∀ u w, D u → D w → eq' u w = eq u w)
include he

theorem SameOn.matchPart {a b : Value} (ha : D a) (hb : D b) :
    matchPart h' eq' a b = matchPart h eq a b := by
  unfold DocDelta.matchPart
  rw [hs.isSame, he a b ha hb]

theorem SameOn.matchParts {as bs : List Value} (ha : ∀ a ∈ as, D a) (hb : ∀ b ∈ bs, D b) :
    matchParts h' eq' as bs = matchParts h eq as bs := by
  induction as generalizing bs with
  | nil => cases bs <;> rfl
  | cons a as ih =>
    cases bs with
    | nil => rfl
    | cons b bs =>
      rw [DocDelta.matchParts, DocDelta.matchParts,
        hs.matchPart he (ha a (List.mem_cons_self ..)) (hb b (List.mem_cons_self ..)),
        ih (fun x hx => ha x (List.mem_cons_of_mem a hx)) fun y hy => hb y (List.mem_cons_of_mem b hy)]

theorem SameOn.hasPart {x : Value} {ys : List Value} (hx : D x) (hy : ∀ y ∈ ys, D y) :
    hasPart h' eq' x ys = hasPart h eq x ys := by
  induction ys with
  | nil => rfl
  | cons y ys ih =>
    rw [DocDelta.hasPart, DocDelta.hasPart, hs.matchPart he (hy y (List.mem_cons_self ..)) hx,
      ih fun z hz => hy z (List.mem_cons_of_mem y hz)]

theorem SameOn.coversItems {xs ys : List Value} (hx : ∀ x ∈ xs, D x) (hy : ∀ y ∈ ys, D y) :
    coversItems h' eq' ys xs = coversItems h eq ys xs := by
  induction xs with
  | nil => rfl
  | cons x xs ih =>
    rw [DocDelta.coversItems, DocDelta.coversItems, hs.hasPart he (hx x (List.mem_cons_self ..)) hy,
      ih fun z hz => hx z (List.mem_cons_of_mem x hz)]

theorem SameOn.findPart {key : Value} {es : List (Value × Value)} (hk : D key)
    (hes : ∀ e ∈ es, D e.1) : findPart h' eq' key es = findPart h eq key es := by
  induction es with
  | nil => rfl
  | cons e es ih =>
    rw [DocDelta.findPart, DocDelta.findPart, hs.matchPart he (hes e (List.mem_cons_self ..)) hk,
      ih fun d hd => hes d (List.mem_cons_of_mem e hd)]

theorem SameOn.coversEntries {as bs : List (Value × Value)} (ha : ∀ e ∈ as, D e.1 ∧ D e.2)
    (hb : ∀ e ∈ bs, D e.1 ∧ D e.2) : coversEntries h' eq' bs as = coversEntries h eq bs as := by
  induction as with
  | nil => rfl
  | cons e as ih =>
    obtain ⟨hkey, hvalue⟩ := ha e (List.mem_cons_self ..)
    rw [DocDelta.coversEntries, DocDelta.coversEntries,
      hs.findPart he hkey fun d hd => (hb d hd).1, ih fun d hd => ha d (List.mem_cons_of_mem e hd)]
    cases hf : DocDelta.findPart h eq e.1 bs with
    | error e => rfl
    | ok found =>
      cases found with
      | none => rfl
      | some w =>
        obtain ⟨d, hd, _, rfl⟩ := findPart_match hf
        show (do if ← DocDelta.matchPart h' eq' e.2 d.2 then _ else _) = _
        rw [hs.matchPart he hvalue (hb d hd).2]
        rfl

/-- Equality of two layers whose contents are in the set. -/
theorem SameOn.sameObject {x y : Object Value} (hx : ∀ w ∈ x.contents, D w)
    (hy : ∀ w ∈ y.contents, D w) : h'.sameObject eq' x y = h.sameObject eq x y := by
  have hnumbers := hs.numbers x y
  have hentries := hs.entries? hy
  have hmaps : ∀ {as bs : List (Value × Value)}, (∀ e ∈ as, D e.1 ∧ D e.2) →
      (∀ e ∈ bs, D e.1 ∧ D e.2) →
        sameObject.sameEntries h' eq' as bs = sameObject.sameEntries h eq as bs := by
    intro as bs ha hb
    unfold sameObject.sameEntries
    rw [hs.coversEntries he ha hb]
  have hparts : ∀ {as bs : List Value}, (∀ w ∈ as, w ∈ x.contents) → (∀ w ∈ bs, w ∈ y.contents) →
      DocDelta.matchParts h' eq' as bs = DocDelta.matchParts h eq as bs :=
    fun ha hb => hs.matchParts he (fun w hw => hx w (ha w hw)) fun w hw => hy w (hb w hw)
  have hitems : ∀ {as bs : List Value}, (∀ w ∈ as, w ∈ x.contents) → (∀ w ∈ bs, w ∈ y.contents) →
      DocDelta.coversItems h' eq' bs as = DocDelta.coversItems h eq bs as :=
    fun ha hb => hs.coversItems he (fun w hw => hx w (ha w hw)) fun w hw => hy w (hb w hw)
  unfold Heap.sameObject
  split
  case h_13 => exact congrArg (ite _ · _) (hparts (fun _ hw => hw) fun _ hw => hw)
  case h_14 => exact congrArg (ite _ · _) (hitems (fun _ hw => hw) fun _ hw => hw)
  case h_15 => exact congrArg (ite _ · _) (hitems (fun _ hw => hw) fun _ hw => hw)
  case h_16 => exact congrArg (ite _ · _) (hitems (fun _ hw => hw) fun _ hw => hw)
  case h_17 => exact congrArg (ite _ · _) (hitems (fun _ hw => hw) fun _ hw => hw)
  case h_18 _ t =>
    have ht : D t := hx t (List.mem_singleton.mpr rfl)
    have hbelow : ∀ w ∈ (h.view t).contents, D w := fun w hw => hs.below ht hw
    rw [hentries, hs.view ht, hs.entries? hbelow]
    split
    · rename_i as bs ha hb
      have has := hs.of_entries hbelow
      have hbs := hs.of_entries hy
      rw [ha] at has
      rw [hb] at hbs
      exact hmaps has hbs
    · rfl
  case h_19 cls as _ =>
    rw [hentries]
    split
    · rename_i bs hb
      have hbs := hs.of_entries hy
      rw [hb] at hbs
      refine hmaps (fun e hm => ?_) hbs
      exact ⟨hx _ (entry_children (c := none) hm).1, hx _ (entry_children (c := none) hm).2⟩
    · rfl
  case h_20 =>
    split
    · rw [hnumbers]
    · exact congrArg (fun r => ite _ r (ite _ r _)) (hparts (fun _ hw => hw) fun _ hw => hw)
    · split
      · rename_i ha hb
        exact hparts (fun w hw => Object.tupleItems?_contents ha ▸ hw)
          fun w hw => Object.tupleItems?_contents hb ▸ hw
      · exact hnumbers
  all_goals rfl

end SameOn

section SameOn
variable {D : Value → Prop} (hs : SameOn h h' D)
include hs

theorem SameOn.sameWithin {n : Nat} {a b : Value} (ha : D a) (hb : D b) :
    h'.sameWithin n a b = h.sameWithin n a b := by
  induction n generalizing a b with
  | zero => rfl
  | succ n ih =>
    rw [Heap.sameWithin, Heap.sameWithin, hs.view ha, hs.view hb, hs.isSame,
      hs.sameObject (fun u w hu hw => ih hu hw) (fun w hw => hs.below ha hw)
        fun w hw => hs.below hb hw]

/-- Equality by meaning. -/
theorem SameOn.same {a b : Value} (ha : D a) (hb : D b) : h'.same a b = h.same a b := by
  rw [Heap.same, Heap.same, hs.pairBound, hs.sameWithin ha hb]

theorem SameOn.matching {a b : Value} (ha : D a) (hb : D b) : h'.matching a b = h.matching a b :=
  hs.matchPart (fun _ _ hu hw => hs.same hu hw) ha hb

theorem SameOn.find? {key : Value} {es : List (Value × Value)} (hk : D key) (hes : ∀ e ∈ es, D e.1) :
    h'.find? key es = h.find? key es := hs.findPart (fun _ _ hu hw => hs.same hu hw) hk hes

theorem SameOn.sameKeys {as bs : List (Value × Value)} (ha : ∀ e ∈ as, D e.1) (hb : ∀ e ∈ bs, D e.1) :
    h'.sameKeys as bs = h.sameKeys as bs := by
  unfold Heap.sameKeys
  rw [allHold_congr fun e he => by rw [hs.find? (ha e he) hb]]

theorem SameOn.equalParts {eq eq' : Value → Value → Except Fault Bool} {x y : Object Value}
    (he : ∀ u w, D u → D w → eq' u w = eq u w) (hx : ∀ w ∈ x.contents, D w)
    (hy : ∀ w ∈ y.contents, D w) : h'.equalParts eq' x y = h.equalParts eq x y := by
  unfold Heap.equalParts
  split
  · split
    · refine allHold_congr fun name _ => ?_
      split
      · rename_i u w hu hw
        exact he u w (hx u (Object.attribute?_contents hu)) (hy w (Object.attribute?_contents hw))
      · rfl
    · rfl
  · have ha := hs.of_entries hx
    have hb := hs.of_entries hy
    rw [hs.entries? hx, hs.entries? hy]
    generalize (h.entries? x).getD [] = as at ha ⊢
    generalize (h.entries? y).getD [] = bs at hb ⊢
    dsimp only
    rw [hs.sameKeys (fun e he => (ha e he).1) fun e he => (hb e he).1]
    refine congrArg (h.sameKeys as bs >>= ·) (funext fun same => ?_)
    refine congrArg (fun r => if same = true then r else .ok false) (allHold_congr fun e hm => ?_)
    rw [hs.find? (ha e hm).1 fun d hd => (hb d hd).1]
    cases hf : h.find? e.1 bs with
    | error e => rfl
    | ok found =>
      cases found with
      | none => rfl
      | some w =>
        obtain ⟨d, hd, rfl⟩ := find?_mem hf
        exact he e.2 d.2 (ha e hm).2 (hb d hd).2
  · have hitems : ∀ {o : Object Value}, ∀ w ∈ o.items?.getD [], w ∈ o.contents := by
      intro o w hw
      cases hi : o.items? with
      | none =>
        rw [hi] at hw
        cases hw
      | some xs =>
        rw [hi] at hw
        exact Object.items?_contents hi ▸ hw
    refine congrArg (ite _ · _) (allHold_congr fun p hp => ?_)
    have hp := List.of_mem_zip hp
    exact he p.1 p.2 (hx p.1 (hitems _ hp.1)) (hy p.2 (hitems _ hp.2))

theorem SameOn.deepEqualWithin {n : Nat} {active : Assumed} {a b : Value} (ha : D a) (hb : D b) :
    h'.deepEqualWithin n active a b = h.deepEqualWithin n active a b := by
  induction n generalizing active a b with
  | zero => rfl
  | succ n ih =>
    have hassume : h'.assume active a b = h.assume active a b := by
      unfold Heap.assume
      rw [hs.identity, hs.identity]
    rw [Heap.deepEqualWithin, Heap.deepEqualWithin, hs.view ha, hs.view hb, hs.isSame, hassume,
      hs.matching ha hb]
    cases h.assume active a b with
    | none => rfl
    | some inner =>
      dsimp only
      rw [hs.equalParts (fun u w hu hw => ih hu hw) (fun w hw => hs.below ha hw)
        fun w hw => hs.below hb hw]

/-- **Deep equality looks at no more than what is in the two values.** -/
theorem SameOn.deepEqual {a b : Value} (ha : D a) (hb : D b) : h'.deepEqual a b = h.deepEqual a b := by
  rw [Heap.deepEqual, Heap.deepEqual, hs.pairBound, hs.deepEqualWithin ha hb]

end SameOn
end Heap
end DocDelta
