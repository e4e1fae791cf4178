import DocDelta.Proofs.Diff.Agreeing
import DocDelta.Proofs.Diff.Places
import DocDelta.Proofs.Diff.Termination
import DocDelta.Proofs.Value.Reordered

/-! Sequences whose items come in other orders.

Whatever a strategy asks of the items of two sequences, it gets the same answer where the items are
`Reordered`: at which places they differ, which of them have one identity, and so which are paired.
Sequences are then reconciled in the same way, with equal values. -/
namespace DocDelta.Diff
open Heap Patch
variable {h : Heap} {K : ClassTable} {a b u w x y : Value}

/-! ### Equal values -/

/-- Two values that are deeply equal. -/
abbrev Equal (h : Heap) (v w : Value) : Prop := h.deepEqual v w = .ok true

theorem equal_lists {vs ws : List Value} (he : List.Forall₂ (Equal h) vs ws) :
    Equal h (.list vs) (.list ws) :=
  deepEqual_of_items rfl rfl rfl rfl he

/-- Equal values make equal operations. -/
theorem recordable_equal : Recordable (Equal h) where
  blank := by
    have htext : (h.view (.text "")).text? = some "" := rfl
    refine (deepEqual_leaf rfl rfl).trans ?_
    rw [matching, matchPart_same_text htext, htext]
    rfl
  several {vs ws} he := by
    have hentries : ∀ vs : List Value,
        h.entries? (h.view (.table [(Operator.each, .list vs)])) =
          some [(.text Operator.each, .list vs)] := fun _ => entries?_of_map
    refine deepEqual_of_related (.mapping rfl rfl ?_ ?_)
    · rw [hentries, hentries]
      rfl
    · rw [hentries, hentries]
      intro e hm
      obtain rfl := List.mem_singleton.mp hm
      refine ⟨.list ws, ?_, equal_lists he⟩
      rw [find?_of_text (s := Operator.each) rfl]
      rfl

/-! ### What is asked of items -/

theorem rel_filter {α β : Type} {R : α → β → Prop} {p : α → Bool} {q : β → Bool} {x : Option α}
    {y : Option β} (hr : Option.Rel R x y) (hpq : ∀ a b, R a b → p a = q b) :
    Option.Rel R (x.filter p) (y.filter q) := by
  cases hr with
  | none => exact .none
  | @some a b hab =>
    rw [Option.filter_some, Option.filter_some, hpq a b hab]
    split
    · exact .some hab
    · exact .none

theorem eq_missing_iff {o : Object Value} : o = .missing ↔ o.cls = .basic "object" := by
  cases o with
  | type n e => cases e <;> simp [Object.cls]
  | int c _ | float c _ | text c _ | bytes c _ | buffer c _ | list c _ | tuple c _ | set c _
  | frozenset c _ | map c _ => cases c <;> simp [Object.cls, Class.ofSubclass]
  | _ => simp [Object.cls]

/-- Values of one class are set or missing together. -/
theorem present_of_cls {o p : Object Value} : o.cls = p.cls →
    (match o with
      | .missing => false
      | _ => true) =
    match p with
      | .missing => false
      | _ => true := by
  intro hc
  by_cases ho : o = .missing
  · rw [ho, eq_missing_iff.mpr (hc.symm.trans (eq_missing_iff.mp ho))]
  · have hp : p ≠ .missing := fun hp => ho (eq_missing_iff.mpr (hc.trans (eq_missing_iff.mp hp)))
    split
    · exact absurd rfl ho
    · rfl

/-- The value that identifies an item. -/
theorem identifier?_reordered (hr : h.Reordered K a b) (name : String) :
    Option.Rel (h.Reordered K) (identifier? h a name) (identifier? h b name) := by
  refine rel_filter ?_ fun v w hvw => ?_
  · by_cases hk : (h.view a).kind = .mapping
    · obtain ⟨es, hes, -⟩ := hr.before.entries hk
      obtain ⟨fs, hfs, -⟩ := hr.after.entries (hr.order.kind.trans hk)
      rw [hes, hfs]
      exact hr.entry hes hfs name
    · rw [entries?_none hk, entries?_none (hr.order.kind ▸ hk)]
      exact hr.attribute name
  · exact present_of_cls hvw.order.cls.symm

theorem decideByIdentifier_reordered (ha : h.Reordered K a u) (hb : h.Reordered K b w)
    (names : List String) : decideByIdentifier h u w names = decideByIdentifier h a b names := by
  induction names with
  | nil => exact ha.deepEqual_eq hb
  | cons name names ih =>
    have hold := identifier?_reordered ha name
    have hnew := identifier?_reordered hb name
    unfold decideByIdentifier
    generalize identifier? h a name = x at *
    generalize identifier? h u name = x' at *
    generalize identifier? h b name = y at *
    generalize identifier? h w name = y' at *
    cases hnew with
    | none => exact ih
    | some hy =>
      simp only [hy.order.isZeroValue, ih]
      cases hold with
      | none => rfl
      | some hx => simp only [hx.deepEqual_eq hy]

theorem areSimilar_reordered (ha : h.Reordered K a u) (hb : h.Reordered K b w) :
    areSimilar h u w = areSimilar h a b := by
  have hclass : h.classOf u = h.classOf a := ha.order.cls
  unfold areSimilar
  simp only [hclass, hb.order.cls, hb.order.isRecord, hb.order.kind,
    decideByIdentifier_reordered ha hb, ha.deepEqual_eq hb]

/-- Two items at one place, one the other reordered. -/
def Indexed (h : Heap) (K : ClassTable) (e f : Nat × Value) : Prop :=
  e.1 = f.1 ∧ h.Reordered K e.2 f.2

/-- A similar item is found at the same place. -/
theorem findSimilar_reordered (hi : h.Reordered K x y) {es fs : List (Nat × Value)}
    (hp : List.Forall₂ (Indexed h K) es fs) : ∃ found found', findSimilar h x es = .ok found ∧
      findSimilar h y fs = .ok found' ∧ Option.Rel (Indexed h K) found found' := by
  induction hp with
  | nil => exact ⟨none, none, rfl, rfl, .none⟩
  | @cons e f es fs hef _ ih =>
    obtain ⟨found, found', hf, hf', hrel⟩ := ih
    obtain ⟨similar, hs⟩ := answers_areSimilar hef.2.before.sane hi.before.sane
    have hs' := (areSimilar_reordered hef.2 hi).trans hs
    cases similar with
    | true =>
      refine ⟨some e, some f, ?_, ?_, .some hef⟩
      · rw [findSimilar, hs]
        rfl
      · rw [findSimilar, hs']
        rfl
    | false =>
      refine ⟨found, found', ?_, ?_, hrel⟩
      · rw [findSimilar, hs]
        exact hf
      · rw [findSimilar, hs']
        exact hf'

/-- Items that are paired in the same way. -/
structure SamePairing (h : Heap) (K : ClassTable) (p q : Pairing) : Prop where
  unused : List.Forall₂ (Indexed h K) p.unused q.unused
  updates : List.Forall₂ (Indexed h K) p.updates q.updates
  additions : List.Forall₂ (h.Reordered K) p.additions q.additions

/-- What becomes of a pairing where a similar item is found. -/
theorem add_found {p : Pairing} {e : Nat × Value} {equal : Bool}
    (hf : findSimilar h x p.unused = .ok (some e)) (he : h.deepEqual e.2 x = .ok equal) :
    p.add h x = .ok ⟨p.unused.filter fun d => d.1 != e.1,
      if equal then p.updates else p.updates ++ [(e.1, x)], p.additions⟩ := by
  rw [Pairing.add, hf]
  show (h.deepEqual e.2 x >>= _) = _
  rw [he]
  cases equal <;> rfl

theorem add_reordered {p q : Pairing} (hp : SamePairing h K p q) (hi : h.Reordered K x y) :
    ∃ p' q', p.add h x = .ok p' ∧ q.add h y = .ok q' ∧ SamePairing h K p' q' := by
  obtain ⟨found, found', hf, hf', hrel⟩ := findSimilar_reordered hi hp.unused
  cases hrel with
  | none =>
    rw [Pairing.add, Pairing.add, hf, hf']
    exact ⟨_, _, rfl, rfl, hp.unused, hp.updates, List.rel_append hp.additions (.cons hi .nil)⟩
  | @some e f hef =>
    obtain ⟨equal, he⟩ := answers_deepEqual hef.2.before.sane hi.before.sane
    rw [add_found hf he, add_found hf' ((hef.2.deepEqual_eq hi).trans he)]
    refine ⟨_, _, rfl, rfl, List.rel_filter (fun d d' hd => ?_) hp.unused, ?_, hp.additions⟩
    · show (d.1 != e.1) = true ↔ (d'.1 != f.1) = true
      rw [hd.1, hef.1]
    · cases equal with
      | true => exact hp.updates
      | false => exact List.rel_append hp.updates (.cons ⟨hef.1, hi⟩ .nil)

/-- **Sequences of items in other orders are paired in the same way.** -/
theorem pairUp_reordered {xs ys xs' ys' : List Value} (hx : List.Forall₂ (h.Reordered K) xs xs')
    (hy : List.Forall₂ (h.Reordered K) ys ys') :
    ∃ p q, pairUp h xs ys = .ok p ∧ pairUp h xs' ys' = .ok q ∧ SamePairing h K p q := by
  have hfold : ∀ p q, SamePairing h K p q →
      ∃ p' q', ys.foldlM (fun p y => p.add h y) p = .ok p' ∧
        ys'.foldlM (fun p y => p.add h y) q = .ok q' ∧ SamePairing h K p' q' := by
    induction hy with
    | nil => exact fun p q hp => ⟨p, q, rfl, rfl, hp⟩
    | @cons y y' ys ys' hyy _ ih =>
      intro p q hp
      obtain ⟨p', q', hadd, hadd', hp'⟩ := add_reordered hp hyy
      obtain ⟨p'', q'', hrest, hrest', hp''⟩ := ih p' q' hp'
      refine ⟨p'', q'', ?_, ?_, hp''⟩
      · rw [List.foldlM_cons, hadd]
        exact hrest
      · rw [List.foldlM_cons, hadd']
        exact hrest'
  refine hfold _ _ ⟨?_, .nil, .nil⟩
  rw [List.forall₂_map_left_iff, List.forall₂_map_right_iff]
  obtain ⟨hl, hx⟩ := List.forall₂_iff_get.mp hx
  refine List.forall₂_iff_get.mpr ⟨by simp [hl], fun i hi hj => ?_⟩
  have hi' : i < xs.length := by simpa using hi
  have hj' : i < xs'.length := by simpa using hj
  simpa [Indexed] using hx i hi' hj'

theorem firstChange_reordered {xs ys xs' ys' : List Value}
    (hx : List.Forall₂ (h.Reordered K) xs xs') (hy : List.Forall₂ (h.Reordered K) ys ys') (i : Nat) :
    firstChange h i xs' ys' = firstChange h i xs ys := by
  induction hx generalizing ys ys' i with
  | nil => cases hy <;> rfl
  | cons hxx _ ih =>
    cases hy with
    | nil => rfl
    | cons hyy hy => rw [firstChange, firstChange, hxx.deepEqual_eq hyy, ih hy (i + 1)]

theorem changedPlaces_reordered {xs ys xs' ys' : List Value}
    (hx : List.Forall₂ (h.Reordered K) xs xs') (hy : List.Forall₂ (h.Reordered K) ys ys') (i : Nat) :
    changedPlaces h i xs' ys' = changedPlaces h i xs ys := by
  induction hx generalizing ys ys' i with
  | nil => cases hy <;> rfl
  | cons hxx _ ih =>
    cases hy with
    | nil => rfl
    | cons hyy hy => rw [changedPlaces, changedPlaces, hxx.deepEqual_eq hyy, ih hy (i + 1)]

theorem startsPrimitive_reordered {xs xs' : List Value} (hx : List.Forall₂ (h.Reordered K) xs xs') :
    startsPrimitive h xs' = startsPrimitive h xs := by
  cases hx with
  | nil => rfl
  | cons hxx _ => exact hxx.order.told Object.isPrimitive_outline

/-! ### Strategies -/

section Strategies
variable {active active' : List (Mark × Mark)} {path path' : Label} {flat : Prop}
variable {old new old' new' : Value} {xs ys xs' ys' : List Value}

theorem tally_unlessEqual {R : List Change → List Change → Prop} {N D : Label → Label → Prop}
    {base base' : Label} {m m' : Walk Unit} (hR : Tallying N D R)
    (he : h.deepEqual old' new' = h.deepEqual old new)
    (hm : h.deepEqual old new = .ok false → Tally R active active' base base' m m') :
    Tally R active active' base base' (unlessEqual h old new m) (unlessEqual h old' new' m') := by
  rw [unlessEqual, unlessEqual, he]
  refine tally_ask fun equal hequal => tally_ite (fun _ => ?_) fun hne => hm ?_
  · exact hR.nothing succeeds_pure succeeds_pure
  · rw [hequal, Bool.eq_false_of_not_eq_true hne]

/-- Two comparisons of sequences that ask the same and set the same: their items are reordered. -/
structure Resequenced (h : Heap) (K : ClassTable) (old new old' new' : Value)
    (xs ys xs' ys' : List Value) : Prop where
  olds : itemsOf h old = .ok xs
  news : itemsOf h new = .ok ys
  olds' : itemsOf h old' = .ok xs'
  news' : itemsOf h new' = .ok ys'
  former : List.Forall₂ (h.Reordered K) xs xs'
  latter : List.Forall₂ (h.Reordered K) ys ys'
  answer : h.deepEqual old' new' = h.deepEqual old new
  value : Equal h new new'

theorem equal_of_reordered {vs ws : List Value} (hp : List.Forall₂ (h.Reordered K) vs ws) :
    List.Forall₂ (Equal h) vs ws :=
  hp.imp fun _ _ hvw => hvw.deepEqual

/-- What stands at one place in either list. -/
theorem equal_at {vs ws : List Value} (hp : List.Forall₂ (h.Reordered K) vs ws) (i : Nat) :
    Equal h ((vs[i]?).getD .nil) ((ws[i]?).getD .nil) := by
  obtain ⟨hl, hp⟩ := List.forall₂_iff_get.mp hp
  by_cases hi : i < vs.length
  · have hi' : i < ws.length := hl ▸ hi
    simpa [hi, hi'] using (hp i hi hi').deepEqual
  · have hi' : ¬ i < ws.length := hl ▸ hi
    simpa [hi, hi'] using deepEqual_nil (h := h)

theorem isEmpty_congr {α β : Type} {R : α → β → Prop} {us : List α} {ws : List β}
    (hp : List.Forall₂ R us ws) : ws.isEmpty = us.isEmpty := by
  cases hp <;> rfl

theorem tally_set (he : Equal h new new') : Tally (Renumbered flat (Equal h)) active active' path path'
    (onPatch (·.set path new)) (onPatch (·.set path' new')) :=
  .inr ⟨_, _, renumbered_here (.set he), succeeds_set, succeeds_set⟩

theorem tally_unset : Tally (Renumbered flat (Equal h)) active active' path path'
    (onPatch (·.unset path)) (onPatch (·.unset path')) :=
  .inr ⟨_, _, renumbered_here .unset, succeeds_unset, succeeds_unset⟩

theorem tally_push {vs ws : List Value} (hp : List.Forall₂ (h.Reordered K) vs ws) :
    Tally (Renumbered flat (Equal h)) active active' path path' (onPatch (·.push path vs))
      (onPatch (·.push path' ws)) :=
  .inr ⟨_, _, renumbered_here (.push (equal_of_reordered hp)), succeeds_onPatch fun _ _ => rfl,
    succeeds_onPatch fun _ _ => rfl⟩

theorem tally_fallBack (he : h.deepEqual old new = .ok false)
    (ha : h.deepEqual old' new' = h.deepEqual old new) (hv : Equal h new new')
    (reason reason' : String) : Tally (Renumbered flat (Equal h)) active active' path path'
      (fallBack h reason old new path) (fallBack h reason' old' new' path') :=
  .inr ⟨_, _, renumbered_here (.set hv), succeeds_fallBack he, succeeds_fallBack (ha.trans he)⟩

theorem succeeds_setAt (index : Nat) (v : Value) :
    Succeeds active path [.item [] index v] (setAt index v path) :=
  fun _ _ => ⟨_, rfl, rfl, rfl, rfl, rfl⟩

theorem succeeds_items (is : List (Nat × Value)) :
    Succeeds active path (is.map fun i => .item [] i.1 i.2) (is.forM fun i => setAt i.1 i.2 path) := by
  induction is with
  | nil => exact succeeds_pure
  | cons i is ih =>
    rw [forM_cons]
    exact (succeeds_setAt i.1 i.2).seq ih

/-- Items that change at the same places. -/
theorem tally_items (hflat : ¬ flat) {is js : List (Nat × Value)}
    (hp : List.Forall₂ (fun i j => i.1 = j.1 ∧ Equal h i.2 j.2) is js) :
    Tally (Renumbered flat (Equal h)) active active' path path' (is.forM fun i => setAt i.1 i.2 path)
      (js.forM fun j => setAt j.1 j.2 path') :=
  .inr ⟨_, _, renumbered_items (fun h => absurd h hflat) hp, succeeds_items is, succeeds_items js⟩

section Reconciling
variable (hs : Resequenced h K old new old' new' xs ys xs' ys')
include hs

theorem tally_append : Tally (Renumbered flat (Equal h)) active active' path path'
    (appendSequence h old new path) (appendSequence h old' new' path') := by
  refine tally_unlessEqual tallying_renumbered hs.answer fun he => ?_
  simp only [hs.olds, hs.news, hs.olds', hs.news', ask_ok, ← hs.former.length_eq, ← hs.latter.length_eq,
    firstChange_reordered hs.former hs.latter]
  refine tally_ite (fun _ => tally_fallBack he hs.answer hs.value _ _) fun _ => ?_
  refine tally_ask fun found _ => ?_
  cases found with
  | some i => exact tally_fallBack he hs.answer hs.value _ _
  | none => exact tally_push (List.forall₂_drop _ hs.latter)

theorem tally_smart (hflat : ¬ flat) : Tally (Renumbered flat (Equal h)) active active' path path'
    (smartSequence h old new path) (smartSequence h old' new' path') := by
  refine tally_unlessEqual tallying_renumbered hs.answer fun he => ?_
  simp only [hs.olds, hs.news, hs.olds', hs.news', ask_ok, ← hs.former.length_eq, ← hs.latter.length_eq,
    changedPlaces_reordered hs.former hs.latter, startsPrimitive_reordered hs.former]
  have hfallBack : ∀ reason, Tally (Renumbered flat (Equal h)) active active' path path'
      (fallBack h reason old new path) (fallBack h reason old' new' path') :=
    fun reason => tally_fallBack he hs.answer hs.value reason reason
  refine tally_ite (fun _ => hfallBack _) fun _ => tally_ite (fun _ => hfallBack _) fun _ => ?_
  refine tally_ask fun changed _ => ?_
  refine tally_ite (fun _ => hfallBack _) fun _ => tally_ite (fun _ => ?_) fun _ => ?_
  · have hitems : List.Forall₂ (fun i j : Nat × Value => i.1 = j.1 ∧ Equal h i.2 j.2)
        (changed.map fun i => (i, (ys[i]?).getD .nil))
        (changed.map fun i => (i, (ys'[i]?).getD .nil)) := by
      refine List.forall₂_map_left_iff.mpr (List.forall₂_map_right_iff.mpr ?_)
      exact List.forall₂_same.mpr fun i _ => ⟨rfl, equal_at hs.latter i⟩
    have htally : Tally (Renumbered flat (Equal h)) active active' path path' _ _ :=
      tally_items hflat hitems
    rwa [forM_map, forM_map] at htally
  · exact tally_ite (fun _ => tally_push (List.forall₂_drop _ hs.latter)) fun _ => hfallBack _

theorem tally_merge (hflat : ¬ flat) : Tally (Renumbered flat (Equal h)) active active' path path'
    (mergeSequence h old new path) (mergeSequence h old' new' path') := by
  refine tally_unlessEqual tallying_renumbered hs.answer fun he => ?_
  obtain ⟨p, q, hp, hq, hpq⟩ := pairUp_reordered hs.former hs.latter
  simp only [hs.olds, hs.news, hs.olds', hs.news', ask_ok, hp, hq, isEmpty_congr hs.former,
    isEmpty_congr hs.latter, isEmpty_congr hpq.unused, isEmpty_congr hpq.updates,
    isEmpty_congr hpq.additions, startsPrimitive_reordered hs.former]
  have hfallBack : ∀ reason reason', Tally (Renumbered flat (Equal h)) active active' path path'
      (fallBack h reason old new path) (fallBack h reason' old' new' path') :=
    tally_fallBack he hs.answer hs.value
  refine tally_ite (fun _ => tally_set hs.value) fun _ => tally_ite (fun _ => tally_unset) fun _ => ?_
  refine tally_ite (fun _ => hfallBack _ _) fun _ => tally_ite (fun _ => hfallBack _ _) fun _ => ?_
  refine tally_ite (fun _ => hfallBack _ _) fun _ => tally_ite (fun _ => ?_) fun _ => ?_
  · exact tally_push hpq.additions
  · exact tally_items hflat (hpq.updates.imp fun i j hij => ⟨hij.1, hij.2.deepEqual⟩)

/-- **Sequences of items in other orders are reconciled in the same way**, item by item only where
the strategy allows it. -/
theorem tally_sequences {strategy : Strategy}
    (hflat : flat → strategy = .replace ∨ strategy = .append) :
    Tally (Renumbered flat (Equal h)) active active' path path'
      (diffSequences h strategy old new path) (diffSequences h strategy old' new' path') := by
  refine tally_unlessEqual tallying_renumbered hs.answer fun he => ?_
  cases strategy with
  | replace => exact tally_unlessEqual tallying_renumbered hs.answer fun _ => tally_set hs.value
  | append => exact tally_append hs
  | smart => exact tally_smart hs fun h => by simpa using hflat h
  | merge => exact tally_merge hs fun h => by simpa using hflat h

end Reconciling
end Strategies

end DocDelta.Diff
