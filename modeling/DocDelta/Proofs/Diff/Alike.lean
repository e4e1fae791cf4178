import DocDelta.Proofs.Diff.Abreast
import DocDelta.Proofs.Diff.Termination
import DocDelta.Proofs.Value.Locality

/-! Sequences in two heaps.

What is recorded of two sequences hangs on a few answers: whether they are equal, what their
items are, which items at one place are equal, and how items are paired. Heaps that give the same
answers (`SequencesAlike`) reconcile the sequences alike, and heaps that show the same of what is
in them give the same answers. -/
namespace DocDelta.Diff
open Heap
variable {h h' : Heap} {x y : Value} {path : Label}

/-! ### The answers -/

/-- Two sequences of which two heaps tell the same, as far as a strategy asks. -/
structure SequencesAlike (h h' : Heap) (strategy : Strategy) (x y : Value) : Prop where
  equal : h'.deepEqual x y = h.deepEqual x y
  old : itemsOf h' x = itemsOf h x
  new : itemsOf h' y = itemsOf h y
  primitive : ∀ xs, startsPrimitive h' xs = startsPrimitive h xs
  first : strategy = .append → ∀ {xs ys}, itemsOf h x = .ok xs → itemsOf h y = .ok ys →
    firstChange h' 0 xs ys = firstChange h 0 xs ys
  changed : strategy = .smart → ∀ {xs ys}, itemsOf h x = .ok xs → itemsOf h y = .ok ys →
    changedPlaces h' 0 xs ys = changedPlaces h 0 xs ys
  paired : strategy = .merge → ∀ {xs ys}, itemsOf h x = .ok xs → itemsOf h y = .ok ys →
    pairUp h' xs ys = pairUp h xs ys

theorem ask_congr {α β : Type} {a a' : Except Fault α} {f f' : α → Walk β} (ha : a' = a)
    (hf : ∀ v, a = .ok v → f' v = f v) : ask a' >>= f' = ask a >>= f := by
  subst ha
  cases a' with
  | error e => rfl
  | ok v => exact hf v rfl

section Alike
variable {strategy : Strategy} (hs : SequencesAlike h h' strategy x y)
include hs

theorem unlessEqual_alike {m m' : Walk Unit} (hm : m' = m) :
    unlessEqual h' x y m' = unlessEqual h x y m := by
  unfold unlessEqual
  rw [hs.equal, hm]

theorem replaceSequence_alike : replaceSequence h' x y path = replaceSequence h x y path :=
  unlessEqual_alike hs rfl

theorem fallBack_alike (reason : String) : fallBack h' reason x y path = fallBack h reason x y path := by
  unfold fallBack
  rw [replaceSequence_alike hs]

theorem appendSequence_alike (hm : strategy = .append) :
    appendSequence h' x y path = appendSequence h x y path := by
  refine unlessEqual_alike hs (ask_congr hs.old fun xs hx => ask_congr hs.new fun ys hy => ?_)
  rw [fallBack_alike hs, hs.first hm hx hy]
  refine congrArg (ite _ _ ·) (ask_congr rfl fun change _ => ?_)
  cases change with
  | none => rfl
  | some i => exact fallBack_alike hs _

theorem smartSequence_alike (hm : strategy = .smart) :
    smartSequence h' x y path = smartSequence h x y path := by
  refine unlessEqual_alike hs (ask_congr hs.old fun xs hx => ask_congr hs.new fun ys hy => ?_)
  simp only [fallBack_alike hs, hs.changed hm hx hy, hs.primitive]

theorem mergeSequence_alike (hm : strategy = .merge) :
    mergeSequence h' x y path = mergeSequence h x y path := by
  refine unlessEqual_alike hs (ask_congr hs.old fun xs hx => congrArg (ite _ _ ·) ?_)
  refine ask_congr hs.new fun ys hy => ?_
  simp only [fallBack_alike hs, hs.paired hm hx hy, hs.primitive]

/-- **Heaps that tell the same of two sequences reconcile them alike.** -/
theorem diffSequences_alike :
    diffSequences h' strategy x y path = diffSequences h strategy x y path := by
  refine unlessEqual_alike hs ?_
  cases strategy with
  | replace => exact replaceSequence_alike hs
  | append => exact appendSequence_alike hs rfl
  | smart => exact smartSequence_alike hs rfl
  | merge => exact mergeSequence_alike hs rfl

end Alike

/-! ### Items -/

/-- Items at one place are equal in both heaps or in neither. -/
def ItemsAlike (h h' : Heap) (xs ys : List Value) : Prop :=
  ∀ p ∈ xs.zip ys, h'.deepEqual p.1 p.2 = h.deepEqual p.1 p.2

theorem firstChange_alike {i : Nat} {xs ys : List Value} (hp : ItemsAlike h h' xs ys) :
    firstChange h' i xs ys = firstChange h i xs ys := by
  induction xs generalizing i ys with
  | nil => rfl
  | cons x xs ih =>
    cases ys with
    | nil => rfl
    | cons y ys =>
      rw [firstChange, firstChange, hp (x, y) (List.mem_cons_self ..),
        ih fun p hm => hp p (List.mem_cons_of_mem _ hm)]

theorem changedPlaces_alike {i : Nat} {xs ys : List Value} (hp : ItemsAlike h h' xs ys) :
    changedPlaces h' i xs ys = changedPlaces h i xs ys := by
  induction xs generalizing i ys with
  | nil => rfl
  | cons x xs ih =>
    cases ys with
    | nil => rfl
    | cons y ys =>
      rw [changedPlaces, changedPlaces, hp (x, y) (List.mem_cons_self ..),
        ih fun p hm => hp p (List.mem_cons_of_mem _ hm)]

theorem startsPrimitive_congr (hs : Congruent h h') (xs : List Value) :
    startsPrimitive h' xs = startsPrimitive h xs := by
  have hone : ∀ v, (h'.view v).isPrimitive = (h.view v).isPrimitive := fun v => by
    rw [← Object.isPrimitive_outline, hs.outline, Object.isPrimitive_outline]
  unfold startsPrimitive
  simp only [hone]

/-! ### What is in the sequences -/

section SameOn
variable {D : Value → Prop} (hs : SameOn h h' D)
include hs

/-- What is found is left out where it is missing. -/
theorem present_same (found : Option Value) (hf : ∀ v, found = some v → D v) :
    (found.filter fun v => match h'.view v with | .missing => false | _ => true) =
        (found.filter fun v => match h.view v with | .missing => false | _ => true) ∧
      ∀ v, (found.filter fun v => match h.view v with | .missing => false | _ => true) = some v →
        D v := by
  cases found with
  | none =>
    refine ⟨rfl, fun v hv => ?_⟩
    cases hv
  | some v =>
    refine ⟨?_, fun w hw => hf w (Option.filter_eq_some_iff.mp hw).1⟩
    simp only [Option.filter, hs.view (hf v rfl)]

/-- The value of an identifying field. -/
theorem identifier?_same {item : Value} (hi : D item) (name : String) :
    identifier? h' item name = identifier? h item name ∧
      ∀ v, identifier? h item name = some v → D v := by
  have hbelow : ∀ w ∈ (h.view item).contents, D w := fun w hw => hs.below hi hw
  have hentry : ∀ es : List (Value × Value), h'.entry? name es = h.entry? name es := fun es => by
    unfold Heap.entry?
    simp only [hs.isText]
  have hvalues := hs.of_entries hbelow
  unfold identifier?
  simp only [hs.view hi, hs.entries? hbelow, hentry]
  cases hes : h.entries? (h.view item) with
  | none => exact present_same hs _ fun v hv => hbelow v (Object.attribute?_contents hv)
  | some es =>
    rw [hes] at hvalues
    refine present_same hs _ fun v hv => ?_
    obtain ⟨e, he, rfl⟩ := Option.map_eq_some_iff.mp hv
    exact (hvalues e (List.mem_of_find?_eq_some he)).2

theorem decideByIdentifier_same {old new : Value} (ho : D old) (hn : D new) (names : List String) :
    decideByIdentifier h' old new names = decideByIdentifier h old new names := by
  induction names with
  | nil => exact hs.deepEqual ho hn
  | cons name names ih =>
    obtain ⟨hnew, hy⟩ := identifier?_same hs hn name
    obtain ⟨hold, hx⟩ := identifier?_same hs ho name
    rw [decideByIdentifier, decideByIdentifier, hnew, hold, ih]
    cases hyv : identifier? h new name with
    | none => rfl
    | some y =>
      dsimp only
      have hzero : h'.isZeroValue y = h.isZeroValue y := by
        rw [Heap.isZeroValue, Heap.isZeroValue, hs.view (hy y hyv), hs.isZeroScalar]
      rw [hzero]
      cases hxv : identifier? h old name with
      | none => rfl
      | some x =>
        dsimp only
        rw [hs.deepEqual (hx x hxv) (hy y hyv)]

theorem areSimilar_same {old new : Value} (ho : D old) (hn : D new) :
    areSimilar h' old new = areSimilar h old new := by
  unfold areSimilar Heap.classOf
  rw [hs.view ho, hs.view hn, decideByIdentifier_same hs ho hn, hs.deepEqual ho hn]

theorem findSimilar_same {item : Value} {es : List (Nat × Value)} (hi : D item)
    (hes : ∀ e ∈ es, D e.2) : findSimilar h' item es = findSimilar h item es := by
  induction es with
  | nil => rfl
  | cons e es ih =>
    rw [findSimilar, findSimilar, areSimilar_same hs (hes e (List.mem_cons_self ..)) hi,
      ih fun d hd => hes d (List.mem_cons_of_mem e hd)]

theorem add_same {p : Pairing} {item : Value} (hi : D item) (hp : ∀ e ∈ p.unused, D e.2) :
    p.add h' item = p.add h item := by
  rw [Pairing.add, Pairing.add, findSimilar_same hs hi hp]
  cases hf : findSimilar h item p.unused with
  | error e => rfl
  | ok found =>
    cases found with
    | none => rfl
    | some e => simp only [bind, Except.bind, hs.deepEqual (hp e (findSimilar_mem hf)) hi]

theorem pairUp_same {xs ys : List Value} (hx : ∀ x ∈ xs, D x) (hy : ∀ y ∈ ys, D y) :
    pairUp h' xs ys = pairUp h xs ys := by
  have hfold : ∀ (ys : List Value) (p : Pairing), (∀ y ∈ ys, D y) → (∀ e ∈ p.unused, D e.2) →
      ys.foldlM (fun p y => p.add h' y) p = ys.foldlM (fun p y => p.add h y) p := by
    intro ys
    induction ys with
    | nil => exact fun _ _ _ => rfl
    | cons y ys ih =>
      intro p hy hp
      rw [List.foldlM_cons, List.foldlM_cons, add_same hs (hy y (List.mem_cons_self ..)) hp]
      cases hq : p.add h y with
      | error e => rfl
      | ok q =>
        exact ih q (fun z hz => hy z (List.mem_cons_of_mem y hz)) fun e he =>
          hp e ((pairs_of_add hq).unused_subset he)
  refine hfold ys _ hy fun e he => ?_
  obtain ⟨⟨x, i⟩, hm, rfl⟩ := List.mem_map.mp he
  exact hx x (List.fst_mem_of_mem_zipIdx hm)

/-- **Heaps that show the same of what is in two sequences tell the same of them.** -/
theorem sequencesAlike_same (strategy : Strategy) (hx : D x) (hy : D y)
    (hkx : (h.view x).kind = .sequence) (hky : (h.view y).kind = .sequence) :
    SequencesAlike h h' strategy x y := by
  have hitems : ∀ {v : Value}, D v → (h.view v).kind = .sequence →
      ∃ xs, itemsOf h v = .ok xs ∧ itemsOf h' v = .ok xs ∧ ∀ w ∈ xs, D w := by
    intro v hv hk
    obtain ⟨xs, hxs⟩ := Object.items?_of_sequence hk
    refine ⟨xs, itemsOf_items hk hxs, ?_, fun w hw => hs.below hv (Object.items?_contents hxs ▸ hw)⟩
    exact itemsOf_items (by rwa [hs.view hv]) (by rwa [hs.view hv])
  obtain ⟨as, ha, ha', hda⟩ := hitems hx hkx
  obtain ⟨bs, hb, hb', hdb⟩ := hitems hy hky
  have halike : ItemsAlike h h' as bs := fun p hp =>
    hs.deepEqual (hda _ (List.of_mem_zip hp).1) (hdb _ (List.of_mem_zip hp).2)
  refine ⟨hs.deepEqual hx hy, ha'.trans ha.symm, hb'.trans hb.symm,
    startsPrimitive_congr hs.toCongruent, fun _ {xs ys} hu hw => ?_, fun _ {xs ys} hu hw => ?_,
    fun _ {xs ys} hu hw => ?_⟩
  all_goals
    obtain rfl := Except.ok.inj (ha.symm.trans hu)
    obtain rfl := Except.ok.inj (hb.symm.trans hw)
  · exact firstChange_alike halike
  · exact changedPlaces_alike halike
  · exact pairUp_same hs hda hdb

end SameOn

end DocDelta.Diff
