import DocDelta.Proofs.Value.Senses

/-! Lawful values.

A language keeps rules for its values: keys and the items of sets cannot change and are told apart,
views are views of mappings, dates lie in the calendar, and a class has one name. On all values that
keep them, cyclic ones and those with a signaling NaN too, deep equality is an equivalence
(`equivalence_lawful`).

Matching takes a value apart one layer at a time (`Alike`). The parts that it goes on with are keys,
of which each has one layer less, so it is an equivalence by induction on their layers. -/
namespace DocDelta.Heap
open Relation Number Calendar
variable {h : Heap} {K : ClassTable} {R : Value → Value → Prop} {a b d v w : Value} {n : Nat}

/-! ### One layer of matching -/

/-- What matching finds in two values: one object, scalars that stand for the same, structures of
one kind with related parts, or sets each of whose items has a partner. -/
inductive Alike (h : Heap) (R : Value → Value → Prop) (a b : Value) : Prop
  | same (he : a = b)
  | sense {s : Sense} (ha : h.sense (h.view a) = some s) (hb : h.sense (h.view b) = some s)
  | parts {c : Option String} {as bs : List Value} (ha : (h.view a).structure? = some (c, as))
      (hb : (h.view b).structure? = some (c, bs)) (hp : List.Forall₂ R as bs)
  | items {as bs : List Value} (ha : (h.view a).setItems? = some as)
      (hb : (h.view b).setItems? = some bs) (hl : as.length = bs.length)
      (hi : ∀ x ∈ as, ∃ y ∈ bs, R y x)

/-- A value that is compared as a whole or taken apart, with parts that are keys of `n` layers. -/
structure Keyed (h : Heap) (n : Nat) (v : Value) : Prop where
  whole : (h.view v).structure? = none → (h.view v).Whole
  parts : ∀ u ∈ comparedParts (h.view v), h.hashableWithin n u = true

theorem keyed_of_hashable (hv : h.hashableWithin (n + 1) v = true) : h.Keyed n v :=
  ⟨whole_of_hashable hv, (hashableWithin_layer hv).2.2⟩

section Layers
variable {x y : Object Value} {as bs : List Value} {eq : Value → Value → Except Fault Bool}

theorem comparedParts_setItems? (hx : x.setItems? = some as) : comparedParts x = as := by
  cases x <;> first | cases hx; done | (cases hx; rfl)

theorem isFreeform_setItems? (hx : x.setItems? = some as) : x.isFreeform = false := by
  cases x <;> first | rfl | cases hx

theorem sense_setItems? (hx : x.setItems? = some as) : h.sense x = none := by
  cases x <;> first | cases hx; done | rfl

theorem structure?_setItems? (hx : x.setItems? = some as) : x.structure? = none := by
  cases x <;> first | rfl | cases hx

theorem sense_structure? {c : Option String} (hx : x.structure? = some (c, as)) :
    h.sense x = none := by
  unfold Object.structure? at hx
  split at hx <;> cases hx <;> rfl

/-- A set is compared with sets only. -/
theorem sameObject_setItems? (hx : x.setItems? = some as) : h.sameObject eq x y =
    match y.setItems? with
    | some bs => if as.length = bs.length then coversItems h eq bs as else .ok false
    | none => .ok false := by
  cases x <;> cases hx <;> cases y <;> rfl

theorem hasPart_eq_true {u : Value} {ws : List Value} (hp : hasPart h eq u ws = .ok true) :
    ∃ w ∈ ws, matchPart h eq w u = .ok true := by
  induction ws with
  | nil => cases hp
  | cons w ws ih =>
    obtain ⟨r, hr, hp⟩ := bind_eq_ok.mp hp
    cases r with
    | true => exact ⟨w, List.mem_cons_self .., hr⟩
    | false =>
      obtain ⟨w', hw, hm⟩ := ih hp
      exact ⟨w', List.mem_cons_of_mem w hw, hm⟩

theorem hasPart_of_answers {u w : Value} {ws : List Value} (hw : w ∈ ws)
    (hm : matchPart h eq w u = .ok true) (hans : ∀ w ∈ ws, Answers (matchPart h eq w u)) :
    hasPart h eq u ws = .ok true := by
  induction ws with
  | nil => cases hw
  | cons z ws ih =>
    obtain ⟨r, hr⟩ := hans z (List.mem_cons_self ..)
    rw [hasPart, hr]
    cases r with
    | true => rfl
    | false =>
      refine ih ?_ fun w hw => hans w (List.mem_cons_of_mem z hw)
      rcases List.mem_cons.mp hw with rfl | hw
      · cases hr.symm.trans hm
      · exact hw

theorem coversItems_eq_true : coversItems h eq bs as = .ok true ↔
    ∀ u ∈ as, hasPart h eq u bs = .ok true := by
  induction as with
  | nil => simp [coversItems]
  | cons u as ih =>
    rw [coversItems, bind_eq_ok, List.forall_mem_cons, ← ih]
    constructor
    · rintro ⟨r, hr, hc⟩
      cases r with
      | true => exact ⟨hr, hc⟩
      | false => cases hc
    · rintro ⟨hr, hc⟩
      exact ⟨true, hr, hc⟩

end Layers

section Layer
variable (hak : h.Everywhere (Object.Follows K) a) (hbk : h.Everywhere (Object.Follows K) b)
include hak hbk

/-- What matches is alike in one layer. -/
theorem alike_of_matches (ha : h.Keyed n a) (hm : h.Matches a b) : h.Alike h.Matches a b := by
  cases hs : (h.view a).structure? with
  | some p =>
    obtain ⟨c, as⟩ := p
    rcases parts_of_matches hak.here hbk.here hs hm with rfl | ⟨bs, hb, hp⟩
    · exact .same rfl
    · exact .parts hs hb hp
  | none =>
    by_cases hsame : Value.isSame h a b = true
    · by_cases hn : h.view a = .nil
      · exact .sense (s := .nothing) (by rw [hn]; rfl) (by rw [← view_eq_of_isSame hsame, hn]; rfl)
      · exact .same (eq_of_isSame hsame hn)
    obtain ⟨m, hm⟩ := hm.resolve_left hsame
    have hsame := Bool.eq_false_iff.mpr hsame
    cases m with
    | zero => cases hm
    | succ m =>
      cases hi : (h.view a).setItems? with
      | none =>
        obtain ⟨s, hs, hs'⟩ := (sameWithin_whole hak.here hbk.here (ha.whole hs) hi hsame m).mp hm
        exact .sense hs hs'
      | some as =>
        rw [sameWithin, hsame, Bool.and_false, if_neg Bool.false_ne_true,
          sameObject_setItems? hi] at hm
        split at hm
        · rename_i bs hj
          split at hm
          · rename_i hl
            refine .items hi hj hl fun x hx => ?_
            obtain ⟨y, hy, hyx⟩ := hasPart_eq_true (coversItems_eq_true.mp hm x hx)
            refine ⟨y, hy, ?_⟩
            unfold matchPart at hyx
            split at hyx
            · exact .inl ‹_›
            · exact .inr ⟨m, hyx⟩
          · cases hm
        · cases hm

/-- What is alike in one layer matches. -/
theorem matches_of_alike (hp : a = .nil ∨ ∃ i, a = .ref i) (ha : h.Keyed n a) (hb : h.Keyed n b)
    (he : h.Alike h.Matches a b) : h.Matches a b := by
  cases he with
  | same he =>
    subst he
    rcases hp with rfl | ⟨i, rfl⟩
    · exact .inl rfl
    · exact .inl (isSame_ref i)
  | sense hs hs' =>
    refine .inr ⟨1, ?_⟩
    rw [sameWithin, sameObject_of_sense hs hs']
    exact ite_self _
  | parts hs hs' hp => exact matches_of_parts hs hs' hp
  | @items as bs hs hs' hl hi =>
    have hca := comparedParts_setItems? hs
    have hcb := comparedParts_setItems? hs'
    refine .inr ⟨n + 1, ?_⟩
    rw [sameWithin, isFreeform_setItems? hs, Bool.false_and, if_neg Bool.false_ne_true,
      sameObject_setItems? hs, hs']
    show (if as.length = bs.length then coversItems h (h.sameWithin n) bs as else .ok false) = _
    rw [if_pos hl]
    refine coversItems_eq_true.mpr fun x hx => ?_
    have hpx : h.Part a x := comparedParts_children (hca ▸ hx)
    have hans : ∀ y ∈ bs, Answers (h.sameWithin n y x) := fun y hy => by
      have hpy : h.Part b y := comparedParts_children (hcb ▸ hy)
      exact answers_sameWithin (hb.parts y (hcb ▸ hy)) (ha.parts x (hca ▸ hx))
        (hbk.of_within (.single hpy)) (hak.of_within (.single hpx))
    obtain ⟨y, hy, hyx⟩ := hi x hx
    exact hasPart_of_answers hy (matchPart_of_matches hyx (hans y hy))
      fun y hy => answers_matchPart (hans y hy)

end Layer

/-! ### Matching as an equivalence -/

/-- Parts that are of one sort, and items of a set that are told apart. -/
structure Parted (h : Heap) (R : Value → Value → Prop) (P : Value → Prop) (v : Value) : Prop where
  parts : ∀ u ∈ comparedParts (h.view v), P u
  items : ∀ xs, (h.view v).setItems? = some xs → xs.Pairwise fun x y => ¬ R x y

section Parted
variable {P : Value → Prop} (hR : Equivalence fun a b : {v // P v} => R a b)
include hR

theorem Alike.symm (ha : h.Parted R P a) (hb : h.Parted R P b) (he : h.Alike R a b) :
    h.Alike R b a := by
  cases he with
  | same he => exact .same he.symm
  | sense hs hs' => exact .sense hs' hs
  | @parts c as bs hs hs' hp =>
    have hpa := Object.comparedParts_structure? hs ▸ ha.parts
    have hpb := Object.comparedParts_structure? hs' ▸ hb.parts
    obtain ⟨hl, hp⟩ := List.forall₂_iff_get.mp hp
    refine .parts hs' hs (List.forall₂_iff_get.mpr ⟨hl.symm, fun i hi hj => ?_⟩)
    exact hR.symm (x := ⟨_, hpa _ (List.get_mem as ⟨i, hj⟩)⟩)
      (y := ⟨_, hpb _ (List.get_mem bs ⟨i, hi⟩)⟩) (hp i hj hi)
  | @items as bs hs hs' hl hi =>
    have hpa := comparedParts_setItems? hs ▸ ha.parts
    have hpb := comparedParts_setItems? hs' ▸ hb.parts
    refine .items hs' hs hl.symm fun y hy => ?_
    have hsymm : ∀ x ∈ as, ∀ y ∈ bs, R y x → R x y := fun x hx y hy =>
      hR.symm (x := ⟨y, hpb y hy⟩) (y := ⟨x, hpa x hx⟩)
    refine exists_partner (R := R) hl (fun x hx => ?_) ?_ hy
    · obtain ⟨y, hy, hyx⟩ := hi x hx
      exact ⟨y, hy, hsymm x hx y hy hyx⟩
    · refine (ha.items as hs).imp_of_mem fun {x x'} hx hx' hne y hy hxy hx'y => hne ?_
      exact hR.trans (x := ⟨x, hpa x hx⟩) (y := ⟨y, hpb y hy⟩) (z := ⟨x', hpa x' hx'⟩) hxy
        (hR.symm (x := ⟨x', hpa x' hx'⟩) (y := ⟨y, hpb y hy⟩) hx'y)

theorem Alike.trans (ha : h.Parted R P a) (hb : h.Parted R P b) (hd : h.Parted R P d)
    (hab : h.Alike R a b) (hbd : h.Alike R b d) : h.Alike R a d := by
  cases hab with
  | same he => exact he ▸ hbd
  | sense hs hs' =>
    cases hbd with
    | same he => exact .sense hs (he ▸ hs')
    | sense ht ht' =>
      cases hs'.symm.trans ht
      exact .sense hs ht'
    | parts ht => cases (sense_structure? ht).symm.trans hs'
    | items ht => cases (sense_setItems? ht).symm.trans hs'
  | @parts c as bs hs hs' hp =>
    cases hbd with
    | same he => exact .parts hs (he ▸ hs') hp
    | sense ht => cases (sense_structure? hs').symm.trans ht
    | @parts c' bs' ds ht ht' hq =>
      cases hs'.symm.trans ht
      have hpa := Object.comparedParts_structure? hs ▸ ha.parts
      have hpb := Object.comparedParts_structure? hs' ▸ hb.parts
      have hpd := Object.comparedParts_structure? ht' ▸ hd.parts
      obtain ⟨hl, hp⟩ := List.forall₂_iff_get.mp hp
      obtain ⟨hm, hq⟩ := List.forall₂_iff_get.mp hq
      refine .parts hs ht' (List.forall₂_iff_get.mpr ⟨hl.trans hm, fun i hi hk => ?_⟩)
      have hj : i < bs.length := hl ▸ hi
      exact hR.trans (x := ⟨_, hpa _ (List.get_mem as ⟨i, hi⟩)⟩)
        (y := ⟨_, hpb _ (List.get_mem bs ⟨i, hj⟩)⟩) (z := ⟨_, hpd _ (List.get_mem ds ⟨i, hk⟩)⟩)
        (hp i hi hj) (hq i hj hk)
    | items ht => cases (structure?_setItems? ht).symm.trans hs'
  | @items as bs hs hs' hl hi =>
    cases hbd with
    | same he => exact .items hs (he ▸ hs') hl hi
    | sense ht => cases (sense_setItems? hs').symm.trans ht
    | parts ht => cases (structure?_setItems? hs').symm.trans ht
    | @items bs' ds ht ht' hm hj =>
      cases hs'.symm.trans ht
      have hpa := comparedParts_setItems? hs ▸ ha.parts
      have hpb := comparedParts_setItems? hs' ▸ hb.parts
      have hpd := comparedParts_setItems? ht' ▸ hd.parts
      refine .items hs ht' (hl.trans hm) fun x hx => ?_
      obtain ⟨y, hy, hyx⟩ := hi x hx
      obtain ⟨z, hz, hzy⟩ := hj y hy
      exact ⟨z, hz, hR.trans (x := ⟨z, hpd z hz⟩) (y := ⟨y, hpb y hy⟩) (z := ⟨x, hpa x hx⟩) hzy hyx⟩

end Parted

/-! ### Lawful values -/

/-- An object of the heap, or nothing, that keeps the rules of its language with everything it is
made of: no key of a mapping and no item of a set is there twice. -/
structure Lawful (h : Heap) (K : ClassTable) (v : Value) : Prop where
  placed : v = .nil ∨ ∃ a, v = .ref a
  regular : h.Everywhere h.Regular v
  dated : h.Everywhere Dated v
  follows : h.Everywhere (Object.Follows K) v
  keys : ∀ w, h.Within v w → ∀ es, h.entries? (h.view w) = some es →
    es.Pairwise fun d e => h.matching d.1 e.1 ≠ .ok true
  items : ∀ w, h.Within v w → ∀ xs, (h.view w).setItems? = some xs →
    xs.Pairwise fun x y => h.matching x y ≠ .ok true

theorem Lawful.of_within (hv : h.Lawful K v) (hw : h.Within v w) : h.Lawful K w where
  placed := by
    rcases hv.placed with rfl | ⟨a, rfl⟩
    · exact .inl (within_nil hw)
    · exact .inr (within_ref hw)
  regular := hv.regular.of_within hw
  dated := hv.dated.of_within hw
  follows := hv.follows.of_within hw
  keys u hu := hv.keys u (hw.trans hu)
  items u hu := hv.items u (hw.trans hu)

theorem Lawful.of_part (hv : h.Lawful K v) (hw : h.Part v w) : h.Lawful K w :=
  hv.of_within (.single hw)

/-- In a heap whose objects keep these rules every object is lawful. -/
theorem lawful_ref (hc : ∀ i < h.size, h.Regular (h.view (.ref i)) ∧ Dated (h.view (.ref i)) ∧
      (h.view (.ref i)).Follows K)
    (hk : ∀ i < h.size, ∀ es ∈ h.entries? (h.view (.ref i)),
      es.Pairwise fun d e => h.matching d.1 e.1 ≠ .ok true)
    (hi : ∀ i < h.size, ∀ xs ∈ (h.view (.ref i)).setItems?,
      xs.Pairwise fun x y => h.matching x y ≠ .ok true) (i : Addr) : h.Lawful K (.ref i) where
  placed := .inr ⟨i, rfl⟩
  regular := everywhere_ref trivial (fun i hi => (hc i hi).1) i
  dated := everywhere_ref trivial (fun i hi => (hc i hi).2.1) i
  follows := everywhere_ref (Object.follows_nil K) (fun i hi => (hc i hi).2.2) i
  keys w hw es hes := by
    obtain ⟨j, rfl⟩ := within_ref hw
    by_cases hj : j < h.size
    · exact hk j hj es hes
    · rw [Heap.view, object_of_size_le (Nat.le_of_not_lt hj)] at hes
      cases hes
  items w hw xs hxs := by
    obtain ⟨j, rfl⟩ := within_ref hw
    by_cases hj : j < h.size
    · exact hi j hj xs hxs
    · rw [Heap.view, object_of_size_le (Nat.le_of_not_lt hj)] at hxs
      cases hxs

theorem kept_lawful : h.Kept K (h.Lawful K) where
  regular _ hv := hv.regular
  named _ hv := hv.follows
  part _ _ hv := hv.of_part
  distinct v es hv := hv.keys v .refl es

/-- Items of a set do not match. -/
theorem Lawful.apart (hv : h.Lawful K v) {xs : List Value}
    (hx : (h.view v).setItems? = some xs) : xs.Pairwise fun x y => ¬ h.Matches x y := by
  have hparts := comparedParts_setItems? hx
  have hitem : ∀ x ∈ xs, h.Lawful K x ∧ h.hashable x = true := fun x hm => by
    refine ⟨hv.of_part (comparedParts_children (hparts ▸ hm)), ?_⟩
    have hr := hv.regular.here
    generalize h.view v = o at hx hr
    cases o <;> cases hx <;> exact hr x hm
  refine (hv.items v .refl xs hx).imp_of_mem fun {x y} hmx hmy hne hm => hne ?_
  obtain ⟨hlx, hhx⟩ := hitem x hmx
  obtain ⟨hly, hhy⟩ := hitem y hmy
  exact matching_of_matches hm
    (answers_matchPart (answers_same_keys hhx hhy hlx.follows hly.follows))

theorem Lawful.parted (hv : h.Lawful K v) (hk : h.Keyed n v) :
    h.Parted h.Matches (fun u => h.Lawful K u ∧ h.hashableWithin n u = true) v :=
  ⟨fun u hu => ⟨hv.of_part (comparedParts_children hu), hk.parts u hu⟩, fun _ => hv.apart⟩

/-- If matching is an equivalence on keys it is one on what is made of them. -/
theorem equivalence_keyed
    (hR : Equivalence fun a b : {v // h.Lawful K v ∧ h.hashableWithin n v = true} => h.Matches a b) :
    Equivalence fun a b : {v // h.Lawful K v ∧ h.Keyed n v} => h.Matches a b := by
  refine ⟨?_, ?_, ?_⟩
  · rintro ⟨a, ha, hka⟩
    exact matches_of_alike ha.follows ha.follows ha.placed hka hka (.same rfl)
  · rintro ⟨a, ha, hka⟩ ⟨b, hb, hkb⟩ hab
    have halike := alike_of_matches ha.follows hb.follows hka hab
    exact matches_of_alike hb.follows ha.follows hb.placed hkb hka
      (halike.symm hR (ha.parted hka) (hb.parted hkb))
  · rintro ⟨a, ha, hka⟩ ⟨b, hb, hkb⟩ ⟨d, hd, hkd⟩ hab hbd
    have halike := alike_of_matches ha.follows hb.follows hka hab
    have halike' := alike_of_matches hb.follows hd.follows hkb hbd
    exact matches_of_alike ha.follows hd.follows ha.placed hka hkd
      (halike.trans hR (ha.parted hka) (hb.parted hkb) (hd.parted hkd) halike')

/-- Matching is an equivalence on keys of any number of layers. -/
theorem equivalence_within (n : Nat) :
    Equivalence fun a b : {v // h.Lawful K v ∧ h.hashableWithin n v = true} => h.Matches a b := by
  induction n with
  | zero =>
    refine ⟨?_, ?_, ?_⟩
    · rintro ⟨_, _, ha⟩
      cases ha
    · rintro ⟨_, _, ha⟩
      cases ha
    · rintro ⟨_, _, ha⟩
      cases ha
  | succ n ih =>
    exact (equivalence_keyed ih).comap
      fun v : {v // h.Lawful K v ∧ h.hashableWithin (n + 1) v = true} =>
        ⟨v, v.2.1, keyed_of_hashable v.2.2⟩

theorem Lawful.depth_le (hv : h.Lawful K v) : v.depth ≤ 1 := by
  rcases hv.placed with rfl | ⟨i, rfl⟩
  · exact Nat.le_refl 1
  · exact Nat.zero_le 1

theorem equivalence_hashable :
    Equivalence fun a b : {v // h.Lawful K v ∧ h.hashable v = true} => h.matching a b = .ok true := by
  have hbound : ∀ v : {v // h.Lawful K v ∧ h.hashable v = true},
      h.hashableWithin (h.size + 2) v = true := fun v => by
    refine hashableWithin_mono v.2.2 ?_
    have := v.2.1.depth_le
    simp only [layerBound]
    omega
  have hmatches : (fun a b : {v // h.Lawful K v ∧ h.hashable v = true} =>
      h.matching a b = .ok true) = fun a b => h.Matches a.1 b.1 := by
    funext a b
    refine propext ⟨matches_of_matching, fun hm => matching_of_matches hm ?_⟩
    exact answers_matchPart (answers_same_keys a.2.2 b.2.2 a.2.1.follows b.2.1.follows)
  rw [hmatches]
  exact (equivalence_within (h.size + 2)).comap
    fun v : {v // h.Lawful K v ∧ h.hashable v = true} => ⟨v, v.2.1, hbound v⟩

/-- The items of a set have fewer layers than there are pairs of objects. -/
theorem Lawful.keyed_leaf (hv : h.Lawful K v) (hl : (h.view v).kind.isLeaf = true) :
    h.Keyed (h.size * h.size + 1) v := by
  refine ⟨fun _ => Object.whole_of_leaf hl, fun u hu => ?_⟩
  have hpart : h.Part v u := comparedParts_children hu
  refine hashableWithin_mono (hashable_comparedParts hv.regular.here hl u hu) ?_
  exact (layerBound_part hpart).trans (Nat.add_le_add_left hv.depth_le _)

/-- Leaves that match do so within the bound of matching. -/
theorem Lawful.matching_of_matches (ha : h.Lawful K a) (hb : h.Lawful K b)
    (hla : (h.view a).kind.isLeaf = true) (hlb : (h.view b).kind.isLeaf = true)
    (hm : h.Matches a b) : h.matching a b = .ok true := by
  have hwhole := Object.whole_of_leaf hla
  cases alike_of_matches ha.follows hb.follows (ha.keyed_leaf hla) hm with
  | same he =>
    subst he
    rcases ha.placed with rfl | ⟨i, rfl⟩
    · rfl
    · exact matching_ref i
  | sense hs hs' =>
    have hbound : h.pairBound a b = (h.size * h.size + a.depth + b.depth) + 1 := by
      simp only [pairBound]
      omega
    rw [matching, matchPart, same, hbound, sameWithin, sameObject_of_sense hs hs', ite_self,
      ite_self]
  | parts hs => cases hwhole.1.symm.trans hs
  | items hs hs' =>
    have hquiet : ∀ {x : Object Value} {xs : List Value}, x.setItems? = some xs → Quiet x := by
      intro x xs hx
      cases x <;> trivial
    exact Heap.matching_of_matches hm (answers_matching_parts (hquiet hs) (hquiet hs') ha.follows
      hb.follows hwhole.2.2 (hashable_comparedParts ha.regular.here hla)
      (hashable_comparedParts hb.regular.here hlb))

theorem equivalence_leaves :
    Equivalence fun a b : {v // h.Lawful K v ∧ (h.view v).kind.isLeaf = true} =>
      h.matching a b = .ok true := by
  have hmatches : (fun a b : {v // h.Lawful K v ∧ (h.view v).kind.isLeaf = true} =>
      h.matching a b = .ok true) = fun a b => h.Matches a.1 b.1 := by
    funext a b
    exact propext ⟨matches_of_matching, a.2.1.matching_of_matches b.2.1 a.2.2 b.2.2⟩
  rw [hmatches]
  exact (equivalence_keyed (equivalence_within _)).comap
    fun v : {v // h.Lawful K v ∧ (h.view v).kind.isLeaf = true} =>
      ⟨v, v.2.1, v.2.1.keyed_leaf v.2.2⟩

/-- **Deep equality is an equivalence on all lawful values.** -/
theorem equivalence_lawful :
    Equivalence fun a b : {v // h.Lawful K v} => h.deepEqual a b = .ok true :=
  kept_lawful.equivalence_deepEqual equivalence_hashable equivalence_leaves

theorem Lawful.symm (ha : h.Lawful K a) (hb : h.Lawful K b) (he : h.deepEqual a b = .ok true) :
    h.deepEqual b a = .ok true :=
  equivalence_lawful.symm (x := ⟨a, ha⟩) (y := ⟨b, hb⟩) he

theorem Lawful.trans (ha : h.Lawful K a) (hb : h.Lawful K b) (hd : h.Lawful K d)
    (he : h.deepEqual a b = .ok true) (he' : h.deepEqual b d = .ok true) :
    h.deepEqual a d = .ok true :=
  equivalence_lawful.trans (x := ⟨a, ha⟩) (y := ⟨b, hb⟩) (z := ⟨d, hd⟩) he he'

/-- Equal values are equal to the same. -/
theorem Lawful.deepEqual_congr (hd : h.Lawful K d) (ha : h.Lawful K a) (hb : h.Lawful K b)
    (he : h.deepEqual a b = .ok true) {p q : Bool} (hp : h.deepEqual d a = .ok p)
    (hq : h.deepEqual d b = .ok q) : p = q := by
  cases p with
  | true => exact Except.ok.inj ((hd.trans ha hb hp he).symm.trans hq)
  | false =>
    cases q with
    | true => exact Except.ok.inj (hp.symm.trans (hd.trans hb ha hq (ha.symm hb he)))
    | false => rfl

/-- Equal values are of one form. -/
theorem Lawful.form_eq (ha : h.Lawful K a) (hb : h.Lawful K b) (he : h.deepEqual a b = .ok true) :
    (h.view a).form = (h.view b).form :=
  Object.form_eq ha.follows.here hb.follows.here
    (bisimulation_bisimilar a b (deepEqual_eq_true.mp he)).classes

theorem Lawful.kind_eq (ha : h.Lawful K a) (hb : h.Lawful K b) (he : h.deepEqual a b = .ok true) :
    (h.view a).kind = (h.view b).kind := by
  rw [← Object.kind_form, ha.form_eq hb he, Object.kind_form]

end DocDelta.Heap
