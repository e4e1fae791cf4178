import DocDelta.Proofs.Diff.Merging
import DocDelta.Proofs.Diff.Reconciled
import DocDelta.Proofs.Value.EqualZeros

/-! Merging a sequence with one of equal items in another order.

Similarity respects deep equality: equal items are similar to the same (`areSimilar_congr`), and to
each other where they are compared at all (`areSimilar_equal`). So the only old item that is similar
to a new one is its partner, as long as no two old items are similar, and pairing uses up the old
items one after the other without an update or an addition. Then nothing is recorded.

What a similarity asks apart from equality is whether the identifier of the new item is zero.
Equal values are zero together unless they are numbers of a derived class: their values are not
attributes, and so are not compared. -/
namespace DocDelta.Diff
open Heap
variable {h : Heap} {K : ClassTable} {a b c x y z : Value}

/-! ### Identifiers -/

/-- What is under a key of two equal mappings. -/
theorem entry?_equal (ha : h.Lawful K a) (hb : h.Lawful K b) (he : Equal h a b)
    (hs : Value.isSame h a b = false) {es fs : List (Value × Value)}
    (hes : h.entries? (h.view a) = some es) (hfs : h.entries? (h.view b) = some fs)
    (name : String) : Option.Rel (Equal h) (h.entry? name es) (h.entry? name fs) := by
  have hr := bisimulation_bisimilar a b (deepEqual_eq_true.mp he)
  obtain ⟨hl, hp⟩ := hr.mapping_parts hs (mapping_of_entries hes)
  have hback := fun e => kept_lawful.find?_back equivalence_hashable ha hb hl hp (e := e)
  simp only [hes, hfs, Option.getD_some] at hp hback
  cases hx : h.entry? name es with
  | some x =>
    obtain ⟨e, hm, rfl, ht⟩ := entry?_mem hx
    obtain ⟨y, hf, hxy⟩ := hp e hm
    rw [find?_of_text ht, Except.ok.injEq] at hf
    exact hf ▸ .some (deepEqual_eq_true.mpr hxy)
  | none =>
    cases hy : h.entry? name fs with
    | none => exact .none
    | some y =>
      obtain ⟨e, hm, rfl, ht⟩ := entry?_mem hy
      obtain ⟨x, hf, -⟩ := hback e hm
      rw [find?_of_text ht, hx] at hf
      cases hf

/-- The value of an attribute of two equal values that are no mappings. -/
theorem attribute?_equal (he : Equal h a b) (hs : Value.isSame h a b = false)
    (hk : (h.view a).kind = (h.view b).kind) (name : String) :
    Option.Rel (Equal h) ((h.view a).attribute? name) ((h.view b).attribute? name) := by
  have hr := bisimulation_bisimilar a b (deepEqual_eq_true.mp he)
  have hsome : ((h.view a).attribute? name).isSome = ((h.view b).attribute? name).isSome := by
    rw [Bool.eq_iff_iff, Object.attribute?_isSome, Object.attribute?_isSome,
      Object.isRecord_iff, Object.isRecord_iff, ← hk]
    exact and_congr_left fun hrecord => by rw [(hr.record_parts hs hrecord).1]
  cases hx : (h.view a).attribute? name with
  | none =>
    rw [hx, Option.isSome_none, eq_comm, Option.isSome_eq_false_iff,
      Option.isNone_iff_eq_none] at hsome
    rw [hsome]
    exact .none
  | some x =>
    have hrecord : (h.view a).kind = .record :=
      Object.isRecord_iff.mp (Object.attribute?_isSome.mp (Option.isSome_of_eq_some hx)).2
    rw [hx, Option.isSome_some, eq_comm, Option.isSome_iff_exists] at hsome
    obtain ⟨y, hy⟩ := hsome
    rw [hy]
    exact .some (deepEqual_eq_true.mpr ((hr.record_parts hs hrecord).2 name x y hx hy))

theorem lawful_identifier? {v : Value} {name : String} (ha : h.Lawful K a)
    (hv : identifier? h a name = some v) : h.Lawful K v :=
  ha.of_within (identifier?_within hv)

theorem cls_equal (he : Equal h a b) : (h.view a).cls = (h.view b).cls :=
  (bisimulation_bisimilar a b (deepEqual_eq_true.mp he)).classes

/-- Equal items have equal identifiers. -/
theorem identifier?_equal (ha : h.Lawful K a) (hb : h.Lawful K b) (he : Equal h a b)
    (name : String) : Option.Rel (Equal h) (identifier? h a name) (identifier? h b name) := by
  cases hs : Value.isSame h a b with
  | true =>
    have hsame : identifier? h a name = identifier? h b name := by
      simp only [identifier?, view_eq_of_isSame hs]
    rw [hsame]
    cases hv : identifier? h b name with
    | none => exact .none
    | some v => exact .some (equivalence_lawful.refl ⟨v, lawful_identifier? hb hv⟩)
  | false =>
    have hkind := ha.kind_eq hb he
    refine rel_filter ?_ fun u w huw => ?_
    · by_cases hk : (h.view a).kind = .mapping
      · obtain ⟨es, hes⟩ := ha.regular.here.entries hk
        obtain ⟨fs, hfs⟩ := hb.regular.here.entries (hkind.symm.trans hk)
        rw [hes, hfs]
        exact entry?_equal ha hb he hs hes hfs name
      · rw [entries?_none hk, entries?_none (hkind ▸ hk)]
        exact attribute?_equal he hs hkind name
    · exact present_of_cls (cls_equal huw)

/-! ### Similarity -/

/-- The identifiers of an item are zero where what equals them is: none shows a time with an offset
or is a number of a derived class. -/
def Steady (h : Heap) (v : Value) (names : List String) : Prop :=
  ∀ name ∈ names, ∀ u, identifier? h v name = some u →
    Naive (h.view u) ∧ ¬ DerivedNumber (h.view u)

/-- Similarity goes by identifiers for items of one class that are records or mappings. -/
theorem identified_congr (ha : h.Lawful K a) (hb : h.Lawful K b) (he : Equal h a b) (c : Value) :
    (h.classOf c = (h.view a).cls ∧ ((h.view a).isRecord = true ∨ (h.view a).kind = .mapping)) ↔
      h.classOf c = (h.view b).cls ∧ ((h.view b).isRecord = true ∨ (h.view b).kind = .mapping) := by
  rw [Object.isRecord_iff, Object.isRecord_iff, cls_equal he, ha.kind_eq hb he]

section Similar
variable (hx : h.Lawful K x) (hy : h.Lawful K y) (he : Equal h x y)
include hx hy he

theorem decideByIdentifier_equal {names : List String} {r : Bool}
    (hr : decideByIdentifier h x y names = .ok r) : r = true := by
  induction names with
  | nil => exact Except.ok.inj (hr.symm.trans he)
  | cons name names ih =>
    have hrel := identifier?_equal hx hy he name
    unfold decideByIdentifier at hr
    generalize identifier? h x name = u at *
    generalize identifier? h y name = w at *
    cases hrel with
    | none => exact ih hr
    | some huw =>
      obtain ⟨zero, -, hr⟩ := bind_eq_ok.mp hr
      cases zero with
      | true => exact ih hr
      | false => exact Except.ok.inj (hr.symm.trans huw)

/-- Items that are equal are similar. -/
theorem areSimilar_equal {r : Bool} (hr : areSimilar h x y = .ok r) : r = true := by
  unfold areSimilar at hr
  dsimp only at hr
  split at hr
  · exact decideByIdentifier_equal hx hy he hr
  · exact Except.ok.inj (hr.symm.trans he)

variable (hc : h.Lawful K c)
include hc

theorem decideByIdentifier_congr {names : List String} (hs : Steady h x names) {r r' : Bool}
    (hr : decideByIdentifier h c x names = .ok r) (hr' : decideByIdentifier h c y names = .ok r') :
    r = r' := by
  induction names with
  | nil => exact hc.deepEqual_congr hx hy he hr hr'
  | cons name names ih =>
    obtain ⟨hname, hs⟩ := List.forall_mem_cons.mp hs
    have hrel := identifier?_equal hx hy he name
    unfold decideByIdentifier at hr hr'
    cases hu : identifier? h x name with
    | none =>
      rw [hu] at hr hrel
      cases hw : identifier? h y name with
      | none =>
        rw [hw] at hr'
        exact ih hs hr hr'
      | some w =>
        rw [hw] at hrel
        cases hrel
    | some u =>
      rw [hu] at hr hrel
      cases hw : identifier? h y name with
      | none =>
        rw [hw] at hrel
        cases hrel
      | some w =>
        rw [hw] at hr' hrel
        obtain ⟨huw⟩ := hrel
        have hlu := lawful_identifier? hx hu
        have hlw := lawful_identifier? hy hw
        obtain ⟨hnaive, hplain⟩ := hname u hu
        obtain ⟨zero, hz, hr⟩ := bind_eq_ok.mp hr
        obtain ⟨zero', hz', hr'⟩ := bind_eq_ok.mp hr'
        obtain rfl := hlu.isZeroValue_congr hlw huw hnaive hplain hz hz'
        cases zero with
        | true => exact ih hs hr hr'
        | false =>
          cases hv : identifier? h c name with
          | none =>
            rw [hv] at hr hr'
            exact ih hs hr hr'
          | some v =>
            rw [hv] at hr hr'
            exact (lawful_identifier? hc hv).deepEqual_congr hlu hlw huw hr hr'

/-- **Items that are equal are similar to the same.** -/
theorem areSimilar_congr (hs : Steady h x identifiers) {r r' : Bool}
    (hr : areSimilar h c x = .ok r) (hr' : areSimilar h c y = .ok r') : r = r' := by
  have hcongr := identified_congr hx hy he c
  unfold areSimilar at hr hr'
  dsimp only at hr hr'
  split at hr
  · rw [if_pos (hcongr.mp ‹_›)] at hr'
    exact decideByIdentifier_congr hx hy he hc hs hr hr'
  · rw [if_neg (mt hcongr.mpr ‹_›)] at hr'
    exact hc.deepEqual_congr hx hy he hr hr'

end Similar

/-! ### Pairing -/

/-- Two items neither of which is similar to the other. -/
def Dissimilar (h : Heap) (x y : Value) : Prop :=
  areSimilar h x y = .ok false ∧ areSimilar h y x = .ok false

/-- A pairing that has used up some old items without an update or an addition. Those that are left
are `zs` in some order, and no two of them are similar. -/
structure Partnered (h : Heap) (zs : List Value) (p : Pairing) : Prop where
  updates : p.updates = []
  additions : p.additions = []
  places : (p.unused.map (·.1)).Nodup
  items : (p.unused.map (·.2)).Perm zs
  apart : p.unused.Pairwise fun d e => Dissimilar h d.2 e.2

theorem partnered_start {xs zs : List Value} (hp : zs.Perm xs) (ha : xs.Pairwise (Dissimilar h)) :
    Partnered h zs ⟨xs.zipIdx.map fun (x, i) => (i, x), [], []⟩ where
  updates := rfl
  additions := rfl
  places := by
    simp only [List.map_map, Function.comp_def]
    rw [List.zipIdx_map_snd]
    exact List.nodup_range'
  items := by
    simp only [List.map_map, Function.comp_def]
    rw [List.zipIdx_map_fst]
    exact hp.symm
  apart := by
    rw [List.pairwise_map, ← List.pairwise_map (f := Prod.fst) (R := Dissimilar h),
      List.zipIdx_map_fst]
    exact ha

section Pairing
variable {zs : List Value} {p q : Pairing}
variable (hz : h.Lawful K z) (hy : h.Lawful K y) (he : Equal h z y) (hs : Steady h z identifiers)
include hz hy he hs

/-- The only item similar to a new one is the one that equals it. -/
theorem Partnered.findSimilar (hp : Partnered h (z :: zs) p)
    (hl : ∀ e ∈ p.unused, h.Lawful K e.2) {found : Option (Nat × Value)}
    (hf : findSimilar h y p.unused = .ok found) : ∃ e ∈ p.unused, e.2 = z ∧ found = some e := by
  obtain ⟨e, hm, rfl⟩ := List.mem_map.mp (hp.items.mem_iff.mpr (List.mem_cons_self ..))
  refine ⟨e, hm, rfl, ?_⟩
  cases found with
  | none => cases areSimilar_equal hz hy he (dissimilar_of_findSimilar hf e hm)
  | some d =>
    by_contra hne
    have hdm := findSimilar_mem hf
    have hsymm : Std.Symm fun d e : Nat × Value => Dissimilar h d.2 e.2 :=
      ⟨fun _ _ hde => ⟨hde.2, hde.1⟩⟩
    have hapart : Dissimilar h d.2 e.2 :=
      hp.apart.forall hdm hm fun hde => hne (congrArg some hde)
    cases areSimilar_congr hz hy he (hl d hdm) hs hapart.1 (similar_of_findSimilar hf)

/-- One more item is paired with the one that equals it. -/
theorem Partnered.add (hp : Partnered h (z :: zs) p) (hl : ∀ e ∈ p.unused, h.Lawful K e.2)
    (hq : p.add h y = .ok q) : Partnered h zs q ∧ q.unused ⊆ p.unused := by
  obtain ⟨found, hf, hq⟩ := bind_eq_ok.mp hq
  obtain ⟨e, hm, rfl, rfl⟩ := hp.findSimilar hz hy he hs hl hf
  obtain ⟨equal, hd, hq⟩ := bind_eq_ok.mp hq
  obtain rfl := Except.ok.inj (hd.symm.trans he)
  cases hq
  have hsub : (p.unused.filter fun d => d.1 != e.1).Sublist p.unused := List.filter_sublist
  have hitems := ((unused_perm hp.places hm).map (·.2)).symm.trans hp.items
  exact ⟨⟨hp.updates, hp.additions, hp.places.sublist (hsub.map _), hitems.cons_inv,
    hp.apart.sublist hsub⟩, hsub.subset⟩

end Pairing

/-- Where the new items equal the old ones in some order all are paired and none is updated. -/
theorem pairUp_permuted {xs ys zs : List Value} {p : Pairing} (hx : ∀ x ∈ xs, h.Lawful K x)
    (hy : ∀ y ∈ ys, h.Lawful K y) (hs : ∀ x ∈ xs, Steady h x identifiers)
    (ha : xs.Pairwise (Dissimilar h)) (hz : zs.Perm xs) (he : List.Forall₂ (Equal h) zs ys)
    (hp : pairUp h xs ys = .ok p) : p = ⟨[], [], []⟩ := by
  have hfold : ∀ p q, Partnered h zs p → (∀ e ∈ p.unused, h.Lawful K e.2) →
      ys.foldlM (fun p y => p.add h y) p = .ok q → Partnered h [] q := by
    have hzl : ∀ z ∈ zs, h.Lawful K z ∧ Steady h z identifiers := fun z hm =>
      ⟨hx z (hz.mem_iff.mp hm), hs z (hz.mem_iff.mp hm)⟩
    clear hz hp
    induction he with
    | nil =>
      rintro p _ hp - ⟨⟩
      exact hp
    | @cons z y zs ys hzy _ ih =>
      intro p q hp hl hq
      rw [List.foldlM_cons] at hq
      obtain ⟨r, hr, hq⟩ := bind_eq_ok.mp hq
      rw [List.forall_mem_cons] at hzl hy
      obtain ⟨hstep, hsub⟩ := hp.add hzl.1.1 hy.1 hzy hzl.1.2 hl hr
      exact ih hy.2 hzl.2 r q hstep (fun e hm => hl e (hsub hm)) hq
  have hend := hfold _ p (partnered_start hz ha) (fun e hm => ?_) hp
  · obtain ⟨unused, updates, additions⟩ := p
    obtain rfl : updates = [] := hend.updates
    obtain rfl : additions = [] := hend.additions
    obtain rfl : unused = [] := List.map_eq_nil_iff.mp hend.items.eq_nil
    rfl
  · obtain ⟨d, hd, rfl⟩ := List.mem_map.mp hm
    exact hx d.1 (List.fst_mem_of_mem_zipIdx hd)

/-! ### Merging -/

/-- Two lists of maps with an identifier each, the second with copies in the other order. -/
def crates : Heap :=
  ⟨#[.int none 1, .int none 2, .text none "id", .text none "size", .map none [(3, 1), (4, 1)],
    .map none [(3, 2), (4, 1)], .map none [(3, 2), (4, 1)], .map none [(4, 1), (3, 1)],
    .list none [5, 6], .list none [7, 8]]⟩

theorem lawful_crates (a : Addr) : crates.Lawful (fun _ => .basic "dict") (.ref a) := by
  have hkeys : ∀ a < crates.size, ∀ es ∈ crates.entries? (crates.view (.ref a)),
      es.Pairwise fun d e => (crates.matching d.1 e.1).toOption ≠ some true := by decide +kernel
  have hitems : ∀ a < crates.size, (crates.view (.ref a)).setItems? = none := by decide +kernel
  refine lawful_ref (fun a ha => ?_) (fun a ha es hes => ?_) (fun a ha xs hxs => ?_) a
  · have hsize : a < 11 := ha
    interval_cases a <;> exact ⟨by trivial, trivial, nofun⟩
  · exact (hkeys a ha es hes).imp fun hne hm => hne (by rw [hm]; rfl)
  · cases (hitems a ha).symm.trans hxs

/-- Two lists of maps with two sizes in two orders; the identifiers of the one are zeros and those
of the other fives, of a derived class. -/
def dials : Heap :=
  ⟨#[.int (some ⟨"Notch", false⟩) 0, .int (some ⟨"Notch", false⟩) 5, .text none "id",
    .text none "size", .int none 1, .int none 2, .map none [(3, 1), (4, 5)],
    .map none [(3, 1), (4, 6)], .map none [(3, 2), (4, 6)], .map none [(3, 2), (4, 5)],
    .list none [7, 8], .list none [9, 10]]⟩

end DocDelta.Diff
