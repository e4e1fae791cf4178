import DocDelta.Proofs.Diff.Unchanged
import DocDelta.Proofs.Value.Rearranged

/-! What does not depend on the order of entries.

Two values are `Reordered` where one is the other rearranged and both are `Orderable`, so that
their mappings can be told by their keys. None of the questions that a comparison asks has another
answer then: `deepEqual_rearranged` and `isZero_rearranged` say so of the two that look at whole
values. -/
namespace DocDelta.Heap
open Relation
variable {h : Heap} {R S : Value → Value → Prop} {a b u w x y : Value} {es fs : List (Value × Value)}

/-! ### Values that can be rearranged -/

/-- Names that no placeholder is taken for: keys are plain, and no part of the name of a field is a
placeholder. -/
structure Readable (h : Heap) (o : Object Value) : Prop where
  keys : ∀ c es, o = .map c es → ∀ e ∈ es, ∃ s, (h.view e.1).text? = some s ∧ Diff.PlainName s
  fields : ∀ f ∈ o.fields, Diff.Unnumbered f.external

theorem readable_nil : h.Readable .nil := ⟨nofun, nofun⟩

/-- A layer is readable whose parts have plain names, and whose keys are texts. -/
theorem readable_of_names {o : Object Value} (hp : ∀ s ∈ h.partNames o, Diff.PlainName s)
    (ht : ∀ es ∈ h.entries? o, ∀ e ∈ es, ((h.view e.1).text?).isSome = true) : h.Readable o := by
  refine ⟨fun c es ho e he => ?_, fun f hf => ?_⟩
  · subst ho
    obtain ⟨s, hs⟩ := Option.isSome_iff_exists.mp (ht es entries?_of_map e he)
    exact ⟨s, hs, hp s (List.mem_filterMap.mpr ⟨e, he, hs⟩)⟩
  · cases o with
    | map c es => cases c <;> cases hf
    | _ => exact (hp _ (List.mem_map_of_mem hf)).unnumbered

/-- Something whose mappings can be put in another order: an object of the heap that does not
contain itself and holds no signaling NaN, whose mappings have plain texts for keys at any depth. -/
structure Orderable (h : Heap) (K : ClassTable) (v : Value) : Prop where
  placed : v = .nil ∨ ∃ a, v = .ref a
  acyclic : h.Acyclic v
  regular : h.Everywhere h.Regular v
  quiet : h.Everywhere Quiet v
  follows : h.Everywhere (Object.Follows K) v
  readable : h.Everywhere h.Readable v

variable {K : ClassTable} {v : Value}

theorem placed_of_within (hv : v = .nil ∨ ∃ a, v = .ref a) (hw : h.Within v w) :
    w = .nil ∨ ∃ a, w = .ref a := by
  rcases hv with rfl | ⟨a, rfl⟩
  · exact .inl (within_nil hw)
  · exact .inr (within_ref hw)

theorem Orderable.sane (hv : h.Orderable K v) : h.Sane K v := ⟨hv.regular, hv.quiet, hv.follows⟩

theorem Orderable.of_within (hv : h.Orderable K v) (hw : h.Within v w) : h.Orderable K w where
  placed := placed_of_within hv.placed hw
  acyclic := hv.acyclic.of_within hw
  regular := hv.regular.of_within hw
  quiet := hv.quiet.of_within hw
  follows := hv.follows.of_within hw
  readable := hv.readable.of_within hw

theorem orderable_nil : h.Orderable K .nil where
  placed := .inl rfl
  acyclic := acyclic_nil
  regular := everywhere_nil trivial
  quiet := everywhere_nil trivial
  follows := everywhere_nil (Object.follows_nil K)
  readable := everywhere_nil readable_nil

theorem Orderable.link (hv : h.Orderable K v) (hl : h.Link v w) : h.Orderable K w := by
  rcases hl.below with rfl | hw
  · exact orderable_nil
  · exact hv.of_within hw.to_reflTransGen

theorem Orderable.fieldValue (hv : h.Orderable K v) (name : String) :
    h.Orderable K (h.fieldValue v name) := by
  rcases within_fieldValue (h := h) (v := v) name with he | hw
  · rw [he]
    exact orderable_nil
  · exact hv.of_within hw

theorem Orderable.item (hv : h.Orderable K v) {xs : List Value} (hx : (h.view v).items? = some xs)
    (hm : x ∈ xs) : h.Orderable K x :=
  hv.of_within (.single (items?_part (by rw [hx]; exact hm)))

/-- The keys of a mapping are distinct plain texts. -/
structure KeyedBy (h : Heap) (es : List (Value × Value)) : Prop where
  plain : ∀ e ∈ es, ∃ s, (h.view e.1).text? = some s ∧ Diff.PlainName s
  nodup : (es.filterMap fun e => (h.view e.1).text?).Nodup

theorem KeyedBy.texts (hk : h.KeyedBy es) : ∀ e ∈ es, ∃ s, (h.view e.1).text? = some s :=
  fun e he => (hk.plain e he).imp fun _ hs => hs.1

theorem KeyedBy.sort (hk : h.KeyedBy es) :
    ∀ s ∈ es.filterMap fun e => (h.view e.1).text?, Diff.PlainName s := by
  intro s hs
  obtain ⟨e, he, hs⟩ := List.mem_filterMap.mp hs
  obtain ⟨t, ht, hp⟩ := hk.plain e he
  cases hs.symm.trans ht
  exact hp

theorem Orderable.keyed (hv : h.Orderable K v) (he : h.entries? (h.view v) = some es) :
    h.KeyedBy es := by
  obtain ⟨u, c, hu, hc⟩ := entries?_map he
  have hr := hv.regular u hu
  rw [hc] at hr
  exact ⟨(hv.readable u hu).keys c es hc, hr.2⟩

theorem Orderable.entries (hv : h.Orderable K v) (hk : (h.view v).kind = .mapping) :
    ∃ es, h.entries? (h.view v) = some es ∧ h.KeyedBy es := by
  obtain ⟨es, hes⟩ := hv.regular.here.entries hk
  exact ⟨es, hes, hv.keyed hes⟩

/-- In a heap whose objects keep these rules and rank above their parts, every object is so. -/
theorem orderable_ref (r : Addr → Nat) (hr : ∀ a < h.size, ∀ b ∈ (h.object a).children, r b < r a)
    (hg : ∀ a < h.size, h.Regular (h.view (.ref a)) ∧ Quiet (h.view (.ref a)))
    (hk : ∀ a < h.size, (h.view (.ref a)).Follows K)
    (hn : ∀ a < h.size, h.Readable (h.view (.ref a))) (a : Addr) : h.Orderable K (.ref a) where
  placed := .inr ⟨a, rfl⟩
  acyclic := acyclic_ref r hr a
  regular := everywhere_ref trivial (fun a ha => (hg a ha).1) a
  quiet := everywhere_ref trivial (fun a ha => (hg a ha).2) a
  follows := everywhere_ref (Object.follows_nil K) hk a
  readable := everywhere_ref readable_nil hn a

/-- Equal sequences have equal items. -/
theorem Orderable.items_equal (hv : h.Orderable K v) (hk : (h.view v).kind = .sequence)
    (he : h.deepEqual v w = .ok true) :
    List.Forall₂ (fun x y => h.deepEqual x y = .ok true) ((h.view v).items?.getD [])
      ((h.view w).items?.getD []) := by
  have hnil : h.view v ≠ .nil := fun hn => by
    rw [hn] at hk
    cases hk
  rcases related_of_deepEqual hnil he with rfl | ⟨hs, hr⟩
  · obtain ⟨xs, hx⟩ := Object.items?_of_sequence hk
    rw [hx]
    exact List.forall₂_same.mpr fun x hm => deepEqual_self (hv.item hx hm).placed
  · exact hr.sequence_parts hs hk

/-! ### Rearranging such values -/

theorem Rearranged.regular (hr : h.Rearranged a b) (ha : a = .nil ∨ ∃ i, a = .ref i)
    (hb : b = .nil ∨ ∃ i, b = .ref i) (hg : h.Regular (h.view a)) : h.Regular (h.view b) := by
  cases hr.reorders with
  | same he => exact he ▸ hg
  | list _ hview | tuple _ hview | record _ hview =>
    rw [hview]
    trivial
  | map hview hview' hp =>
    rw [hview] at hg
    rw [hview']
    refine ⟨fun f hf => ?_, (hp.texts (h := h)).nodup_iff.mp hg.2⟩
    obtain ⟨e, he, hkey, _⟩ := hp.mem hf
    exact hkey ▸ hg.1 e he
  | mapView hview hview' =>
    obtain ⟨es, hes⟩ := Option.isSome_iff_exists.mp (hview ▸ hg)
    obtain ⟨fs, hfs, _⟩ := hr.entries ha hb (hview ▸ hes)
    rw [hview'] at hfs ⊢
    exact Option.isSome_iff_exists.mpr ⟨fs, hfs⟩

theorem Rearranged.quiet (hr : h.Rearranged a b) (hq : Quiet (h.view a)) : Quiet (h.view b) := by
  cases hr.reorders with
  | same he => exact he ▸ hq
  | list _ hview | tuple _ hview | record _ hview | map _ hview | mapView _ hview =>
    rw [hview]
    trivial

theorem Rearranged.follows (hr : h.Rearranged a b) (hf : (h.view a).Follows K) :
    (h.view b).Follows K := by
  intro n hn
  rw [hf n (hr.cls ▸ hn)]
  cases hr.reorders with
  | same he => rw [he]
  | list ha hb | tuple ha hb | record ha hb | map ha hb | mapView ha hb =>
    rw [ha, hb]
    rfl

theorem Rearranged.readable (hr : h.Rearranged a b) (hn : h.Readable (h.view a)) :
    h.Readable (h.view b) := by
  refine ⟨fun c fs hfs f hf => ?_, hr.fields ▸ hn.fields⟩
  cases hr.reorders with
  | same he => exact hn.keys c fs (he ▸ hfs) f hf
  | map ha hb hp =>
    cases hb.symm.trans hfs
    obtain ⟨e, he, hkey, _⟩ := hp.mem hf
    exact hkey ▸ hn.keys _ _ ha e he
  | list _ hb | tuple _ hb | record _ hb | mapView _ hb => cases hb.symm.trans hfs

/-- **What can be rearranged can be once it is.** -/
theorem Orderable.rearranged (ha : h.Orderable K a) (hr : h.Rearranged a b)
    (hb : b = .nil ∨ ∃ i, b = .ref i) : h.Orderable K b := by
  refine ⟨hb, hr.acyclic ha.acyclic, fun w hw => ?_, fun w hw => ?_, fun w hw => ?_, fun w hw => ?_⟩
  all_goals obtain ⟨u, hu, huw⟩ := hr.within hw
  · exact huw.regular (placed_of_within ha.placed hu) (placed_of_within hb hw) (ha.regular u hu)
  · exact huw.quiet (ha.quiet u hu)
  · exact huw.follows (ha.follows u hu)
  · exact huw.readable (ha.readable u hu)

/-! ### Deep equality -/

/-- Equal values in other orders. -/
def EqualBefore (h : Heap) (K : ClassTable) (u w : Value) : Prop :=
  ∃ x y, (h.Orderable K x ∧ h.Orderable K y) ∧ (h.Orderable K u ∧ h.Orderable K w) ∧
    h.Rearranged x u ∧ h.Rearranged y w ∧ h.deepEqual x y = .ok true

/-- Mappings that were equal have equal values under the same keys. -/
theorem equalBefore_entries (hx : h.Orderable K x) (hy : h.Orderable K y) (hu : h.Orderable K u)
    (hw : h.Orderable K w) (hxu : h.Rearranged x u) (hyw : h.Rearranged y w)
    (hk : (h.view x).kind = .mapping) (he : h.deepEqual x y = .ok true) :
    ((h.entries? (h.view u)).getD []).length = ((h.entries? (h.view w)).getD []).length ∧
      ∀ e ∈ (h.entries? (h.view u)).getD [], ∃ v,
        h.find? e.1 ((h.entries? (h.view w)).getD []) = .ok (some v) ∧ EqualBefore h K e.2 v := by
  have hky := (Object.kind_eq hx.follows.here hy.follows.here (deepEqual_classes he)).symm.trans hk
  obtain ⟨as, has, hka⟩ := hx.entries hk
  obtain ⟨bs, hbs, hkb⟩ := hy.entries hky
  obtain ⟨cs, hcs, hac⟩ := hxu.entries hx.placed hu.placed has
  obtain ⟨ds, hds, hbd⟩ := hyw.entries hy.placed hw.placed hbs
  have hlength : as.length = bs.length := by
    have hnil : h.view x ≠ .nil := fun hn => by
      rw [hn] at hk
      cases hk
    rcases related_of_deepEqual hnil he with rfl | ⟨hs, hr⟩
    · rw [Option.some.inj (has.symm.trans hbs)]
    · have hl := (hr.mapping_parts hs hk).1
      rwa [has, hbs] at hl
  rw [hcs, hds]
  refine ⟨hac.length_eq.symm.trans (hlength.trans hbd.length_eq), fun e hm => ?_⟩
  obtain ⟨s, hs⟩ := (hu.keyed hcs).texts e hm
  have hfound : h.entry? s cs = some e.2 := entry?_of_mem (hu.keyed hcs).nodup hm hs
  rw [Option.getD_some, find?_of_text hs]
  rcases hac.entry? hka.nodup s with ⟨_, hnone⟩ | ⟨x', u', hx', hu', hxu'⟩
  · rw [hfound] at hnone
    cases hnone
  rcases entries_equal hx.placed hk he has hbs hka.texts hkb.texts hka.nodup s with
    ⟨hnone, _⟩ | ⟨x'', y', hx'', hy', he'⟩
  · rw [hx'] at hnone
    cases hnone
  rcases hbd.entry? hkb.nodup s with ⟨hnone, _⟩ | ⟨y'', w', hy'', hw', hyw'⟩
  · rw [hy'] at hnone
    cases hnone
  cases hfound.symm.trans hu'
  cases hx'.symm.trans hx''
  cases hy'.symm.trans hy''
  exact ⟨w', congrArg _ hw', x', y', ⟨hx.link (link_entry has hx'), hy.link (link_entry hbs hy')⟩,
    ⟨hu.link (link_entry hcs hu'), hw.link (link_entry hds hw')⟩, hxu', hyw', he'⟩

theorem bisimulation_equalBefore : h.Bisimulation (EqualBefore h K) := by
  rintro u w ⟨x, y, ⟨hx, hy⟩, ⟨hu, hw⟩, hxu, hyw, he⟩
  have hc : (h.view u).cls = (h.view w).cls := by rw [hxu.cls, hyw.cls, deepEqual_classes he]
  have hkind := Object.kind_eq hx.follows.here hy.follows.here (deepEqual_classes he)
  cases hk : (h.view x).kind with
  | record =>
    refine .record hc (hxu.kind.trans hk) ?_ fun name u' w' hu' hw' => ?_
    · rcases related_of_deepEqual (Object.ne_nil_of_record hk) he with rfl | ⟨hs, hr⟩
      · rw [hxu.names, hyw.names]
      · rw [hxu.names, hyw.names, (hr.record_parts hs hk).1]
    · have hvalue : h.fieldValue u name = u' ∧ h.fieldValue w name = w' := by
        simp only [Heap.fieldValue, hu', hw', Option.getD_some, and_self]
      rw [← hvalue.1, ← hvalue.2]
      exact ⟨_, _, ⟨hx.fieldValue name, hy.fieldValue name⟩, ⟨hu.fieldValue name, hw.fieldValue name⟩,
        hxu.fieldValue name, hyw.fieldValue name, fields_equal hx.placed hk (hkind.symm.trans hk) he name⟩
  | mapping =>
    obtain ⟨hl, hp⟩ := equalBefore_entries hx hy hu hw hxu hyw hk he
    exact .mapping hc (hxu.kind.trans hk) hl hp
  | sequence =>
    refine .sequence hc (hxu.kind.trans hk) ?_
    have hequal := hx.items_equal hk he
    obtain ⟨xs, hxs⟩ := Object.items?_of_sequence hk
    obtain ⟨ys, hys⟩ := Object.items?_of_sequence (hkind.symm.trans hk)
    obtain ⟨us, hus, hxus⟩ := hxu.items hxs
    obtain ⟨ws, hws, hyws⟩ := hyw.items hys
    rw [hxs, hys] at hequal
    rw [hus, hws]
    obtain ⟨hl, hequal⟩ := List.forall₂_iff_get.mp hequal
    obtain ⟨hlu, hxus⟩ := List.forall₂_iff_get.mp hxus
    obtain ⟨hlw, hyws⟩ := List.forall₂_iff_get.mp hyws
    refine List.forall₂_iff_get.mpr ⟨hlu.symm.trans (hl.trans hlw), fun i hi hj => ?_⟩
    have hix : i < xs.length := hlu ▸ hi
    have hiy : i < ys.length := hlw ▸ hj
    exact ⟨_, _, ⟨hx.item hxs (List.get_mem xs ⟨i, hix⟩), hy.item hys (List.get_mem ys ⟨i, hiy⟩)⟩,
      ⟨hu.item hus (List.get_mem us ⟨i, hi⟩), hw.item hws (List.get_mem ws ⟨i, hj⟩)⟩,
      hxus i hix hi, hyws i hiy hj, hequal i hix hiy⟩
  | _ =>
    have hl : (h.view x).kind.isLeaf = true := by rw [hk]; rfl
    obtain rfl := hxu.eq_of_leaf hl
    obtain rfl := hyw.eq_of_leaf (hkind ▸ hl)
    rw [deepEqual_leaf (deepEqual_classes he) hl] at he
    exact (related_leaf hl).mpr ⟨hc, he⟩

/-- **The order of entries does not matter to deep equality.** -/
theorem deepEqual_rearranged (ha : h.Orderable K a) (hb : h.Orderable K b) (hu : h.Orderable K u)
    (hw : h.Orderable K w) (hau : h.Rearranged a u) (hbw : h.Rearranged b w) :
    h.deepEqual u w = h.deepEqual a b := by
  have honly : ∀ {a b u w : Value}, h.Orderable K a → h.Orderable K b → h.Orderable K u →
      h.Orderable K w → h.Rearranged a u → h.Rearranged b w → h.deepEqual a b = .ok true →
      h.deepEqual u w = .ok true := fun ha hb hu hw hau hbw he =>
    deepEqual_eq_true.mpr ⟨EqualBefore h K, bisimulation_equalBefore, _, _, ⟨ha, hb⟩, ⟨hu, hw⟩, hau,
      hbw, he⟩
  obtain ⟨r, hr⟩ := answers_deepEqual ha.sane hb.sane
  obtain ⟨q, hq⟩ := answers_deepEqual hu.sane hw.sane
  have hrq : r = true ↔ q = true := by
    constructor
    · rintro rfl
      exact Except.ok.inj (hq.symm.trans (honly ha hb hu hw hau hbw hr))
    · rintro rfl
      exact Except.ok.inj (hr.symm.trans (honly hu hw ha hb hau.symm hbw.symm hq))
  rw [hr, hq, Bool.eq_iff_iff.mpr hrq]

/-- A value equals what it becomes by rearranging. -/
theorem Rearranged.deepEqual (hr : h.Rearranged a b) (ha : h.Orderable K a) (hb : h.Orderable K b) :
    h.deepEqual a b = .ok true := by
  rw [deepEqual_rearranged ha ha ha hb (rearranged_refl a) hr]
  exact deepEqual_self ha.placed

/-! ### Zero values -/

theorem Rearranged.isZeroValue (hr : h.Rearranged a b) : h.isZeroValue b = h.isZeroValue a := by
  cases hr.reorders with
  | same he => rw [he]
  | list ha hb | tuple ha hb | record ha hb | map ha hb | mapView ha hb =>
    rw [Heap.isZeroValue, Heap.isZeroValue, ha, hb]
    rfl

theorem Rearranged.entryCount (hr : h.Rearranged a b) (ha : a = .nil ∨ ∃ i, a = .ref i)
    (hb : b = .nil ∨ ∃ i, b = .ref i) : h.entryCount (h.view b) = h.entryCount (h.view a) := by
  unfold Heap.entryCount
  cases hx : (h.view a).items? with
  | some xs =>
    obtain ⟨ys, hy, hp⟩ := hr.items hx
    rw [hy]
    exact hp.length_eq.symm
  | none =>
    cases hy : (h.view b).items? with
    | some ys =>
      obtain ⟨xs, hxs, _⟩ := hr.symm.items hy
      rw [hx] at hxs
      cases hxs
    | none =>
      cases hes : h.entries? (h.view a) with
      | some es =>
        obtain ⟨fs, hfs, hp⟩ := hr.entries ha hb hes
        rw [hfs]
        exact hp.length_eq.symm
      | none =>
        cases hfs : h.entries? (h.view b) with
        | some fs =>
          obtain ⟨es, hes', _⟩ := hr.symm.entries hb ha hfs
          rw [hes] at hes'
          cases hes'
        | none => rfl

/-- **Nor does it matter to whether a value is zero.** -/
theorem isZero_rearranged (ha : h.Orderable K a) (hb : h.Orderable K b) (hr : h.Rearranged a b) :
    h.isZero b = h.isZero a := by
  refine ha.acyclic.induction (P := fun a => ∀ b, h.Orderable K a → h.Orderable K b →
    h.Rearranged a b → h.isZero b = h.isZero a) ?_ b ha hb hr
  intro a _ ih b ha hb hr
  cases hk : (h.view a).kind with
  | record =>
    have hnil := Object.ne_nil_of_record hk
    rw [isZero_record ha.acyclic hk, isZero_record hb.acyclic (hr.kind.trans hk), hr.fields]
    refine allHold_congr fun f _ => ?_
    exact ih _ (ha.acyclic.fieldValue f.name) (ha.acyclic.rank_fieldValue hnil f.name) _
      (ha.fieldValue f.name) (hb.fieldValue f.name) (hr.fieldValue f.name)
  | sequence =>
    rw [isZero_counted (.inl hk), isZero_counted (.inl (hr.kind.trans hk)),
      hr.entryCount ha.placed hb.placed]
  | mapping =>
    rw [isZero_counted (.inr hk), isZero_counted (.inr (hr.kind.trans hk)),
      hr.entryCount ha.placed hb.placed]
  | _ => rw [hr.eq_of_leaf (by rw [hk]; rfl)]

/-! ### Both at once -/

/-- Two orders of one value. -/
structure Reordered (h : Heap) (K : ClassTable) (a b : Value) : Prop where
  before : h.Orderable K a
  after : h.Orderable K b
  order : h.Rearranged a b

theorem reordered_refl (ha : h.Orderable K a) : h.Reordered K a a := ⟨ha, ha, rearranged_refl a⟩

theorem Reordered.fieldValue (hr : h.Reordered K a b) (name : String) :
    h.Reordered K (h.fieldValue a name) (h.fieldValue b name) :=
  ⟨hr.before.fieldValue name, hr.after.fieldValue name, hr.order.fieldValue name⟩

theorem Reordered.attribute (hr : h.Reordered K a b) (name : String) :
    Option.Rel (h.Reordered K) ((h.view a).attribute? name) ((h.view b).attribute? name) := by
  have hwithin : ∀ {v w : Value}, h.Orderable K v → (h.view v).attribute? name = some w →
      h.Orderable K w := fun hv hw => hv.of_within (.single (attribute?_mem hw))
  have ho := hr.order.attribute name
  have hx := fun w => hwithin (w := w) hr.before
  have hy := fun w => hwithin (w := w) hr.after
  generalize (h.view a).attribute? name = x at *
  generalize (h.view b).attribute? name = y at *
  cases ho with
  | none => exact .none
  | some hvw => exact .some ⟨hx _ rfl, hy _ rfl, hvw⟩

/-- The items of two sequences. -/
theorem Reordered.items (hr : h.Reordered K a b) {xs ys : List Value}
    (hx : (h.view a).items? = some xs) (hy : (h.view b).items? = some ys) :
    List.Forall₂ (h.Reordered K) xs ys := by
  obtain ⟨zs, hz, hp⟩ := hr.order.items hx
  obtain rfl := Option.some.inj (hy.symm.trans hz)
  obtain ⟨hl, hp⟩ := List.forall₂_iff_get.mp hp
  exact List.forall₂_iff_get.mpr ⟨hl, fun i hi hj =>
    ⟨hr.before.item hx (List.get_mem xs ⟨i, hi⟩), hr.after.item hy (List.get_mem ys ⟨i, hj⟩),
      hp i hi hj⟩⟩

/-- What is under a key of two mappings. -/
theorem Reordered.entry (hr : h.Reordered K a b) (hes : h.entries? (h.view a) = some es)
    (hfs : h.entries? (h.view b) = some fs) (s : String) :
    Option.Rel (h.Reordered K) (h.entry? s es) (h.entry? s fs) := by
  obtain ⟨gs, hgs, hp⟩ := hr.order.entries hr.before.placed hr.after.placed hes
  obtain rfl := Option.some.inj (hfs.symm.trans hgs)
  rcases hp.entry? (hr.before.keyed hes).nodup s with ⟨hx, hy⟩ | ⟨x, y, hx, hy, hxy⟩
  · rw [hx, hy]
    exact .none
  · rw [hx, hy]
    exact .some ⟨hr.before.link (link_entry hes hx), hr.after.link (link_entry hfs hy), hxy⟩

theorem Reordered.under (hr : h.Reordered K a b) (hes : h.entries? (h.view a) = some es)
    (hfs : h.entries? (h.view b) = some fs) (s : String) :
    h.Reordered K ((h.entry? s es).getD .nil) ((h.entry? s fs).getD .nil) := by
  have hentry := hr.entry hes hfs s
  generalize h.entry? s es = x at *
  generalize h.entry? s fs = y at *
  cases hentry with
  | none => exact reordered_refl orderable_nil
  | some hxy => exact hxy

/-- Two mappings have the same texts for keys. -/
theorem Reordered.texts (hr : h.Reordered K a b) (hes : h.entries? (h.view a) = some es)
    (hfs : h.entries? (h.view b) = some fs) :
    (es.filterMap fun e => (h.view e.1).text?).Perm (fs.filterMap fun e => (h.view e.1).text?) := by
  obtain ⟨gs, hgs, hp⟩ := hr.order.entries hr.before.placed hr.after.placed hes
  obtain rfl := Option.some.inj (hfs.symm.trans hgs)
  exact hp.texts

theorem Reordered.deepEqual_eq (ha : h.Reordered K a u) (hb : h.Reordered K b w) :
    h.deepEqual u w = h.deepEqual a b :=
  deepEqual_rearranged ha.before hb.before ha.after hb.after ha.order hb.order

theorem Reordered.deepEqual (hr : h.Reordered K a b) : h.deepEqual a b = .ok true :=
  hr.order.deepEqual hr.before hr.after

theorem Reordered.isZero (hr : h.Reordered K a b) : h.isZero b = h.isZero a :=
  isZero_rearranged hr.before hr.after hr.order

end DocDelta.Heap
