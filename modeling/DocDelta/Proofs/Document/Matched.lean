import DocDelta.Proofs.Diff.Ownership
import DocDelta.Proofs.Document.Written

/-! How two equal values correspond.

Values that documents are written of are equal part by part: the same fields, the same keys, as
many items. `matched_of_deepEqual` says so once, for every kind of value; that equal values are
zero together, and that their documents are the same, is then induction on the value. -/
namespace DocDelta
open Relation

/-- Records of one class with the same attributes have the same fields. -/
theorem Object.fields_eq_of_names {x y : Object Value} (hf : x.form = y.form)
    (hn : x.attributeNames? = y.attributeNames?) : x.fields = y.fields := by
  cases hd : x.isDeclared with
  | true => exact fields_eq_of_declared hf hd
  | false =>
    have hdy : y.isDeclared = false := isDeclared_eq hf ▸ hd
    rw [fields, fields, fields?_names hd, fields?_names hdy]
    simp [hn]

namespace Heap
variable {h : Heap} {K : ClassTable} {v w a b : Value}

/-! ### Fit values -/

/-- A value that a document is written of: its layers are plain, its classes are those of one
table, its parts have names of their own, and it does not contain itself. -/
structure Fit (h : Heap) (K : ClassTable) (v : Value) : Prop where
  plain : h.Everywhere h.Plain v
  named : h.Everywhere (Object.Follows K) v
  wellNamed : h.Everywhere h.WellNamed v
  acyclic : h.Acyclic v

theorem Fit.of_within (hv : h.Fit K v) (hw : h.Within v w) : h.Fit K w :=
  ⟨hv.plain.of_within hw, hv.named.of_within hw, hv.wellNamed.of_within hw, hv.acyclic.of_within hw⟩

theorem fit_nil : h.Fit K .nil :=
  ⟨everywhere_nil plain_nil, everywhere_nil (Object.follows_nil K), everywhere_nil wellNamed_nil,
    acyclic_nil⟩

theorem Fit.fieldValue (hv : h.Fit K v) (name : String) : h.Fit K (h.fieldValue v name) := by
  rcases fieldValue_part v name with he | hp
  · rw [he]
    exact fit_nil
  · exact hv.of_within (.single hp)

/-- In a heap all of whose objects are plain and well named and rank above their parts, every
object is fit. -/
theorem fit_ref (r : Addr → Nat) (hp : ∀ a < h.size, h.Plain (h.view (.ref a)))
    (hk : ∀ a < h.size, (h.view (.ref a)).Follows K)
    (hn : ∀ a < h.size, h.WellNamed (h.view (.ref a)))
    (hr : ∀ a < h.size, ∀ b ∈ (h.object a).children, r b < r a) (a : Addr) : h.Fit K (.ref a) :=
  ⟨everywhere_ref plain_nil hp a, everywhere_ref (Object.follows_nil K) hk a,
    everywhere_ref wellNamed_nil hn a, acyclic_ref r hr a⟩

/-- The entries of a fit mapping: its keys are distinct texts. -/
structure Entries (h : Heap) (v : Value) (es : List (Value × Value)) : Prop where
  view : h.view v = .map none es
  entries : h.entries? (h.view v) = some es
  texts : ∀ e ∈ es, ∃ s, (h.view e.1).text? = some s
  nodup : (es.filterMap fun e => (h.view e.1).text?).Nodup

theorem Fit.entries (hv : h.Fit K v) (hk : (h.view v).kind = .mapping) :
    ∃ es, Entries h v es := by
  have hp := hv.plain.here
  have hn := hv.wellNamed.here
  cases hview : h.view v with
  | map c es =>
    rw [hview] at hp hn
    cases c with
    | some c => exact absurd hp id
    | none =>
      refine ⟨es, hview, ?_, fun e he => Option.isSome_iff_exists.mp (hp e he), hn.nodup⟩
      rw [hview]
      exact entries?_of_map
  | mapView t =>
    rw [hview] at hp
    exact absurd hp id
  | int c n =>
    rw [hview] at hk
    cases c <;> cases hk
  | float c n =>
    rw [hview] at hk
    cases c <;> cases hk
  | _ =>
    rw [hview] at hk
    cases hk

theorem Entries.below {es : List (Value × Value)} (he : Entries h v es) {s : String} {x : Value}
    (hx : h.entry? s es = some x) : TransGen h.Part v x := by
  obtain ⟨e, hm, rfl, _⟩ := entry?_mem hx
  exact (entries?_below he.entries hm).2

/-- A text is found as a name: no other key matches it. -/
theorem find?_of_text {key : Value} {s : String} (hk : (h.view key).text? = some s)
    {es : List (Value × Value)} : h.find? key es = .ok (h.entry? s es) := by
  induction es with
  | nil => rfl
  | cons e es ih =>
    rw [entry?_cons, isText]
    show (matchPart h h.same e.1 key >>= fun r => if r then .ok (some e.2) else h.find? key es) = _
    rw [Diff.matchPart_same_text hk, ih]
    show (if ((h.view e.1).text? == some s) = true then Except.ok (some e.2)
      else .ok (h.entry? s es)) = _
    split <;> rfl

/-- A text can be a key. -/
theorem hashable_of_text {s : String} (hv : (h.view v).text? = some s) : h.hashable v = true := by
  rw [hashable, layerBound, hashableWithin]
  generalize h.view v = o at hv
  cases o <;> first | rfl | cases hv

theorem valueUnder_text {key : Value} {s : String} (hk : (h.view key).text? = some s)
    {es : List (Value × Value)} : Diff.valueUnder h key es = .ok ((h.entry? s es).getD .nil) := by
  unfold Diff.valueUnder
  rw [find?_of_text hk]
  rfl

theorem lacks_text {key : Value} {s : String} (hk : (h.view key).text? = some s)
    {es : List (Value × Value)} : Diff.lacks h es key = (h.entry? s es).isNone := by
  unfold Diff.lacks
  rw [find?_of_text hk]
  cases h.entry? s es <;> rfl

theorem link_entry {es : List (Value × Value)} (hes : h.entries? (h.view v) = some es) {s : String}
    {x : Value} (hx : h.entry? s es = some x) : h.Link v x := by
  obtain ⟨e, hm, rfl, _⟩ := entry?_mem hx
  exact .entry hes hm

/-- What is under a key is nothing, or a part that a comparison visits. -/
theorem entry_leads {es : List (Value × Value)} (hes : h.entries? (h.view v) = some es)
    (s : String) : (h.entry? s es).getD .nil = .nil ∨ h.Link v ((h.entry? s es).getD .nil) := by
  cases hx : h.entry? s es with
  | none => exact .inl rfl
  | some x => exact .inr (link_entry hes hx)

/-! ### Corresponding parts -/

/-- How two equal values correspond. -/
inductive Matched (h : Heap) (a b : Value) : Prop
  | leaf (hl : (h.view a).kind.isLeaf = true) (hm : h.matching a b = .ok true)
  | identical (he : a = b)
  | record (hk : (h.view a).kind = .record) (hf : (h.view a).fields = (h.view b).fields)
      (hp : ∀ name, h.deepEqual (h.fieldValue a name) (h.fieldValue b name) = .ok true)
  | mapping (hk : (h.view a).kind = .mapping) {as bs : List (Value × Value)} (ha : Entries h a as)
      (hb : Entries h b bs) (hl : as.length = bs.length)
      (hp : ∀ s, (h.entry? s as = none ∧ h.entry? s bs = none) ∨
        ∃ x y, h.entry? s as = some x ∧ h.entry? s bs = some y ∧ h.deepEqual x y = .ok true)
  | sequence (hk : (h.view a).kind = .sequence) {xs ys : List Value}
      (ha : (h.view a).items? = some xs) (hb : (h.view b).items? = some ys)
      (hp : List.Forall₂ (fun x y => h.deepEqual x y = .ok true) xs ys)

theorem deepEqual_nil : h.deepEqual .nil .nil = .ok true := by
  rw [deepEqual_leaf rfl rfl]
  rfl

/-- Where every key of one mapping is in another of the same length, so is every key of the
other in it. -/
theorem entry?_none_of_length {as bs : List (Value × Value)}
    (ha : ∀ e ∈ as, ∃ t, (h.view e.1).text? = some t)
    (hn : (as.filterMap fun e => (h.view e.1).text?).Nodup)
    (hb : ∀ e ∈ bs, ∃ t, (h.view e.1).text? = some t) (hl : as.length = bs.length)
    (hin : ∀ s, (h.entry? s as).isSome → (h.entry? s bs).isSome) {s : String}
    (hs : h.entry? s as = none) : h.entry? s bs = none := by
  have hlength : ∀ {es : List (Value × Value)}, (∀ e ∈ es, ∃ t, (h.view e.1).text? = some t) →
      (es.filterMap fun e => (h.view e.1).text?).length = es.length := by
    intro es hes
    induction es with
    | nil => rfl
    | cons e es ih =>
      obtain ⟨t, ht⟩ := hes e (List.mem_cons_self ..)
      rw [List.filterMap_cons, ht]
      exact congrArg (· + 1) (ih fun d hd => hes d (List.mem_cons_of_mem e hd))
  have hsub : (as.filterMap fun e => (h.view e.1).text?) ⊆
      bs.filterMap fun e => (h.view e.1).text? := by
    intro t ht
    obtain ⟨e, he, het⟩ := List.mem_filterMap.mp ht
    have hsome := hin t (by rw [entry?_of_mem hn he het]; rfl)
    obtain ⟨x, hx⟩ := Option.isSome_iff_exists.mp hsome
    obtain ⟨d, hd, _, hdt⟩ := entry?_mem hx
    exact List.mem_filterMap.mpr ⟨d, hd, hdt⟩
  have hperm := (hn.subperm hsub).perm_of_length_le (by rw [hlength ha, hlength hb, hl])
  by_contra hne
  obtain ⟨x, hx⟩ := Option.ne_none_iff_exists'.mp hne
  obtain ⟨d, hd, _, hds⟩ := entry?_mem hx
  obtain ⟨e, he, hes⟩ := List.mem_filterMap.mp
    (hperm.symm.subset (List.mem_filterMap.mpr ⟨d, hd, hds⟩))
  exact entry?_eq_none.mp hs e he hes

/-- Equal values are of one form, hence of one kind. -/
theorem forms_of_deepEqual (ha : h.Fit K a) (hb : h.Fit K b) (he : h.deepEqual a b = .ok true) :
    (h.view a).form = (h.view b).form ∧ (h.view b).kind = (h.view a).kind := by
  have hform := Object.form_eq ha.named.here hb.named.here (deepEqual_classes he)
  exact ⟨hform, by rw [← Object.kind_form, ← hform, Object.kind_form]⟩

theorem matched_records (hk : (h.view a).kind = .record) (hkb : (h.view b).kind = .record)
    (hform : (h.view a).form = (h.view b).form)
    (he : h.equalParts h.deepEqual (h.view a) (h.view b) = .ok true) : Matched h a b := by
  simp only [equalParts, hk] at he
  split at he
  · rename_i hnames
    refine .record hk (Object.fields_eq_of_names hform hnames) fun name => ?_
    have hboth : ((h.view a).attribute? name).isSome = ((h.view b).attribute? name).isSome := by
      rw [Bool.eq_iff_iff, Object.attribute?_isSome, Object.attribute?_isSome, hnames,
        Object.isRecord_iff, Object.isRecord_iff, hk, hkb]
    unfold Heap.fieldValue
    cases hx : (h.view a).attribute? name with
    | none =>
      have hy : (h.view b).attribute? name = none := by
        rw [← Option.not_isSome_iff_eq_none, ← hboth, hx]
        decide
      rw [hy]
      exact deepEqual_nil
    | some x =>
      rw [hx] at hboth
      obtain ⟨y, hy⟩ := Option.isSome_iff_exists.mp hboth.symm
      have hmem := (Object.attribute?_isSome.mp (by rw [hx]; rfl)).1
      have hxy := allHold_eq_true.mp he name hmem
      rw [hx, hy] at hxy
      rw [hy]
      exact hxy
  · cases he

theorem matched_mappings {as bs : List (Value × Value)} (has : Entries h a as)
    (hbs : Entries h b bs) (hk : (h.view a).kind = .mapping)
    (he : h.equalParts h.deepEqual (h.view a) (h.view b) = .ok true) : Matched h a b := by
  simp only [equalParts, hk, has.entries, hbs.entries, Option.getD_some] at he
  obtain ⟨keys, hkeys, he⟩ := bind_eq_ok.mp he
  cases keys with
  | false => cases he
  | true =>
    have hl : as.length = bs.length := by
      by_contra hne
      rw [sameKeys, if_pos hne] at hkeys
      cases hkeys
    have hparts : ∀ s x, h.entry? s as = some x →
        ∃ y, h.entry? s bs = some y ∧ h.deepEqual x y = .ok true := by
      intro s x hx
      obtain ⟨e, hm, rfl, hs⟩ := entry?_mem hx
      obtain ⟨found, hfound, hr⟩ := bind_eq_ok.mp (allHold_eq_true.mp he e hm)
      rw [find?_of_text hs] at hfound
      cases hfound
      cases hy : h.entry? s bs with
      | none =>
        rw [hy] at hr
        cases hr
      | some y =>
        rw [hy] at hr
        exact ⟨y, rfl, hr⟩
    refine .mapping hk has hbs hl fun s => ?_
    cases hx : h.entry? s as with
    | none =>
      refine .inl ⟨rfl, entry?_none_of_length has.texts has.nodup hbs.texts hl (fun t ht => ?_) hx⟩
      obtain ⟨x, hx⟩ := Option.isSome_iff_exists.mp ht
      obtain ⟨y, hy, _⟩ := hparts t x hx
      rw [hy]
      rfl
    | some x =>
      obtain ⟨y, hy, hr⟩ := hparts s x hx
      exact .inr ⟨x, y, rfl, hy, hr⟩

theorem matched_sequences {xs ys : List Value} (hxs : (h.view a).items? = some xs)
    (hys : (h.view b).items? = some ys) (hk : (h.view a).kind = .sequence)
    (he : h.equalParts h.deepEqual (h.view a) (h.view b) = .ok true) : Matched h a b := by
  simp only [equalParts, hk, hxs, hys, Option.getD_some] at he
  split at he
  · rename_i hlength
    refine .sequence hk hxs hys (List.forall₂_iff_zip.mpr ⟨hlength, fun {x y} hxy => ?_⟩)
    exact allHold_eq_true.mp he (x, y) hxy
  · cases he

/-- **Equal values correspond part by part.** -/
theorem matched_of_deepEqual (ha : h.Fit K a) (hb : h.Fit K b) (he : h.deepEqual a b = .ok true) :
    Matched h a b := by
  have hc := deepEqual_classes he
  obtain ⟨hform, hkind⟩ := forms_of_deepEqual ha hb he
  cases hl : (h.view a).kind.isLeaf with
  | true =>
    rw [deepEqual_leaf hc hl] at he
    exact .leaf hl he
  | false =>
    rw [deepEqual_object ha.acyclic hc hl] at he
    split at he
    · exact .identical (eq_of_isSame ‹_› (view_ne_nil_of_object hl))
    · cases hk : (h.view a).kind with
      | record => exact matched_records hk (hkind.trans hk) hform he
      | mapping =>
        obtain ⟨as, has⟩ := ha.entries hk
        obtain ⟨bs, hbs⟩ := hb.entries (hkind.trans hk)
        exact matched_mappings has hbs hk he
      | sequence =>
        obtain ⟨xs, hxs⟩ := Object.items?_of_sequence hk
        obtain ⟨ys, hys⟩ := Object.items?_of_sequence (hkind.trans hk)
        exact matched_sequences hxs hys hk he
      | _ =>
        rw [hk] at hl
        cases hl

/-! ### Zero values -/

theorem Entries.entryCount {es : List (Value × Value)} (he : Entries h v es) :
    h.entryCount (h.view v) = es.length := by
  have hi : (h.view v).items? = none := by
    rw [he.view]
    rfl
  unfold Heap.entryCount
  rw [hi, he.entries]
  rfl

theorem entryCount_items {xs : List Value} (hx : (h.view v).items? = some xs) :
    h.entryCount (h.view v) = xs.length := by
  unfold Heap.entryCount
  rw [hx]

/-- **Equal values are zero together.** -/
theorem isZero_of_deepEqual (ha : h.Fit K a) (hb : h.Fit K b) (he : h.deepEqual a b = .ok true) :
    h.isZero a = .ok true ↔ h.isZero b = .ok true := by
  refine ha.acyclic.induction (P := fun a => ∀ b, h.Fit K a → h.Fit K b → h.deepEqual a b = .ok true →
    (h.isZero a = .ok true ↔ h.isZero b = .ok true)) ?_ b ha hb he
  intro a _ ih b ha hb he
  obtain ⟨hform, hkind⟩ := forms_of_deepEqual ha hb he
  cases matched_of_deepEqual ha hb he with
  | leaf hl hm =>
    rw [isZero_leaf hl, isZero_leaf (hkind ▸ hl)]
    exact isZeroScalar_of_matching ha.plain.here hb.plain.here hform hl hm
  | identical he => rw [he]
  | record hk hf hp =>
    have hnil := Object.ne_nil_of_record hk
    rw [isZero_record ha.acyclic hk, isZero_record hb.acyclic (hkind.trans hk), allHold_eq_true,
      allHold_eq_true, hf]
    refine forall₂_congr fun f _ => ?_
    exact ih _ (ha.acyclic.fieldValue f.name) (ha.acyclic.rank_fieldValue hnil f.name) _
      (ha.fieldValue f.name) (hb.fieldValue f.name) (hp f.name)
  | mapping hk has hbs hl hp =>
    rw [isZero_counted (.inr hk), isZero_counted (.inr (hkind.trans hk)), Entries.entryCount has,
      Entries.entryCount hbs, hl]
  | sequence hk hxs hys hp =>
    rw [isZero_counted (.inl hk), isZero_counted (.inl (hkind.trans hk)), entryCount_items hxs,
      entryCount_items hys, hp.length_eq]

end Heap
end DocDelta
