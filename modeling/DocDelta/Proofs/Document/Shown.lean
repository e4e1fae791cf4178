import DocDelta.Proofs.Diff.Fields
import DocDelta.Proofs.Document.Edits

/-! How a value shows in a document.

At the place of a value there is its document, or nothing where the value is zero: a record leaves
out fields that omit empty values, and has no entry for an attribute that it lacks. So far the
two are the same. `Shows` says so, and passes from a record to its fields, from a mapping to its
entries and from a sequence to its items. -/
namespace DocDelta.Document
open Relation Heap
variable {h : Heap} {K : ClassTable} {c e : Option Value} {v w : Value}

/-- What is at a place shows a value: its document, or nothing where the value is zero. -/
inductive Shows (h : Heap) : Option Value → Value → Prop
  | written {v d : Value} (hd : h.document v = .ok d) : Shows h (some d) v
  | omitted {v : Value} (hz : h.isZero v = .ok true) : Shows h none v

theorem shows_nothing : Shows h none .nil := .omitted isZero_nil

theorem Shows.exists_document (hs : Shows h c v) (hv : h.Fit K v) :
    ∃ d, h.document v = .ok d := by
  cases hs with
  | written hd => exact ⟨_, hd⟩
  | omitted hz => exact (zero_document hv hz).imp fun d hd => hd.1

/-- A zero value shows as a blank. -/
theorem Shows.blank (hs : Shows h c v) (hv : h.Fit K v) (hz : h.isZero v = .ok true) :
    Blank h c := by
  cases hs with
  | omitted _ => exact .absent
  | written hd =>
    obtain ⟨d, hd', hb⟩ := zero_document hv hz
    rw [hd] at hd'
    cases hd'
    exact hb

/-- Where nothing shows there is nothing, and room for entries. -/
theorem Shows.nothing (hs : Shows h c v) (hn : h.view v = .nil) :
    Blank h c ∧ entriesAt h c = some [] := by
  cases hs with
  | omitted _ => exact ⟨.absent, rfl⟩
  | written hd =>
    have hl : (h.view v).kind.isLeaf = true := by
      rw [hn]
      rfl
    rw [document_leaf hl fun c n w hm => by rw [hn] at hm; cases hm] at hd
    cases hd
    exact ⟨blank_nil hn, entriesAt_nil hn⟩

/-- The document of a value agrees with what shows it. -/
theorem Shows.agree (hs : Shows h e v) (hv : h.Fit K v) {d : Value} (hd : h.document v = .ok d) :
    Agree h (some d) e := by
  cases hs with
  | omitted hz => exact .blank ((Shows.written hd).blank hv hz) .absent
  | written hd' =>
    rw [hd] at hd'
    cases hd'
    exact .same (.self d)

/-- **What shows equal values agrees.** -/
theorem agree_of_deepEqual (hc : Shows h c v) (he : Shows h e w) (hv : h.Fit K v) (hw : h.Fit K w)
    (hco : h.Coherent v w) (heq : h.deepEqual v w = .ok true) : Agree h c e := by
  have hzero := isZero_of_deepEqual hv hw heq
  cases hc with
  | omitted hz => exact .blank .absent (he.blank hw (hzero.mp hz))
  | written hd =>
    cases he with
    | omitted hz => exact .blank ((Shows.written hd).blank hv (hzero.mpr hz)) .absent
    | written hde => exact .same (same_of_deepEqual hv hw hco heq hd hde)

/-! ### Fields -/

/-- **A record shows by its fields**, under their external names. -/
theorem Shows.record (hs : Shows h c v) (hv : h.Fit K v) (hk : (h.view v).kind = .record)
    {fs : List Field} (hfs : Spans h v fs) (hn : (fs.map (·.external)).Nodup) :
    ∃ es, entriesAt h c = some es ∧
      (∀ f ∈ fs, Shows h ( h.entry? f.external es) (h.fieldValue v f.name)) ∧
      ∀ s ∉ fs.map (·.external), h.entry? s es = none := by
  have hlacking : ∀ f : Field, (h.view v).attribute? f.name = none →
      h.fieldValue v f.name = .nil := fun f hf => by
    rw [fieldValue, hf]
    rfl
  cases hs with
  | omitted hz =>
    rw [isZero_record hv.acyclic hk, allHold_eq_true] at hz
    refine ⟨[], rfl, fun f hf => ?_, fun _ _ => rfl⟩
    rcases hfs.lacking f hf with hown | hnone
    · exact .omitted (hz f hown)
    · rw [hlacking f hnone]
      exact shows_nothing
  | written hd =>
    obtain ⟨es, rfl, hother, hfields⟩ := record_entries hv.acyclic hk (hv.fields_nodup hk) hd
    refine ⟨es, rfl, fun f hf => ?_, fun s hs => hother s fun hm => hs ?_⟩
    · by_cases hown : f ∈ (h.view v).fields
      · rcases hfields f hown with ⟨homitted, he⟩ | ⟨_, x, hx, he⟩
        · rw [he]
          exact .omitted homitted.2
        · rw [he]
          exact .written hx
      · have hnone := (hfs.lacking f hf).resolve_left hown
        -- No field of its own has this name: it would be among the others, which are distinct.
        have hfree : f.external ∉ (h.view v).fields.map (·.external) := fun hm => by
          obtain ⟨g, hg, he⟩ := List.mem_map.mp hm
          exact hown (List.inj_on_of_nodup_map hn (hfs.own g hg) hf he ▸ hg)
        rw [hother _ hfree, hlacking f hnone]
        exact shows_nothing
    · obtain ⟨f, hf, rfl⟩ := List.mem_map.mp hm
      exact List.mem_map_of_mem (hfs.own f hf)

/-! ### Entries and items -/

/-- **A mapping shows by its entries**, under their keys. -/
theorem Shows.mapping (hs : Shows h c v) (hv : h.Fit K v) (hk : (h.view v).kind = .mapping)
    {es : List (Value × Value)} (he : Entries h v es) :
    ∃ ds, entriesAt h c = some ds ∧
      (∀ s x, h.entry? s es = some x → Shows h ( h.entry? s ds) x) ∧
      ∀ s, h.entry? s es = none → h.entry? s ds = none := by
  cases hs with
  | omitted hz =>
    rw [isZero_counted (.inr hk), he.entryCount] at hz
    obtain rfl : es = [] := List.eq_nil_of_length_eq_zero (eq_of_beq (Except.ok.inj hz))
    exact ⟨[], rfl, nofun, fun _ _ => rfl⟩
  | written hd =>
    obtain ⟨ds, rfl, hds⟩ := mapping_entries hv.acyclic hk he.entries hd
    refine ⟨ds, rfl, fun s x hx => ?_, fun s hs => no_document_at hds hs⟩
    obtain ⟨d, hsd, hd⟩ := document_at hds hx
    rw [hsd]
    exact .written hd

/-- What is at the place of a sequence: the list of the documents of its items, or nothing where
there are none. -/
inductive IsListed : Option Value → List Value → Prop
  | written {ds : List Value} : IsListed (some (.list ds)) ds
  | omitted : IsListed none []

theorem agree_of_listed {ds es : List Value} (hc : IsListed c ds) (he : IsListed e es)
    (hs : List.Forall₂ (Same h) ds es) : Agree h c e := by
  cases hc with
  | omitted =>
    cases hs
    cases he with
    | omitted => exact .blank .absent .absent
    | written => exact .blank .absent (.list rfl)
  | written =>
    cases he with
    | omitted =>
      cases hs
      exact .blank (.list rfl) .absent
    | written => exact .same (.list rfl rfl hs)

/-- **A sequence shows by its items.** -/
theorem Shows.sequence (hs : Shows h c v) (hv : h.Fit K v) (hk : (h.view v).kind = .sequence)
    {xs : List Value} (hx : (h.view v).items? = some xs) :
    ∃ ds, itemsAt h c = some ds ∧ List.Forall₂ (fun x d => h.document x = .ok d) xs ds ∧
      IsListed c ds := by
  cases hs with
  | omitted hz =>
    rw [isZero_counted (.inl hk), entryCount_items hx] at hz
    obtain rfl : xs = [] := List.eq_nil_of_length_eq_zero (eq_of_beq (Except.ok.inj hz))
    exact ⟨[], rfl, .nil, .omitted⟩
  | written hd =>
    obtain ⟨ds, rfl, hds⟩ := sequence_items hv.acyclic hk hx hd
    exact ⟨ds, rfl, hds, .written⟩

end DocDelta.Document
