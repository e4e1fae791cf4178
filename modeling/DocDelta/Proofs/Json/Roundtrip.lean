import DocDelta.Json.Patch
import DocDelta.Proofs.Json.Read
import DocDelta.Proofs.Json.Written
import DocDelta.Proofs.Patch.Rebuilt

/-! Writing a patch and reading it back.

What is written of a patch is the patch with the documents of its values. Reading gives texts,
numbers and containers without identity and class, hence the copies of those documents under the
same paths: a patch of its own, with the same operations, filters and metadata, that is written
as the same text. Of the notation this takes only that it gives back the one document that is
written. -/
namespace DocDelta

/-- A label without its class. -/
def Label.bare (l : Label) : Label := .plain l.text

@[simp] theorem Label.text_bare (l : Label) : l.bare.text = l.text := rfl

/-- A mark whose label is replaced. -/
def Mark.relabel (f : Label → Label) : Mark → Mark
  | .label l => .label (f l)
  | .other v => .other v

namespace Patch
open Heap
variable {h : Heap} {p : Patch}

/-- The values of a patch: those of its operations and its filters. -/
def values (p : Patch) : List Value := p.groups.flatMap (fun g => g.fields.map (·.2)) ++ p.filters

/-- The patch with its labels and values replaced. -/
def rewrite (label : Label → Label) (value : Value → Value) (p : Patch) : Patch where
  groups := p.groups.map fun g =>
    ⟨g.operator, (label g.label).cls, g.fields.map fun f => (label f.1, value f.2)⟩
  filters := p.filters.map value
  metadata :=
    { fieldsChanged := p.metadata.fieldsChanged.map (·.relabel label)
      operationTypes :=
        p.metadata.operationTypes.map fun e => (e.1.relabel label, e.2.relabel label)
      totalChanges := p.metadata.totalChanges }

theorem value_mem_values {g : Group} (hg : g ∈ p.groups) {f : Label × Value} (hf : f ∈ g.fields) :
    f.2 ∈ p.values :=
  List.mem_append_left _ (List.mem_flatMap.mpr ⟨g, hg, List.mem_map_of_mem hf⟩)

theorem filter_mem_values {f : Value} (hf : f ∈ p.filters) : f ∈ p.values :=
  List.mem_append_right _ hf

theorem operations_rewrite (label : Label → Label) (hl : ∀ l, (label l).text = l.text)
    (value : Value → Value) : (p.rewrite label value).operations =
      .map (p.groups.map fun g => ((label g.label).value,
        .map (g.fields.map fun f => ((label f.1).value, value f.2)))) := by
  rw [operations, rewrite, List.map_map]
  refine congrArg Value.map (List.map_congr_left fun g _ => ?_)
  have hlabel : (⟨g.operator.text, (label g.label).cls⟩ : Label) = label g.label := by
    have htext : g.operator.text = (label g.label).text := (hl g.label).symm
    rw [htext]
  refine Prod.ext (congrArg Label.value hlabel) (congrArg Value.map ?_)
  rw [List.map_map]
  rfl

theorem metadata_rewrite_id (value : Value → Value) :
    (p.rewrite id value).metadata = p.metadata := by
  have hid : ∀ m : Mark, m.relabel id = m := fun m => by cases m <;> rfl
  simp only [rewrite, hid, List.map_id']

/-! ### The document of a patch -/

section Documents
variable {doc : Value → Value} (hd : ∀ v ∈ p.values, h.document v = .ok (doc v))
include hd

theorem document_operations : p.document h = .ok (p.rewrite id doc).operations := by
  have hfields : ∀ g ∈ p.groups, h.document (.map (g.fields.map fun f => (f.1.value, f.2))) =
      .ok (.map (g.fields.map fun f => (f.1.value, doc f.2))) := by
    intro g hg
    refine document_map ?_
    rw [List.forall₂_map_left_iff, List.forall₂_map_right_iff, List.forall₂_same]
    exact fun f hf => ⟨rfl, hd f.2 (value_mem_values hg hf)⟩
  rw [operations_rewrite id fun _ => rfl]
  refine document_map ?_
  rw [List.forall₂_map_left_iff, List.forall₂_map_right_iff, List.forall₂_same]
  exact fun g hg => ⟨rfl, hfields g hg⟩

theorem document_filters :
    h.document (.list p.filters) = .ok (.list (p.rewrite id doc).filters) := by
  refine document_list ?_
  rw [rewrite, List.forall₂_map_right_iff, List.forall₂_same]
  exact fun f hf => hd f (filter_mem_values hf)

/-- What is written of a patch is the patch with the documents of its values. -/
theorem patchMap_eq : Json.patchMap h p = .ok (p.rewrite id doc).toMap := by
  have hfilters : (p.rewrite id doc).hasFilters = p.hasFilters := by
    simp [hasFilters, rewrite]
  rw [Json.patchMap, document_operations hd, document_filters hd, toMap, hfilters,
    metadata_rewrite_id]
  rfl

end Documents

/-! ### Its copy -/

theorem copies_label (l : Label) : Copies h l.value l.bare.value := .scalar (.text l.cls l.text)

/-- A map from labels and its copy. -/
theorem copies_labels {α : Type} {xs : List α} {l : α → Label} {v w : α → Value}
    (hd : (xs.map fun x => (l x).text).Nodup) (hx : ∀ x ∈ xs, Copies h (v x) (w x)) :
    Copies h (.map (xs.map fun x => ((l x).value, v x)))
      (.map (xs.map fun x => ((l x).bare.value, w x))) := by
  have htable : Value.map (xs.map fun x => ((l x).bare.value, w x)) =
      .table (xs.map fun x => ((l x).text, w x)) := by
    rw [Value.table, List.map_map]
    rfl
  rw [htable]
  refine copies_map ?_ (by rwa [List.map_map])
  rw [List.forall₂_map_left_iff, List.forall₂_map_right_iff, List.forall₂_same]
  exact fun x hm => ⟨rfl, hx x hm⟩

theorem copies_table {es ds : List (String × Value)}
    (hp : List.Forall₂ (fun e d => e.1 = d.1 ∧ Copies h e.2 d.2) es ds)
    (hd : (ds.map (·.1)).Nodup) : Copies h (.table es) (.table ds) := by
  refine copies_map ?_ hd
  rw [List.forall₂_map_left_iff]
  exact hp.imp fun e d he => ⟨congrArg some he.1, he.2⟩

section Copy
variable {doc copy : Value → Value}

theorem copies_operations (ht : Tidy p.groups) (hc : ∀ v ∈ p.values, Copies h (doc v) (copy v)) :
    Copies h (p.rewrite id doc).operations (p.rewrite .bare copy).operations := by
  have hfields : ∀ g ∈ p.groups, Copies h (.map (g.fields.map fun f => (f.1.value, doc f.2)))
      (.map (g.fields.map fun f => (f.1.bare.value, copy f.2))) := fun g hg =>
    copies_labels (ht.paths g hg) fun f hf => hc f.2 (value_mem_values hg hf)
  rw [operations_rewrite id fun _ => rfl, operations_rewrite .bare Label.text_bare]
  exact copies_labels ht.labels hfields

theorem copies_filters (hc : ∀ v ∈ p.values, Copies h (doc v) (copy v)) :
    Copies h (.list (p.rewrite id doc).filters) (.list (p.rewrite .bare copy).filters) := by
  refine copies_list ?_
  rw [rewrite, rewrite, List.forall₂_map_left_iff, List.forall₂_map_right_iff, List.forall₂_same]
  exact fun f hf => hc f (filter_mem_values hf)

theorem metadata_bare {ls : List Label} {ts : List (Label × Label)} {n : Int}
    (hm : p.metadata = ⟨ls.map .label, ts.map fun t => (.label t.1, .label t.2), .counted n⟩) :
    (p.rewrite .bare copy).metadata =
      ⟨(ls.map Label.bare).map .label, ts.map fun t => (.label t.1.bare, .label t.2.bare),
        .counted n⟩ := by
  simp only [rewrite, hm, List.map_map, Function.comp_def, Mark.relabel]

theorem copies_metadata (hp : Formed h p) :
    Copies h p.metadata.toMap (p.rewrite .bare copy).metadata.toMap := by
  obtain ⟨ls, ts, n, hd, hm⟩ := hp.metadata
  have hfields : Copies h (.list ((ls.map Mark.label).map (·.value)))
      (.list (((ls.map Label.bare).map Mark.label).map (·.value))) := by
    refine copies_list ?_
    rw [List.map_map, List.map_map, List.map_map, List.forall₂_map_left_iff,
      List.forall₂_map_right_iff, List.forall₂_same]
    exact fun l _ => copies_label l
  have htypes : Copies h
      (.map ((ts.map fun t => (Mark.label t.1, Mark.label t.2)).map
        fun e => (e.1.value, e.2.value)))
      (.map ((ts.map fun t => (Mark.label t.1.bare, Mark.label t.2.bare)).map
        fun e => (e.1.value, e.2.value))) := by
    rw [List.map_map, List.map_map]
    exact copies_labels hd fun t _ => copies_label t.2
  have hkeys : ["fieldsChanged", "operationTypes", "totalChanges"].Nodup := by decide
  rw [metadata_bare hm, hm]
  refine copies_table ?_ hkeys
  exact .cons ⟨rfl, hfields⟩ (.cons ⟨rfl, htypes⟩ (.cons ⟨rfl, .scalar (.int none n)⟩ .nil))

/-- The map of a patch with the documents of its values has the map of a patch as its copy. -/
theorem copies_toMap (hp : Formed h p) (hc : ∀ v ∈ p.values, Copies h (doc v) (copy v)) :
    Copies h (p.rewrite id doc).toMap (p.rewrite .bare copy).toMap := by
  have hmetadata : Copies h p.metadata.toMap (p.rewrite .bare copy).metadata.toMap :=
    copies_metadata hp
  rw [← metadata_rewrite_id (p := p) doc] at hmetadata
  have hid : (p.rewrite id doc).hasFilters = p.hasFilters := by simp [hasFilters, rewrite]
  have hbare : (p.rewrite .bare copy).hasFilters = p.hasFilters := by simp [hasFilters, rewrite]
  rw [toMap, toMap, hid, hbare]
  have hoperations := copies_operations hp.tidy hc
  have hfilters := copies_filters hc
  split
  · have hkeys : ["operations", "arrayFilters", "metadata"].Nodup := by decide
    refine copies_table ?_ hkeys
    exact .cons ⟨rfl, hoperations⟩ (.cons ⟨rfl, hfilters⟩ (.cons ⟨rfl, hmetadata⟩ .nil))
  · have hkeys : ["operations", "metadata"].Nodup := by decide
    refine copies_table ?_ hkeys
    exact .cons ⟨rfl, hoperations⟩ (.cons ⟨rfl, hmetadata⟩ .nil)

theorem paths_rewrite (label : Label → Label) (hl : ∀ l, (label l).text = l.text)
    (value : Value → Value) : (p.rewrite label value).paths = p.paths := by
  rw [paths_eq, paths_eq, rewrite, List.flatMap_map]
  refine List.flatMap_congr fun g _ => ?_
  simp only [Group.paths, List.map_map, Function.comp_def, hl]

theorem formed_bare (hp : Formed h p)
    (hf : ∀ f ∈ p.filters, (h.mapEntries? (copy f)).isSome) : Formed h (p.rewrite .bare copy) where
  tidy := by
    refine ⟨?_, fun g hg => ?_, fun g hg => ?_⟩
    · have hoperators := hp.tidy.operators
      simpa only [rewrite, List.map_map, Function.comp_def] using hoperators
    · obtain ⟨k, hk, rfl⟩ := List.mem_map.mp hg
      exact fun hnil => hp.tidy.filled k hk (List.map_eq_nil_iff.mp hnil)
    · obtain ⟨k, hk, rfl⟩ := List.mem_map.mp hg
      have hpaths := hp.tidy.paths k hk
      simpa only [List.map_map, Function.comp_def, Label.text_bare] using hpaths
  paths := by
    rw [paths_rewrite .bare Label.text_bare]
    exact hp.paths
  filters := by
    intro f hm
    obtain ⟨g, hg, rfl⟩ := List.mem_map.mp hm
    exact hf g hg
  metadata := by
    obtain ⟨ls, ts, n, hd, hm⟩ := hp.metadata
    refine ⟨ls.map .bare, ts.map fun t => (t.1.bare, t.2.bare), n, ?_, ?_⟩
    · simpa only [List.map_map, Function.comp_def, Label.text_bare] using hd
    · rw [metadata_bare hm, List.map_map, List.map_map]
      rfl

theorem values_rewrite (label : Label → Label) (value : Value → Value) :
    (p.rewrite label value).values = p.values.map value := by
  simp only [values, rewrite, List.flatMap_map, List.map_append, List.map_flatMap, List.map_map,
    Function.comp_def]

theorem rewrite_id (p : Patch) : p.rewrite id id = p := by
  have hgroup : ∀ g : Group, (⟨g.operator, (id g.label).cls,
      g.fields.map fun f => (id f.1, id f.2)⟩ : Group) = g := fun g => by
    simp only [id, Prod.mk.eta, List.map_id']
    rfl
  have hgroups : (p.rewrite id id).groups = p.groups := by
    simp only [rewrite, hgroup, List.map_id']
  have hfilters : (p.rewrite id id).filters = p.filters := List.map_id _
  show Patch.mk (p.rewrite id id).groups (p.rewrite id id).filters (p.rewrite id id).metadata = p
  rw [hgroups, hfilters, metadata_rewrite_id]

end Copy

end Patch

namespace Json
open Heap Patch
variable {h : Heap}

/-- A value is given back by writing and reading it. -/
def Survives (h : Heap) (style : Style) (v : Value) : Prop :=
  ∃ s, write h style (scalarFallback h) v = .ok s ∧ read .whole s = .ok v

theorem mapEntries?_copy {f w d : Value} (hf : (h.mapEntries? f).isSome)
    (hw : h.document f = .ok w) (hc : Copies h w d) : (h.mapEntries? d).isSome := by
  have hmap : ∃ c es, h.view f = .map c es := by
    unfold mapEntries? at hf
    split at hf
    · exact ⟨_, _, ‹_›⟩
    · cases hf
  obtain ⟨c, es, hv⟩ := hmap
  rw [Heap.document, layerBound, documentWithin] at hw
  simp only [hv, Object.kind] at hw
  obtain ⟨ds, _, hw⟩ := bind_eq_ok.mp hw
  cases hw
  cases hc with
  | scalar hz => cases hz
  | map hl hk hd hp => rfl

/-- **A patch comes back from its text**, in any style that keeps the order of maps. For every
patch that a run of calls with filters that are maps made, whose values and filters have documents
made of plain scalars, lists and maps from texts: if the notation gives back the document that is
written, up to the identities and classes of its scalars, then the patch is written, and reading
gives a patch whose operations and filters are those documents, in the same order, with equal
metadata, and which is written as the same text. -/
theorem readPatch_writePatch (h : Heap) (style : Style) (hs : style.sortsKeys = false)
    (calls : List Patch.Call) (hf : ∀ f, .filter f ∈ calls → (h.mapEntries? f).isSome)
    (hv : ∀ v ∈ (Patch.run h .empty calls).values, ∃ w d, h.document v = .ok w ∧ Copies h w d)
    (hjson : ∀ v d, patchMap h (Patch.run h .empty calls) = .ok v → Copies h v d →
      Survives h style d) :
    ∃ s q operations filters,
      writePatch h style (Patch.run h .empty calls) = .ok s ∧ readPatch h s = .ok q ∧
      (Patch.run h .empty calls).document h = .ok operations ∧
        Copies h operations q.operations ∧ h.same q.operations operations = .ok true ∧
      h.document (.list (Patch.run h .empty calls).filters) = .ok filters ∧
        Copies h filters (.list q.filters) ∧ h.same (.list q.filters) filters = .ok true ∧
      h.same q.metadata.toMap (Patch.run h .empty calls).metadata.toMap = .ok true ∧
      writePatch h style q = .ok s := by
  have hp := formed_recorded hf
  have hmaps : ∀ f ∈ (Patch.run h .empty calls).filters, (h.mapEntries? f).isSome := hp.filters
  generalize Patch.run h .empty calls = p at hp hmaps hv hjson ⊢
  choose! doc copy hdoc hcopy using hv
  have hq : Formed h (p.rewrite .bare copy) := formed_bare hp fun f hm =>
    mapEntries?_copy (hmaps f hm) (hdoc f (filter_mem_values hm)) (hcopy f (filter_mem_values hm))
  have hcopies := copies_toMap hp hcopy
  obtain ⟨s, hwrite, hread⟩ := hjson _ _ (patchMap_eq hdoc) hcopies
  -- The copy of the patch is written as it stands, its values being their own documents.
  have hown : patchMap h (p.rewrite .bare copy) = .ok (p.rewrite .bare copy).toMap := by
    have hself : patchMap h (p.rewrite .bare copy) =
        .ok ((p.rewrite .bare copy).rewrite id id).toMap := patchMap_eq fun v hm => by
      rw [values_rewrite] at hm
      obtain ⟨u, hu, rfl⟩ := List.mem_map.mp hm
      exact (hcopy u hu).document
    rwa [rewrite_id] at hself
  have hoperations := copies_operations hp.tidy hcopy
  have hfilters := copies_filters (p := p) hcopy
  refine ⟨s, p.rewrite .bare copy, _, _, ?_, ?_, document_operations hdoc, hoperations,
    hoperations.matching, document_filters hdoc, hfilters, hfilters.matching,
    (copies_metadata hp).matching, ?_⟩
  · rw [writePatch, patchMap_eq hdoc]
    exact (write_copies hcopies hs).trans hwrite
  · rw [readPatch, hread]
    exact ofMap_toMap hq
  · rw [writePatch, hown]
    exact hwrite

/-- A text, a number, a tuple of both, a member that stands for the number, a record of these, and
a map. -/
def notes : Heap :=
  ⟨#[.text none "tea", .int none 3, .tuple none [1, 2], .member ⟨"Size", false⟩ "LARGE" 2,
    .record ⟨"Note", .freeform⟩ [("a", 3), ("b", 4)], .map none [(1, 3)]]⟩

/-- The record is set under a path of a derived class, and the map is a filter. -/
def noteCalls : List Patch.Call := [.set ⟨"n", some ⟨"Path", false⟩⟩ (.ref 5), .filter (.ref 6)]

/-- What is written of the patch, as it is read. -/
def noteMap : Value :=
  .table [
    ("operations", .table [("$set", .table [("n", .table [
      ("a", .list [.text "tea", .int 3]), ("b", .int 3)])])]),
    ("arrayFilters", .list [.table [("tea", .list [.text "tea", .int 3])]]),
    ("metadata", .table [("fieldsChanged", .list [.text "n"]),
      ("operationTypes", .table [("n", .text "$set")]), ("totalChanges", .int 1)])]

def noteText : String :=
  "\x7b\"operations\": \x7b\"$set\": \x7b\"n\": \x7b\"a\": [\"tea\", 3], \"b\": 3\x7d\x7d\x7d, " ++
  "\"arrayFilters\": [\x7b\"tea\": [\"tea\", 3]\x7d], " ++
  "\"metadata\": \x7b\"fieldsChanged\": [\"n\"], " ++
  "\"operationTypes\": \x7b\"n\": \"$set\"\x7d, \"totalChanges\": 1\x7d\x7d"

theorem survives_noteMap : write notes .plain (scalarFallback notes) noteMap = .ok noteText ∧
    read .whole noteText = .ok noteMap := by
  have hwrite : (write notes .plain (scalarFallback notes) noteMap).toOption = some noteText := by
    decide +kernel
  refine ⟨ok_of_toOption hwrite, read_of_isCopy (h := notes) ?_ ?_⟩ <;> decide +kernel

theorem filters_noteCalls {f : Value} (hf : .filter f ∈ noteCalls) :
    (notes.mapEntries? f).isSome := by
  simp only [noteCalls, List.mem_cons, reduceCtorEq, Patch.Call.filter.injEq, List.not_mem_nil,
    or_false, false_or] at hf
  rw [hf]
  rfl

theorem values_noteCalls : ∀ v ∈ (Patch.run notes .empty noteCalls).values,
    ∃ w d, notes.document v = .ok w ∧ Copies notes w d := by
  have hdocument : ∀ {v d : Value},
      ((notes.document v).toOption.any fun w => isCopy notes w d) = true →
        ∃ w d, notes.document v = .ok w ∧ Copies notes w d := by
    intro v d hd
    obtain ⟨w, hw, hcopy⟩ := ok_of_any hd
    exact ⟨w, d, hw, copies_of_isCopy hcopy⟩
  refine List.forall_mem_cons.mpr ⟨?_, List.forall_mem_singleton.mpr ?_⟩
  · exact hdocument (d := .table [("a", .list [.text "tea", .int 3]), ("b", .int 3)])
      (by decide +kernel)
  · exact hdocument (d := .table [("tea", .list [.text "tea", .int 3])]) (by decide +kernel)

theorem patchMap_noteCalls :
    ∃ v, patchMap notes (Patch.run notes .empty noteCalls) = .ok v ∧ Copies notes v noteMap := by
  have hmap : ((patchMap notes (Patch.run notes .empty noteCalls)).toOption.any
      fun v => isCopy notes v noteMap) = true := by
    decide +kernel
  obtain ⟨v, hv, hcopy⟩ := ok_of_any hmap
  exact ⟨v, hv, copies_of_isCopy hcopy⟩

theorem readPatch_writePatch_notes :
    Style.plain.sortsKeys = false ∧
    (∀ f, .filter f ∈ noteCalls → (notes.mapEntries? f).isSome) ∧
    (∀ v ∈ (Patch.run notes .empty noteCalls).values,
      ∃ w d, notes.document v = .ok w ∧ Copies notes w d) ∧
    (∀ v d, patchMap notes (Patch.run notes .empty noteCalls) = .ok v → Copies notes v d →
      Survives notes .plain d) ∧
    ∃ q, writePatch notes .plain (Patch.run notes .empty noteCalls) = .ok noteText ∧
      readPatch notes noteText = .ok q ∧ writePatch notes .plain q = .ok noteText := by
  obtain ⟨v, hv, hmap⟩ := patchMap_noteCalls
  have hjson : ∀ w d, patchMap notes (Patch.run notes .empty noteCalls) = .ok w →
      Copies notes w d → Survives notes .plain d := by
    intro w d hw hd
    cases hv.symm.trans hw
    rw [hd.unique hmap]
    exact ⟨noteText, survives_noteMap⟩
  obtain ⟨s, q, _, _, hwrite, hread, _, _, _, _, _, _, _, hagain⟩ :=
    readPatch_writePatch notes .plain rfl noteCalls (fun _ => filters_noteCalls) values_noteCalls
      hjson
  have hs : s = noteText := by
    have htext := (write_copies hmap rfl).trans survives_noteMap.1
    rw [writePatch, hv] at hwrite
    exact Except.ok.inj (hwrite.symm.trans htext)
  subst hs
  exact ⟨rfl, fun _ => filters_noteCalls, values_noteCalls, hjson, q, hwrite, hread, hagain⟩

end Json
end DocDelta
