import DocDelta.Proofs.Patch.Entries

/-! A patch that accumulated records passes the check.

The check goes through the groups and remembers the paths it met. A path lies under the operator
of its last record only, so none is met twice; the rest of the shape holds of every patch, as
long as its filters are maps. -/
namespace DocDelta.Patch
variable {h : Heap}

/-! ### Groups -/

/-- The paths of a group. -/
def Group.paths (g : Group) : List String := g.fields.map (·.1.text)

theorem paths_eq (p : Patch) : p.paths = p.groups.flatMap Group.paths := by
  simp only [Patch.paths, entries, List.map_flatMap, List.map_map]
  rfl

theorem operatorOf?_label (g : Group) : operatorOf? h g.label.value = some g.operator := by
  show Operator.ofText? g.operator.text = _
  cases g.operator <;> rfl

theorem checkPaths_cons (operator : Value) (f : Label × Value) (seen : List (String × Value))
    (fields : List (Value × Value)) :
    checkPaths h operator seen ((f.1.value, f.2) :: fields) =
      match seen.find? fun e => e.1 == f.1.text with
      | some (_, first) => .error (.badPatch (.pathTwice f.1.value first operator))
      | none => checkPaths h operator (seen ++ [(f.1.text, operator)]) fields := rfl

theorem checkPaths_ok (operator : Value) {fields : List (Label × Value)}
    {seen : List (String × Value)}
    (hd : (seen.map (·.1) ++ fields.map (·.1.text)).Nodup) :
    checkPaths h operator seen (fields.map fun f => (f.1.value, f.2)) =
      .ok (seen ++ fields.map fun f => (f.1.text, operator)) := by
  induction fields generalizing seen with
  | nil => simp [checkPaths]
  | cons f fields ih =>
    have hfresh : f.1.text ∉ seen.map (·.1) := fun hm =>
      (List.nodup_append.mp hd).2.2 _ hm _ (List.mem_cons_self ..) rfl
    have hnone : seen.find? (fun e => e.1 == f.1.text) = none := by
      refine List.find?_eq_none.mpr fun e he ht => hfresh ?_
      exact beq_iff_eq.mp ht ▸ List.mem_map_of_mem he
    have hd' : ((seen ++ [(f.1.text, operator)]).map (·.1) ++ fields.map (·.1.text)).Nodup := by
      simpa using hd
    rw [List.map_cons, checkPaths_cons, hnone]
    exact (ih hd').trans (by simp)

theorem checkGroups_ok {groups : List Group} {seen : List (String × Value)}
    (hf : ∀ g ∈ groups, g.fields ≠ [])
    (hd : (seen.map (·.1) ++ groups.flatMap Group.paths).Nodup) :
    checkGroups h seen (groups.map fun g =>
      (g.label.value, .map (g.fields.map fun f => (f.1.value, f.2)))) = .ok () := by
  induction groups generalizing seen with
  | nil => rfl
  | cons g groups ih =>
    rw [List.flatMap_cons, ← List.append_assoc] at hd
    have hpaths := checkPaths_ok (h := h) g.label.value (List.nodup_append.mp hd).1
    have hseen : ((seen ++ g.fields.map fun f => (f.1.text, g.label.value)).map (·.1) ++
        groups.flatMap Group.paths).Nodup := by
      simpa [Group.paths, Function.comp_def] using hd
    have hrest := ih (fun k hk => hf k (List.mem_cons_of_mem g hk)) hseen
    rw [List.map_cons, checkGroups, operatorOf?_label]
    have hentries : h.mapEntries? (.map (g.fields.map fun f => (f.1.value, f.2))) =
      some (g.fields.map fun f => (f.1.value, f.2)) := rfl
    rw [hentries]
    cases hg : g.fields with
    | nil => exact absurd hg (hf g (List.mem_cons_self ..))
    | cons f fields =>
      rw [hg] at hpaths hrest
      simp only [List.map_cons] at hpaths hrest ⊢
      show (checkPaths h g.label.value seen _ >>= fun seen => checkGroups h seen _) = _
      rw [hpaths]
      exact hrest

/-! ### The patch -/

/-- The filters of a patch as an entry of its map, left out when there are none. -/
def filtersEntry? (p : Patch) : Option Value :=
  if p.hasFilters then some (.list p.filters) else none

theorem checkFilters_ok {p : Patch} (hf : ∀ f ∈ p.filters, (h.mapEntries? f).isSome) :
    checkFilters h (p.filtersEntry?.getD .nil) = true := by
  unfold filtersEntry?
  split
  · refine Bool.or_eq_true_iff.mpr (.inr ?_)
    exact List.all_eq_true.mpr hf
  · rfl

theorem entries_toMap (p : Patch) : ∃ es, h.mapEntries? p.toMap = some es ∧
    h.entry? "operations" es = some p.operations ∧
    h.entry? "metadata" es = some p.metadata.toMap ∧
    h.entry? "arrayFilters" es = p.filtersEntry? := by
  refine ⟨_, rfl, ?_, ?_, ?_⟩
  · split <;> rfl
  · split <;> rfl
  · unfold filtersEntry?
    split <;> rfl

theorem entries_metadata (m : Metadata) : ∃ ms, h.mapEntries? m.toMap = some ms ∧
    h.entry? "totalChanges" ms = some m.totalChanges.value ∧
    h.entry? "fieldsChanged" ms = some (.list (m.fieldsChanged.map (·.value))) ∧
    h.entry? "operationTypes" ms =
      some (.map (m.operationTypes.map fun e => (e.1.value, e.2.value))) :=
  ⟨_, rfl, rfl, rfl, rfl⟩

/-- A patch as recording leaves it: each operator has one group and the group holds something, no
path is held twice, every filter is a map, the metadata consists of texts with one type for a
path, and the changes were counted. -/
structure Formed (h : Heap) (p : Patch) : Prop where
  tidy : Tidy p.groups
  paths : p.paths.Nodup
  filters : ∀ f ∈ p.filters, (h.mapEntries? f).isSome
  metadata : ∃ (ls : List Label) (ts : List (Label × Label)) (n : Int), (ts.map (·.1.text)).Nodup ∧
    p.metadata = ⟨ls.map .label, ts.map fun t => (.label t.1, .label t.2), .counted n⟩

/-- A patch as loading leaves it: so far as `Formed`, but the metadata may be anything that reads
back as it is. -/
structure Loadable (h : Heap) (p : Patch) : Prop where
  tidy : Tidy p.groups
  paths : p.paths.Nodup
  filters : ∀ f ∈ p.filters, (h.mapEntries? f).isSome
  total : (h.whole? p.metadata.totalChanges.value).isSome
  metadata : metadataOf h (p.metadata.fieldsChanged.map (·.value))
    (p.metadata.operationTypes.map fun e => (e.1.value, e.2.value)) p.metadata.totalChanges.value =
      p.metadata

theorem Formed.loadable {p : Patch} (hp : Formed h p) : Loadable h p := by
  obtain ⟨ls, ts, n, _, hm⟩ := hp.metadata
  have hmark : ∀ l : Label, markOf h (Mark.label l).value = .label l := fun _ => rfl
  have htotal : totalOf h (Total.counted n).value = .counted n := rfl
  refine ⟨hp.tidy, hp.paths, hp.filters, by rw [hm]; rfl, ?_⟩
  rw [hm, metadataOf, htotal]
  simp only [List.map_map, Function.comp_def, hmark]

theorem nodup_distinctPaths (rs : List Record) : ((distinctPaths rs).map (·.text)).Nodup := by
  induction rs with
  | nil => exact .nil
  | cons r rs ih =>
    rw [distinctPaths, List.map_cons, List.nodup_cons]
    refine ⟨fun hm => ?_, ih.sublist (List.filter_sublist.map _)⟩
    obtain ⟨l, hl, htext⟩ := List.mem_map.mp hm
    simpa [htext] using (List.mem_filter.mp hl).2

theorem formed_of_accumulates {rs : List Record} {p : Patch} (ha : Accumulates rs p)
    (hf : ∀ f ∈ p.filters, (h.mapEntries? f).isSome) : Formed h p where
  tidy := ha.tidy
  paths := paths_nodup ha
  filters := hf
  metadata := by
    refine ⟨distinctPaths rs, (distinctPaths rs).map fun l =>
      (l, .plain (((lastOn l.text rs).map (·.operator.text)).getD "")), rs.length, ?_, ?_⟩
    · simpa [Function.comp_def] using nodup_distinctPaths rs
    · rw [List.map_map, ← ha.fields, ← ha.total]
      exact congrArg (Metadata.mk _ · _) ha.types

theorem mapEntries?_operations (p : Patch) : h.mapEntries? p.operations =
    some (p.groups.map fun g => (g.label.value, .map (g.fields.map fun f => (f.1.value, f.2)))) :=
  rfl

theorem check_loadable {p : Patch} (hp : Loadable h p) : check h p.toMap = .ok () := by
  have hgroups : checkGroups h [] (p.groups.map fun g =>
      (g.label.value, .map (g.fields.map fun f => (f.1.value, f.2)))) = .ok () := by
    refine checkGroups_ok hp.tidy.filled ?_
    rw [List.map_nil, List.nil_append, ← paths_eq]
    exact hp.paths
  have hlist : ∀ xs, (h.listItems? (.list xs)).isSome = true := fun _ => rfl
  have hmap : ∀ xs, (h.mapEntries? (.map xs)).isSome = true := fun _ => rfl
  obtain ⟨es, hes, hops, hmeta, hfilters⟩ := entries_toMap (h := h) p
  obtain ⟨ms, hms, hcount, hfields, htypes⟩ := entries_metadata (h := h) p.metadata
  unfold check
  simp only [hes, hops, hmeta, entryOr, hfilters, mapEntries?_operations, hgroups,
    checkFilters_ok hp.filters, hms, hcount, hfields, htypes, Option.getD_some, hp.total, hlist,
    hmap, Bool.or_true, need, if_true]
  rfl

theorem check_formed {p : Patch} (hp : Formed h p) : check h p.toMap = .ok () :=
  check_loadable hp.loadable

end DocDelta.Patch
