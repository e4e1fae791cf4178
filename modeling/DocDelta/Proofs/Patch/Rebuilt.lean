import DocDelta.Proofs.Patch.Checked
import DocDelta.Proofs.Value.Matching

/-! Rebuilding a patch from its map.

The map of a patch says everything about it: rebuilding gives the patch itself, not only an
equal one (`ofMap_toMap`). That a patch is equal to itself takes more: its values are compared,
and a value in place that holds a NaN is not equal to itself, while an object of the heap is
recognized as the same object. -/
namespace DocDelta.Patch
open Heap Number
variable {h : Heap}

/-! ### The same patch -/

theorem groupOf?_toMap (g : Group) : groupOf? h g.label.value
    (g.fields.map fun f => (f.1.value, f.2)) = some g := by
  have hop : Operator.ofText? g.label.text = some g.operator := operatorOf?_label (h := h) g
  have hfields : (g.fields.map fun f => (f.1.value, f.2)).mapM
      (fun e => ((h.view e.1).label?).map fun l => (l, e.2)) = some g.fields := by
    induction g.fields with
    | nil => rfl
    | cons f fields ih =>
      rw [List.map_cons, List.mapM_cons, ih]
      rfl
  show (Operator.ofText? g.label.text).bind (fun op =>
    ((g.fields.map fun f => (f.1.value, f.2)).mapM
      (fun e => ((h.view e.1).label?).map fun l => (l, e.2))).bind
        fun fields => some (Group.mk op g.label.cls fields)) = _
  rw [hop, hfields]
  rfl

/-- **The map of a patch describes that patch.** -/
theorem ofMap_loadable {p : Patch} (hp : Loadable h p) : ofMap h p.toMap = .ok p := by
  obtain ⟨es, hes, hops, hmeta, hfilters⟩ := entries_toMap (h := h) p
  obtain ⟨ms, hms, hcount, hfields, htypes⟩ := entries_metadata (h := h) p.metadata
  have hgroups : (p.groups.map fun g => (g.label.value,
      Value.map (g.fields.map fun f => (f.1.value, f.2)))).filterMap (fun e =>
        groupOf? h e.1 ((h.mapEntries? e.2).getD [])) = p.groups := by
    rw [List.filterMap_map]
    refine (List.filterMap_congr fun g _ => groupOf?_toMap g).trans List.filterMap_some
  have hitems : (p.filtersEntry?.bind h.listItems?).getD [] = p.filters := by
    unfold filtersEntry? hasFilters
    cases p.filters <;> rfl
  have hlist : ∀ xs, h.listItems? (.list xs) = some xs := fun _ => rfl
  have hmap : ∀ xs, h.mapEntries? (.map xs) = some xs := fun _ => rfl
  unfold ofMap
  rw [check_loadable hp]
  simp only [bind, Except.bind, pure, Except.pure]
  simp only [hes, hops, hmeta, hfilters, hms, hcount, hfields, htypes, entryOr, Option.getD_some,
    Option.bind_some, hitems, hlist, hmap, mapEntries?_operations, hgroups, hp.metadata]

theorem ofMap_toMap {p : Patch} (hp : Formed h p) : ofMap h p.toMap = .ok p :=
  ofMap_loadable hp.loadable

/-! ### Equal to itself -/

/-- The groups have distinct names. -/
theorem Tidy.labels {gs : List Group} (ht : Tidy gs) : (gs.map fun g => g.label.text).Nodup := by
  have htext : Function.Injective Operator.text := by
    intro a b hab
    cases a <;> cases b <;> first | rfl | exact absurd hab (by decide)
  have hoperators := ht.operators.map htext
  rwa [List.map_map] at hoperators

theorem matching_operations {p : Patch} (ht : Tidy p.groups)
    (hv : ∀ e ∈ p.entries, h.matching e.2.2 e.2.2 = .ok true) :
    h.matching p.operations p.operations = .ok true := by
  refine matching_labels ht.labels fun g hg => ?_
  refine matching_labels (ht.paths g hg) fun f hf => hv (g.operator, f.1.text, f.2) ?_
  exact List.mem_flatMap.mpr ⟨g, hg, List.mem_map_of_mem hf⟩

/-- Metadata matches itself where its three parts do. -/
theorem matching_metadata_of {m : Metadata}
    (hf : h.matching (.list (m.fieldsChanged.map (·.value))) (.list (m.fieldsChanged.map (·.value))) =
      .ok true)
    (ht : h.matching (.map (m.operationTypes.map fun e => (e.1.value, e.2.value)))
      (.map (m.operationTypes.map fun e => (e.1.value, e.2.value))) = .ok true)
    (hn : h.matching m.totalChanges.value m.totalChanges.value = .ok true) :
    h.matching m.toMap m.toMap = .ok true := by
  have hkeys : ["fieldsChanged", "operationTypes", "totalChanges"].map some |>.Nodup := by decide
  refine matching_map ?_ hkeys
  exact .cons ⟨_, rfl, rfl, hf⟩ (.cons ⟨_, rfl, rfl, ht⟩ (.cons ⟨_, rfl, rfl, hn⟩ .nil))

theorem matching_metadata {p : Patch} (hp : Formed h p) :
    h.matching p.metadata.toMap p.metadata.toMap = .ok true := by
  obtain ⟨ls, ts, n, hd, hm⟩ := hp.metadata
  rw [hm]
  refine matching_metadata_of ?_ ?_ (matching_int n)
  · refine matching_list ?_
    rw [List.map_map, List.forall₂_map_left_iff, List.forall₂_map_right_iff, List.forall₂_same]
    exact fun l _ => matching_label l
  · rw [List.map_map]
    exact matching_labels hd fun t _ => matching_label t.2

/-- A patch whose operations, filters and metadata match themselves is equal to itself. -/
theorem same_of_matching {p : Patch} (ht : Tidy p.groups)
    (hv : ∀ e ∈ p.entries, h.matching e.2.2 e.2.2 = .ok true)
    (hf : ∀ f ∈ p.filters, h.matching f f = .ok true)
    (hm : h.matching p.metadata.toMap p.metadata.toMap = .ok true) :
    Patch.same h p p = .ok true := by
  have hoperations : h.same p.operations p.operations = .ok true := matching_operations ht hv
  have hfilters : h.same (.list p.filters) (.list p.filters) = .ok true :=
    matching_list (List.forall₂_same.mpr hf)
  rw [Patch.same, hoperations]
  show (h.same (.list p.filters) (.list p.filters) >>= _) = _
  rw [hfilters]
  exact hm

/-- A patch whose values and filters match themselves is equal to itself. -/
theorem same_self {p : Patch} (hp : Formed h p)
    (hv : ∀ e ∈ p.entries, h.matching e.2.2 e.2.2 = .ok true)
    (hf : ∀ f ∈ p.filters, h.matching f f = .ok true) : Patch.same h p p = .ok true :=
  same_of_matching hp.tidy hv hf (matching_metadata hp)

/-! ### Runs of calls -/

/-- The values that a call is given. -/
def Call.values : Call → List Value
  | .add _ _ v | .set _ v | .filter v => [v]
  | .unset _ => []
  | .push _ vs => vs

theorem matching_record {c : Call} {r : Record} (hr : c.record? h = some r)
    (hc : ∀ v ∈ c.values, h.matching v v = .ok true) : h.matching r.value r.value = .ok true := by
  cases c with
  | add operator path v =>
    obtain ⟨o, _, rfl⟩ := Option.map_eq_some_iff.mp hr
    exact hc v (List.mem_singleton_self v)
  | set path v =>
    cases hr
    exact hc v (List.mem_singleton_self v)
  | unset path =>
    cases hr
    exact matching_label (.plain "")
  | push path vs =>
    match vs with
    | [] => cases hr
    | [v] =>
      cases hr
      exact hc v (List.mem_singleton_self v)
    | v :: w :: vs =>
      cases hr
      have hitems : h.matching (.list (v :: w :: vs)) (.list (v :: w :: vs)) = .ok true :=
        matching_list (List.forall₂_same.mpr hc)
      exact matching_map (.cons ⟨_, rfl, rfl, hitems⟩ .nil) (List.nodup_singleton _)
  | filter v => cases hr

theorem filters_edit (c : Call) (p : Patch) {f : Value} (hf : f ∈ ((c.edit h).run p).2.filters) :
    f ∈ p.filters ∨ c = .filter f := by
  cases c with
  | add operator path v =>
    cases ho : operatorOf? h operator with
    | none =>
      simp only [Call.edit, addGiven, ho] at hf
      exact .inl hf
    | some o =>
      simp only [Call.edit, addGiven, ho] at hf
      exact .inl hf
  | push path vs =>
    refine .inl ?_
    rcases vs with _ | ⟨_, _ | _⟩
    · exact hf
    · exact hf
    · exact hf
  | filter v =>
    rcases List.mem_append.mp hf with hf | hf
    · exact .inl hf
    · exact .inr (by rw [List.mem_singleton.mp hf])
  | _ => exact .inl hf

/-- A run adds no filters but those it is given. -/
theorem filters_run (calls : List Call) (p : Patch) {f : Value} (hf : f ∈ (run h p calls).filters) :
    f ∈ p.filters ∨ .filter f ∈ calls := by
  induction calls generalizing p with
  | nil => exact .inl hf
  | cons c cs ih =>
    rcases ih _ hf with hf | hf
    · rcases filters_edit c p hf with hf | rfl
      · exact .inl hf
      · exact .inr (List.mem_cons_self ..)
    · exact .inr (List.mem_cons_of_mem c hf)

section Runs
variable {calls : List Call}

theorem accumulates_recorded (h : Heap) (calls : List Call) :
    Accumulates (accepted h calls) (run h .empty calls) := by
  simpa using accumulates_run h calls accumulates_empty

theorem formed_recorded (hf : ∀ f, .filter f ∈ calls → (h.mapEntries? f).isSome) :
    Formed h (run h .empty calls) :=
  formed_of_accumulates (accumulates_recorded h calls) fun f hm =>
    hf f ((filters_run calls .empty hm).resolve_left nofun)

theorem same_recorded (hf : ∀ f, .filter f ∈ calls → (h.mapEntries? f).isSome)
    (hv : ∀ c ∈ calls, ∀ v ∈ c.values, h.matching v v = .ok true) :
    Patch.same h (run h .empty calls) (run h .empty calls) = .ok true := by
  refine same_self (formed_recorded hf) (fun e he => ?_) fun f hm => ?_
  · obtain ⟨r, hl, _, hr⟩ := (mem_entries (accumulates_recorded h calls)).mp he
    obtain ⟨c, hc, hrec⟩ := List.mem_filterMap.mp (lastOn_mem hl)
    exact hr ▸ matching_record hrec (hv c hc)
  · exact hv _ ((filters_run calls .empty hm).resolve_left nofun) f (List.mem_singleton_self f)

end Runs

end DocDelta.Patch
