import DocDelta.Proofs.Diff.Taken
import DocDelta.Proofs.Diff.Whole
import DocDelta.Proofs.Json.Interned

/-! The patches of documents.

A comparison of two stored documents takes parts of them, and the zeros of their classes, so its
patch is made of nothing that could not be written (`writablePatch_diff`). -/
namespace DocDelta.Diff
open Heap Json Patch
variable {h : Heap} {o : Options}

/-- What can be written is passed on by a comparison. -/
theorem passes_writable (h : Heap) (K : ClassTable) :
    Passes h K fun v => h.Everywhere (Object.Follows K) v ∧ Writable h v where
  nil := ⟨(passes_follows h K).nil, writable_nil h⟩
  follows hv := hv.1.here
  zero hv hz := ⟨(passes_follows h K).zero hv.1 hz, hv.2.zero hz⟩
  tells hv ht := by
    refine ⟨(passes_follows h K).tells hv.1 ht, ?_⟩
    rcases ht.within with rfl | hw
    · exact writable_nil h
    · exact hv.2.within hw

theorem builds_writable (h : Heap) : Builds (Writable h) where
  text s := writable_text (.plain s)
  list hv := writable_list hv
  map he := writable_labelled he

/-- The filters of changes hold nothing but numbers. -/
theorem writable_filtersFrom {n : Nat} {cs : List Change} :
    ∀ f ∈ filtersFrom n cs, Writable h f := by
  induction cs generalizing n with
  | nil => exact nofun
  | cons c cs ih =>
    intro f hf
    rcases List.mem_append.mp hf with hf | hf
    · cases c with
      | whole path action => cases hf
      | item path index v =>
        rw [List.mem_singleton.mp hf]
        exact writable_table fun e he => List.mem_singleton.mp he ▸ .scalar (.int index)
    · exact ih f hf

/-- The metadata that recording leaves consists of texts and a count. -/
theorem writable_metadata {p : Patch} (hp : Formed h p) : Writable h p.metadata.toMap := by
  obtain ⟨ls, ts, n, _, hm⟩ := hp.metadata
  have hfields : Writable h (.list ((ls.map Mark.label).map (·.value))) := by
    refine writable_list fun v hv => ?_
    rw [List.map_map] at hv
    obtain ⟨l, _, rfl⟩ := List.mem_map.mp hv
    exact writable_text l
  have htypes : Writable h (.map ((ts.map fun t => (Mark.label t.1, Mark.label t.2)).map
      fun e => (e.1.value, e.2.value))) := by
    have hvalues : ∀ e ∈ ts.map fun t => (t.1, t.2.value), Writable h e.2 :=
      List.forall_mem_map.mpr fun t _ => writable_text t.2
    have hlabelled := writable_labelled hvalues
    rwa [List.map_map] at hlabelled ⊢
  rw [hm]
  refine writable_table fun e he => ?_
  rcases List.mem_cons.mp he with rfl | he
  · exact hfields
  · rcases List.mem_cons.mp he with rfl | he
    · exact htypes
    · rw [List.mem_singleton.mp he]
      exact .scalar (.int n)

/-- **The patch of two stored documents can be written.** -/
theorem writablePatch_diff (hd : Documents h) {x y : Addr} {p : Patch} {messages : List Message}
    (hp : diff h o (.ref x) (.ref y) = (.ok p, messages)) : WritablePatch h p := by
  obtain ⟨cs, n, hy, hreplay⟩ := yields_diff hp
  -- no class is derived, so any table of classes will do
  have hsides := fun a =>
    And.intro (follows_stored hd (fun _ => .basic "") a) (writable_stored hd a)
  have hcarries := yields_carries (passes_writable h _) hy ⟨hsides x, hsides y⟩
  obtain ⟨_, hfilters⟩ := accumulates_changes hreplay
  have hmaps : ∀ f ∈ p.filters, Writable h f := by
    rw [hfilters]
    exact writable_filtersFrom
  exact {
    operations := (builds_writable h).operations (fun c hc => (hcarries c hc).imp fun _ hv => hv.2)
      hreplay
    filters := hmaps
    metadata := writable_metadata (formed_changes hreplay) }

end DocDelta.Diff
