import DocDelta.Proofs.Diff.Naming
import DocDelta.Proofs.Diff.Recorded

/-! The changes of a task do not meet.

A task that ends records at its own place only, at most once or once for every item; the steps of
one that goes on have distinct names. So the changes of a labelled task are `Scattered`: their
paths have names of the sort, and no two of them meet. -/
namespace DocDelta.Diff
variable {P : String → Prop} {h : Heap} {o : Options} {path : Label} {task : Task} {cs : List Change}

/-! ### Changes at one place -/

/-- Changes at one place: a single one, or changes of items. -/
inductive InPlace : List Change → Prop
  | one (action : Action) : InPlace [.whole [] action]
  | items (updates : List (Nat × Value)) :
      InPlace (updates.map fun e => .item [] e.1 e.2)

theorem inPlace_nil : InPlace [] := .items []

theorem inPlace_pushed (items : List Value) : InPlace (pushed items) := by
  unfold pushed
  split
  · exact inPlace_nil
  · exact .one _

theorem inPlace_scalar (zero : Bool) (v : Value) : InPlace (scalarChanges o zero v) := by
  unfold scalarChanges
  split
  · split
    · exact .one _
    · exact inPlace_nil
    · exact .one _
  · exact .one _

theorem inPlace_reconciles {old new : Value} (hr : Reconciles h o old new cs) : InPlace cs := by
  cases hr with
  | replaced => exact .one _
  | extended hx hy hl hs => exact inPlace_pushed _
  | updated hx hy hl hs =>
    rename_i xs ys changed
    have hitems := InPlace.items (changed.map fun i => (i, (ys[i]?).getD .nil))
    rwa [List.map_map] at hitems
  | grown hx hy hl hs => exact inPlace_pushed _
  | emptied hm => exact .one _
  | merged hm hx hy hp => exact .items _
  | added hm hx hy hp => exact inPlace_pushed _

theorem inPlace_settles (hs : Settles h o task cs) : InPlace cs := by
  cases hs with
  | scalar ho hn hc hk he hz => exact inPlace_scalar _ _
  | sequence ho hn hc hk he hs => exact inPlace_reconciles hs
  | created ho hn hr => exact .one _
  | dropped ho hn hr => exact .one _
  | whole hv hr hz => exact .one _
  | removed hz hr he => exact .one _
  | _ => exact inPlace_nil

theorem InPlace.path_eq_nil (hi : InPlace cs) {c : Change} (hc : c ∈ cs) : c.path = [] := by
  cases hi with
  | one action =>
    rw [List.mem_singleton.mp hc]
    rfl
  | items updates =>
    obtain ⟨e, _, rfl⟩ := List.mem_map.mp hc
    rfl

/-! ### Changes at many places -/

/-- Changes at places with names of a sort, no two of which meet. -/
structure Scattered (P : String → Prop) (cs : List Change) : Prop where
  sort : ∀ c ∈ cs, ∀ l ∈ c.path, P l.text
  independent : cs.Pairwise Change.Independent

theorem InPlace.scattered (hi : InPlace cs) : Scattered P cs := by
  refine ⟨fun c hc l hl => ?_, ?_⟩
  · rw [hi.path_eq_nil hc] at hl
    cases hl
  · cases hi with
    | one action => exact List.pairwise_singleton ..
    | items updates =>
      exact List.pairwise_map.mpr (List.pairwise_of_forall fun _ _ => .inr ⟨rfl, rfl, rfl⟩)

theorem Scattered.under (hs : Scattered P cs) {l : Label} (hl : P l.text) :
    Scattered P (cs.map (·.under l)) := by
  refine ⟨fun c hc k hk => ?_, List.pairwise_map.mpr (hs.independent.imp fun hi => hi.under l)⟩
  obtain ⟨d, hd, rfl⟩ := List.mem_map.mp hc
  rw [Change.path_under] at hk
  rcases List.mem_cons.mp hk with rfl | hk
  · exact hl
  · exact hs.sort d hd k hk

/-- Changes under distinct names do not meet. -/
theorem scattered_steps {steps : List Step} (hp : ∀ e ∈ steps, P e.label.text)
    (hn : (steps.map (·.label.text)).Nodup) (hs : ∀ e ∈ steps, Scattered P e.changes) :
    Scattered P (steps.flatMap Step.all) := by
  have hunder := fun e he => (hs e he).under (hp e he)
  refine ⟨fun c hc => ?_, List.pairwise_flatMap.mpr ⟨fun e he => (hunder e he).independent, ?_⟩⟩
  · obtain ⟨e, he, hc⟩ := List.mem_flatMap.mp hc
    exact (hunder e he).sort c hc
  · refine (List.pairwise_map.mp hn).imp fun {e f} hne c hc d hd => .inl ?_
    obtain ⟨c, _, rfl⟩ := List.mem_map.mp hc
    obtain ⟨d, _, rfl⟩ := List.mem_map.mp hd
    simp only [Change.path_under, List.map_cons]
    exact apart_cons hne _ _

/-- **The changes of a labelled task do not meet.** -/
theorem yields_scattered (hy : Yields h o task path cs) (hl : TaskLabelled P h task) :
    Scattered P cs := by
  induction hy with
  | settles hs => exact (inPlace_settles hs).scattered
  | becomes hb hy ih => exact ih (labelled_becomes hb hl)
  | descends steps hd hy ih =>
    have hsteps := labelled_descends hd hl
    have hmem : ∀ e ∈ steps, (e.label, e.task) ∈ steps.map fun e => (e.label, e.task) :=
      fun e he => List.mem_map_of_mem he
    have hnodup := hsteps.nodup
    rw [List.map_map] at hnodup
    exact scattered_steps (fun e he => hsteps.sort _ (hmem e he)) hnodup
      fun e he => ih e he (hsteps.labelled _ (hmem e he))

end DocDelta.Diff
