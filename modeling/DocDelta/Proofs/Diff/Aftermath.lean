import DocDelta.Proofs.Diff.Run
import DocDelta.Proofs.Patch.Entries

/-! What a call of the comparison leaves of the state it was given.

`Extends s t` says that `t` only adds to `s`: the same pairs under comparison and the same
references met, the same messages, filters and changed fields first, no fewer changes counted and
labels handed out, and an operation on every path that had one. Each step of a walk extends the
state, whether it succeeds or fails, and so does each way of putting walks together: a failure
inside is passed on with the state it was reached in, and a pair that was entered is left again on
both exits. So every call extends the state it runs on, and a state that calls failed on is as fit
for the next one as a state that they ended well on. -/
namespace DocDelta

/-! ### Operations are kept -/

namespace Group

theorem has_put (g : Group) (path : Label) (v : Value) (s : String) :
    (g.put path v).has s = (g.has s || path.text == s) := by
  unfold put
  by_cases hin : g.has path.text = true
  · rw [if_pos hin]
    have hkeys : (g.fields.map fun f => if f.1.text == path.text then (f.1, v) else f).any
        (fun f => f.1.text == s) = g.has s := by
      rw [List.any_map, has]
      congr 1
      funext f
      dsimp only [Function.comp_apply]
      split <;> rfl
    refine hkeys.trans ?_
    by_cases hs : path.text = s
    · rw [← hs, hin, Bool.true_or]
    · simp [hs]
  · rw [if_neg hin]
    simp [has]

theorem has_erase {g : Group} {path s : String} (hs : s ≠ path) : (g.erase path).has s = g.has s := by
  rw [erase, has, has, List.any_filter]
  congr 1
  funext f
  by_cases hf : f.1.text = s
  · simp [hf, hs]
  · simp [hf]

end Group

namespace Patch

theorem mem_paths {p : Patch} {path : String} :
    path ∈ p.paths ↔ ∃ g ∈ p.groups, g.has path = true := by
  simp only [paths, entries, List.map_flatMap, List.map_map, List.mem_flatMap, List.mem_map,
    Group.has, List.any_eq_true, beq_iff_eq, Function.comp_apply]

/-- Only the released path is taken from a group, and a group that holds another one stays. -/
theorem has_release {operator : Operator} {path s : String} {gs : List Group} (hs : s ≠ path)
    (hg : ∃ g ∈ gs, g.has s = true) : ∃ g ∈ release operator path gs, g.has s = true := by
  obtain ⟨g, hg, hhas⟩ := hg
  have herased : (g.erase path).has s = true := by rw [Group.has_erase hs, hhas]
  by_cases hkeep : (g.operator = operator || !g.has path) = true
  · exact ⟨g, List.mem_filterMap.mpr ⟨g, hg, if_pos hkeep⟩, hhas⟩
  · have hfields : ¬(g.erase path).fields.isEmpty = true := by
      intro hempty
      rw [Group.has, List.isEmpty_iff.mp hempty] at herased
      cases herased
    refine ⟨g.erase path, List.mem_filterMap.mpr ⟨g, hg, ?_⟩, herased⟩
    rw [if_neg hkeep]
    exact if_neg hfields

/-- The path that was put is held, and so is every path that was held before. -/
theorem has_putUnder {operator : Operator} {path : Label} {v : Value} {s : String}
    {gs : List Group} (hs : path.text = s ∨ ∃ g ∈ gs, g.has s = true) :
    ∃ g ∈ putUnder operator path v gs, g.has s = true := by
  by_cases hm : operator ∈ gs.map (·.operator)
  · rw [putUnder_present hm]
    rcases hs with hs | ⟨g, hg, hhas⟩
    · obtain ⟨g, hg, ho⟩ := List.mem_map.mp hm
      refine ⟨g.put path v, List.mem_map.mpr ⟨g, hg, if_pos ho⟩, ?_⟩
      simp [Group.has_put, hs]
    · refine ⟨_, List.mem_map_of_mem hg, ?_⟩
      split
      · rw [Group.has_put, hhas, Bool.true_or]
      · exact hhas
  · rw [putUnder_absent hm]
    rcases hs with hs | ⟨g, hg, hhas⟩
    · refine ⟨_, List.mem_append_right gs (List.mem_singleton_self _), ?_⟩
      simp [Group.has, hs]
    · exact ⟨g, List.mem_append_left _ hg, hhas⟩

theorem mem_paths_addOperation (p : Patch) (operator : Operator) (path : Label) (v : Value)
    {s : String} (hs : s ∈ p.paths) : s ∈ (p.addOperation operator path v).paths := by
  refine mem_paths.mpr (has_putUnder ?_)
  by_cases hpath : path.text = s
  · exact .inl hpath
  · exact .inr (has_release (fun he => hpath he.symm) (mem_paths.mp hs))

/-- One patch only adds to another. -/
structure Extends (p q : Patch) : Prop where
  fields : p.metadata.fieldsChanged <+: q.metadata.fieldsChanged
  filters : p.filters <+: q.filters
  total : p.metadata.totalChanges.count ≤ q.metadata.totalChanges.count
  paths : ∀ path ∈ p.paths, path ∈ q.paths

theorem Extends.refl (p : Patch) : Extends p p :=
  ⟨List.prefix_rfl, List.prefix_rfl, le_refl _, fun _ hp => hp⟩

theorem Extends.trans {p q r : Patch} (hpq : Extends p q) (hqr : Extends q r) : Extends p r where
  fields := hpq.fields.trans hqr.fields
  filters := hpq.filters.trans hqr.filters
  total := hpq.total.trans hqr.total
  paths path hp := hqr.paths path (hpq.paths path hp)

theorem extends_addOperation (p : Patch) (operator : Operator) (path : Label) (v : Value) :
    Extends p (p.addOperation operator path v) where
  fields := by
    dsimp only [addOperation, Metadata.record]
    split
    · exact List.prefix_rfl
    · exact List.prefix_append _ _
  filters := List.prefix_rfl
  total := Int.le_add_one (le_refl p.metadata.totalChanges.count)
  paths _ := mem_paths_addOperation p operator path v

theorem extends_push (p : Patch) (path : Label) (vs : List Value) : Extends p (p.push path vs) := by
  unfold push
  split
  · exact .refl p
  · exact extends_addOperation ..
  · exact extends_addOperation ..

theorem extends_addFilter (p : Patch) (filter : Value) : Extends p (p.addFilter filter) :=
  { Extends.refl p with filters := List.prefix_append _ _ }

end Patch

/-! ### States and walks -/

namespace Diff
variable {h : Heap} {o : Options}

/-- One state only adds to another, with the same pairs under comparison and the same references
met. -/
structure Extends (s t : State) : Prop where
  active : t.active = s.active
  old : t.old = s.old
  new : t.new = s.new
  patch : s.patch.Extends t.patch
  labels : s.labels ≤ t.labels
  log : s.log <+: t.log

theorem Extends.refl (s : State) : Extends s s :=
  ⟨rfl, rfl, rfl, .refl _, le_refl _, List.prefix_rfl⟩

theorem Extends.trans {s t u : State} (hst : Extends s t) (htu : Extends t u) : Extends s u where
  active := htu.active.trans hst.active
  old := htu.old.trans hst.old
  new := htu.new.trans hst.new
  patch := hst.patch.trans htu.patch
  labels := hst.labels.trans htu.labels
  log := hst.log.trans htu.log

/-- A walk that only adds to the state, whether it succeeds or fails. -/
def Extending {α : Type} (m : Walk α) : Prop := ∀ s, Extends s (m.run s).2

section Extending
variable {α β : Type}

theorem extending_pure (a : α) : Extending (pure a : Walk α) := .refl

theorem extending_throw (e : Fault) : Extending (throw e : Walk α) := .refl

theorem extending_ask (x : Except Fault α) : Extending (ask x) := .refl

theorem extending_log (level : Level) (text : String) : Extending (log level text) :=
  fun s => { Extends.refl s with log := List.prefix_append _ _ }

theorem extending_nextLabel : Extending nextLabel :=
  fun s => { Extends.refl s with labels := Nat.le_succ _ }

theorem extending_onPatch {f : Patch → Patch} (hf : ∀ p : Patch, p.Extends (f p)) :
    Extending (onPatch f) :=
  fun s => { Extends.refl s with patch := hf s.patch }

theorem extending_set (path : Label) (v : Value) : Extending (onPatch (·.set path v)) :=
  extending_onPatch fun p => p.extends_addOperation _ path v

theorem extending_unset (path : Label) : Extending (onPatch (·.unset path)) :=
  extending_onPatch fun p => p.extends_addOperation _ path _

theorem extending_push (path : Label) (vs : List Value) : Extending (onPatch (·.push path vs)) :=
  extending_onPatch fun p => p.extends_push path vs

/-- The second walk goes on from where the first one ended; where that failed, nothing follows. -/
theorem extending_bind {m : Walk α} {f : α → Walk β} (hm : Extending m)
    (hf : ∀ a, Extending (f a)) : Extending (m >>= f) := by
  intro s
  have hs := hm s
  rw [run_bind]
  rcases hr : m.run s with ⟨e | a, t⟩
  · rwa [hr] at hs
  · rw [hr] at hs
    exact hs.trans (hf a t)

theorem extending_ite {c : Prop} [Decidable c] {m k : Walk α} (hm : Extending m)
    (hk : Extending k) : Extending (if c then m else k) := by
  split
  · exact hm
  · exact hk

theorem extending_forM {f : α → Walk Unit} {xs : List α} (hf : ∀ a, Extending (f a)) :
    Extending (xs.forM f) := by
  induction xs with
  | nil => exact extending_pure ()
  | cons x xs ih => exact extending_bind (hf x) fun _ => ih

/-- A pair is refused where it is under comparison already, which changes nothing. Otherwise it is
the first pair that the walk inside finds and leaves, and it is taken out again on either exit. -/
theorem extending_visiting {old new : Value} {path : Label} {body : Walk Unit}
    (hb : Extending body) : Extending (visiting h old new path body) := by
  intro s
  rw [run_visiting]
  cases pairOf h old new with
  | none => exact hb s
  | some pair =>
    dsimp only
    split
    · exact .refl s
    · have hinside := hb { s with active := pair :: s.active }
      refine ⟨?_, hinside.old, hinside.new, hinside.patch, hinside.labels, hinside.log⟩
      dsimp only
      rw [hinside.active, List.erase_cons_head]

end Extending

/-! ### Sequences -/

section Sequences

variable {old new : Value} {path : Label}

theorem extending_unlessEqual {body : Walk Unit} (hb : Extending body) :
    Extending (unlessEqual h old new body) :=
  extending_bind (extending_ask _) fun _ => extending_ite (extending_pure ()) hb

theorem extending_replaceSequence : Extending (replaceSequence h old new path) :=
  extending_unlessEqual (extending_set path new)

theorem extending_fallBack (reason : String) : Extending (fallBack h reason old new path) :=
  extending_bind (extending_log _ _) fun _ => extending_replaceSequence

/-- An item is set through a label that was not handed out before, with its filter. -/
theorem extending_setAt (index : Nat) (v : Value) : Extending (setAt index v path) :=
  extending_bind extending_nextLabel fun _ =>
    extending_bind (extending_onPatch fun p => p.extends_addFilter _) fun _ => extending_set _ v

theorem extending_appendSequence : Extending (appendSequence h old new path) := by
  refine extending_unlessEqual (extending_bind (extending_ask _) fun xs => ?_)
  refine extending_bind (extending_ask _) fun ys => extending_ite (extending_fallBack _) ?_
  refine extending_bind (extending_ask _) fun change => ?_
  cases change with
  | some i => exact extending_fallBack _
  | none => exact extending_push path _

theorem extending_smartSequence : Extending (smartSequence h old new path) := by
  refine extending_unlessEqual (extending_bind (extending_ask _) fun xs => ?_)
  refine extending_bind (extending_ask _) fun ys => extending_ite (extending_fallBack _) ?_
  refine extending_ite (extending_fallBack _) (extending_bind (extending_ask _) fun changed => ?_)
  refine extending_ite (extending_fallBack _) (extending_ite ?_ ?_)
  · exact extending_forM fun i => extending_setAt i _
  · exact extending_ite (extending_push path _) (extending_fallBack _)

theorem extending_mergeSequence : Extending (mergeSequence h old new path) := by
  refine extending_unlessEqual (extending_bind (extending_ask _) fun xs => ?_)
  refine extending_ite (extending_set path new) (extending_bind (extending_ask _) fun ys => ?_)
  refine extending_ite (extending_unset path) (extending_ite (extending_fallBack _) ?_)
  refine extending_bind (extending_ask _) fun p => ?_
  refine extending_ite (extending_fallBack _) (extending_ite (extending_fallBack _) ?_)
  refine extending_ite (extending_push path _) ?_
  exact extending_forM fun e => extending_setAt e.1 e.2

theorem extending_diffSequences (strategy : Strategy) :
    Extending (diffSequences h strategy old new path) := by
  refine extending_unlessEqual ?_
  cases strategy with
  | replace => exact extending_replaceSequence
  | append => exact extending_appendSequence
  | smart => exact extending_smartSequence
  | merge => exact extending_mergeSequence

end Sequences

/-! ### The comparison -/

theorem extending_diffScalars (old new : Value) (path : Label) :
    Extending (diffScalars h o old new path) := by
  refine extending_unlessEqual (extending_bind (extending_ask _) fun _ => ?_)
  refine extending_ite ?_ (extending_set path new)
  cases o.zeros with
  | unset => exact extending_unset path
  | ignore => exact extending_log _ _
  | set => exact extending_set path new

/-- A key leads on unless it is ignored. -/
theorem extending_keyed {path : Label} {key : Value} {walk : Label → Walk Unit}
    (hw : ∀ l, Extending (walk l)) : Extending (ask (keyPath h o path key) >>= fun
      | none => pure ()
      | some subpath => walk subpath) := by
  refine extending_bind (extending_ask _) fun found => ?_
  cases found with
  | none => exact extending_pure ()
  | some subpath => exact hw subpath

/-- The walks of a comparison that may take so many steps. -/
structure ExtendingWithin (h : Heap) (o : Options) (n : Nat) : Prop where
  values : ∀ old new path, Extending (diffValues h o n old new path)
  pointers : ∀ old new path, Extending (diffPointers h o n old new path)
  structs : ∀ old new path, Extending (diffStructs h o n old new path)
  mappings : ∀ old new path, Extending (diffMappings h o n old new path)
  addedFields : ∀ new path, Extending (addStructFields h o n new path)
  added : ∀ v path, Extending (diffAdded h o n v path)
  removedFields : ∀ old path, Extending (unsetStructFields h o n old path)
  removed : ∀ v path, Extending (diffRemoved h o n v path)

theorem extendingWithin_succ {n : Nat} (hn : ExtendingWithin h o n) :
    ExtendingWithin h o (n + 1) where
  values old new path := by
    rw [diffValues]
    refine extending_ite (hn.pointers old new path) (extending_ite (extending_throw _) ?_)
    split
    · exact extending_visiting (hn.structs old new path)
    · exact extending_visiting (extending_diffSequences _)
    · exact extending_visiting (hn.mappings old new path)
    · exact extending_diffScalars old new path
  pointers old new path := by
    rw [diffPointers]
    refine extending_ite (extending_pure ()) (extending_ite ?_ (extending_ite ?_ (hn.values old new path)))
    · exact extending_ite (hn.addedFields new path) (extending_set path new)
    · exact extending_ite (hn.removedFields old path) (extending_unset path)
  structs old new path := by
    rw [diffStructs]
    exact extending_bind (extending_ask _) fun fs => extending_forM fun f => hn.values _ _ _
  mappings old new path := by
    rw [diffMappings]
    refine extending_bind (extending_ask _) fun as => extending_bind (extending_ask _) fun bs => ?_
    refine extending_bind (extending_ask _) fun keys => extending_forM fun key => ?_
    refine extending_keyed fun subpath => extending_bind (extending_ask _) fun x => ?_
    exact extending_bind (extending_ask _) fun y => hn.values x y subpath
  addedFields new path := by
    rw [addStructFields]
    exact extending_visiting (extending_bind (extending_ask _) fun fs =>
      extending_forM fun f => hn.added _ _)
  added v path := by
    rw [diffAdded]
    refine extending_ite (extending_pure ()) (extending_ite (hn.addedFields v path) ?_)
    split
    · exact extending_set path v
    · exact hn.values _ v path
  removedFields old path := by
    rw [unsetStructFields]
    exact extending_visiting (extending_bind (extending_ask _) fun fs =>
      extending_forM fun f => hn.removed _ _)
  removed v path := by
    rw [diffRemoved]
    refine extending_bind (extending_ask _) fun _ => ?_
    refine extending_ite (extending_pure ()) (extending_ite (hn.removedFields v path) ?_)
    split
    · exact extending_forM fun e => extending_keyed fun subpath => hn.values e.2 .nil subpath
    · exact extending_unset path

theorem extendingWithin (h : Heap) (o : Options) (n : Nat) : ExtendingWithin h o n := by
  induction n with
  | zero =>
    constructor
    all_goals
      intros
      exact extending_throw _
  | succ n ih => exact extendingWithin_succ ih

/-! ### Calls -/

/-- A call of one of the mutually recursive walks, of a scalar comparison or of a way to reconcile
sequences, with its values and its path. -/
inductive Call
  | values (old new : Value) (path : Label)
  | pointers (old new : Value) (path : Label)
  | structs (old new : Value) (path : Label)
  | mappings (old new : Value) (path : Label)
  | scalars (old new : Value) (path : Label)
  | sequences (old new : Value) (path : Label)
  | replaceSequence (old new : Value) (path : Label)
  | appendSequence (old new : Value) (path : Label)
  | smartSequence (old new : Value) (path : Label)
  | mergeSequence (old new : Value) (path : Label)
  | addedFields (new : Value) (path : Label)
  | added (v : Value) (path : Label)
  | removedFields (old : Value) (path : Label)
  | removed (v : Value) (path : Label)

/-- What a call does that may take so many steps. -/
def Call.walk (h : Heap) (o : Options) (n : Nat) : Call → Walk Unit
  | .values old new path => diffValues h o n old new path
  | .pointers old new path => diffPointers h o n old new path
  | .structs old new path => diffStructs h o n old new path
  | .mappings old new path => diffMappings h o n old new path
  | .scalars old new path => diffScalars h o old new path
  | .sequences old new path => diffSequences h o.strategy old new path
  | .replaceSequence old new path => Diff.replaceSequence h old new path
  | .appendSequence old new path => Diff.appendSequence h old new path
  | .smartSequence old new path => Diff.smartSequence h old new path
  | .mergeSequence old new path => Diff.mergeSequence h old new path
  | .addedFields new path => addStructFields h o n new path
  | .added v path => diffAdded h o n v path
  | .removedFields old path => unsetStructFields h o n old path
  | .removed v path => diffRemoved h o n v path

/-- The state after a run of calls, each with the steps that it may take. A call that fails does
not end the run. -/
def aftermath (h : Heap) (o : Options) (s : State) : List (Nat × Call) → State
  | [] => s
  | (n, c) :: calls => aftermath h o ((c.walk h o n).run s).2 calls

theorem extending_walk (h : Heap) (o : Options) (n : Nat) (c : Call) :
    Extending (c.walk h o n) := by
  have hn := extendingWithin h o n
  cases c with
  | values old new path => exact hn.values old new path
  | pointers old new path => exact hn.pointers old new path
  | structs old new path => exact hn.structs old new path
  | mappings old new path => exact hn.mappings old new path
  | scalars old new path => exact extending_diffScalars old new path
  | sequences old new path => exact extending_diffSequences o.strategy
  | replaceSequence old new path => exact extending_replaceSequence
  | appendSequence old new path => exact extending_appendSequence
  | smartSequence old new path => exact extending_smartSequence
  | mergeSequence old new path => exact extending_mergeSequence
  | addedFields new path => exact hn.addedFields new path
  | added v path => exact hn.added v path
  | removedFields old path => exact hn.removedFields old path
  | removed v path => exact hn.removed v path

/-- A run of calls adds up what each of them adds. -/
theorem extends_aftermath (h : Heap) (o : Options) (calls : List (Nat × Call)) (s : State) :
    Extends s (aftermath h o s calls) := by
  induction calls generalizing s with
  | nil => exact .refl s
  | cons c calls ih => exact (extending_walk h o c.1 c.2 s).trans (ih _)

/-- **A failed comparison leaves the state usable.** Whatever values and options a call is given,
however deep it may go and whatever the state holds, whether it succeeds or fails: the pairs under
comparison and the references met are those before, the changed fields and the filters before come
first, no changes are uncounted, no label is handed out again, and every path that had an operation
has one. A run of calls on one state, failed ones among them, keeps the same. -/
theorem usable_after (h : Heap) (o : Options) :
    (∀ (n : Nat) (c : Call) (s : State), Extends s ((c.walk h o n).run s).2) ∧
      ∀ (calls : List (Nat × Call)) (s : State), Extends s (aftermath h o s calls) :=
  ⟨extending_walk h o, extends_aftermath h o⟩

end Diff
end DocDelta
