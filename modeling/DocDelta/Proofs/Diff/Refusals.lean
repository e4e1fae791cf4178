import DocDelta.Proofs.Diff.Tests
import DocDelta.Proofs.Diff.Whole
import DocDelta.Proofs.Patch.Rebuilt

/-! Which failures a comparison cannot end with.

Only the check of the patch that comes out could say that it is none: no test of values and no
step of the walks fails that way, whatever the heap holds, and the check accepts every patch of
changes. So a comparison never ends with the flaw of a patch. -/
namespace DocDelta
open Heap Number

/-! ### Tests -/

/-- Whether a failure says that a value is no patch. -/
def Fault.isFlaw : Fault → Bool
  | .badPatch _ => true
  | _ => false

/-- A test that does not fail with the flaw of a patch. -/
def Spares {α : Type} (x : Except Fault α) : Prop := ∀ e, x = .error e → e.isFlaw = false

section Spares
variable {α : Type} {x : Except Fault α}

theorem spares_ok (a : α) : Spares (.ok a) := nofun

theorem spares_error {e : Fault} (he : e.isFlaw = false) : Spares (.error e : Except Fault α) := by
  intro d hd
  cases hd
  exact he

theorem Placeless.spares (hx : Placeless x) : Spares x := by
  intro e he
  have hplaceless := hx e he
  cases e <;> first | rfl | cases hplaceless

end Spares

/-! ### Walks -/

namespace Diff
variable {h : Heap} {o : Options}

/-- A walk that does not fail with the flaw of a patch. -/
def Sparing {α : Type} (m : Walk α) : Prop := ∀ s, Spares (m.run s).1

section Sparing
variable {α β : Type}

theorem sparing_pure (a : α) : Sparing (pure a : Walk α) := fun _ => spares_ok a

theorem sparing_throw {e : Fault} (he : e.isFlaw = false) : Sparing (throw e : Walk α) :=
  fun _ => spares_error he

theorem sparing_ask {x : Except Fault α} (hx : Spares x) : Sparing (ask x) := fun _ => hx

theorem sparing_onPatch (f : Patch → Patch) : Sparing (onPatch f) := fun _ => spares_ok ()

theorem sparing_log (level : Level) (text : String) : Sparing (log level text) :=
  fun _ => spares_ok ()

theorem sparing_nextLabel : Sparing nextLabel := fun _ => spares_ok _

theorem sparing_bind {m : Walk α} {f : α → Walk β} (hm : Sparing m) (hf : ∀ a, Sparing (f a)) :
    Sparing (m >>= f) := by
  intro s
  rw [run_bind]
  have hs := hm s
  rcases hr : m.run s with ⟨e | a, t⟩
  · rw [hr] at hs
    exact spares_error (hs e rfl)
  · exact hf a t

theorem sparing_ite {c : Prop} [Decidable c] {m k : Walk α} (hm : Sparing m) (hk : Sparing k) :
    Sparing (if c then m else k) := by
  split
  · exact hm
  · exact hk

theorem sparing_forM {f : α → Walk Unit} {xs : List α} (hf : ∀ a, Sparing (f a)) :
    Sparing (xs.forM f) := by
  induction xs with
  | nil => exact sparing_pure ()
  | cons x xs ih => exact sparing_bind (hf x) fun _ => ih

theorem sparing_visiting {old new : Value} {path : Label} {body : Walk Unit} (hb : Sparing body) :
    Sparing (visiting h old new path body) := by
  intro s
  rw [run_visiting]
  split
  · exact hb s
  · split
    · exact spares_error rfl
    · exact hb _

end Sparing

/-! ### Sequences -/

section Sequences

variable {old new : Value} {path : Label}

theorem sparing_unlessEqual {body : Walk Unit} (hb : Sparing body) :
    Sparing (unlessEqual h old new body) :=
  sparing_bind (sparing_ask (placeless_deepEqual old new).spares) fun _ => sparing_ite (sparing_pure ()) hb

theorem sparing_replaceSequence : Sparing (replaceSequence h old new path) :=
  sparing_unlessEqual (sparing_onPatch _)

theorem sparing_fallBack (reason : String) : Sparing (fallBack h reason old new path) :=
  sparing_bind (sparing_log _ _) fun _ => sparing_replaceSequence

theorem sparing_setAt (index : Nat) (v : Value) : Sparing (setAt index v path) :=
  sparing_bind sparing_nextLabel fun _ =>
    sparing_bind (sparing_onPatch _) fun _ => sparing_onPatch _

theorem sparing_appendSequence : Sparing (appendSequence h old new path) := by
  refine sparing_unlessEqual (sparing_bind (sparing_ask (placeless_itemsOf old).spares) fun xs => ?_)
  refine sparing_bind (sparing_ask (placeless_itemsOf new).spares) fun ys => ?_
  refine sparing_ite (sparing_fallBack _) ?_
  refine sparing_bind (sparing_ask (placeless_firstChange 0 xs ys).spares) fun change => ?_
  cases change with
  | some i => exact sparing_fallBack _
  | none => exact sparing_onPatch _

theorem sparing_smartSequence : Sparing (smartSequence h old new path) := by
  refine sparing_unlessEqual (sparing_bind (sparing_ask (placeless_itemsOf old).spares) fun xs => ?_)
  refine sparing_bind (sparing_ask (placeless_itemsOf new).spares) fun ys => ?_
  refine sparing_ite (sparing_fallBack _) (sparing_ite (sparing_fallBack _) ?_)
  refine sparing_bind (sparing_ask (placeless_changedPlaces 0 xs ys).spares) fun changed => ?_
  refine sparing_ite (sparing_fallBack _) (sparing_ite ?_ ?_)
  · exact sparing_forM fun i => sparing_setAt i _
  · exact sparing_ite (sparing_onPatch _) (sparing_fallBack _)

theorem sparing_mergeSequence : Sparing (mergeSequence h old new path) := by
  refine sparing_unlessEqual (sparing_bind (sparing_ask (placeless_itemsOf old).spares) fun xs => ?_)
  refine sparing_ite (sparing_onPatch _) ?_
  refine sparing_bind (sparing_ask (placeless_itemsOf new).spares) fun ys => ?_
  refine sparing_ite (sparing_onPatch _) (sparing_ite (sparing_fallBack _) ?_)
  refine sparing_bind (sparing_ask (placeless_pairUp xs ys).spares) fun p => ?_
  refine sparing_ite (sparing_fallBack _) (sparing_ite (sparing_fallBack _) ?_)
  refine sparing_ite (sparing_onPatch _) ?_
  exact sparing_forM fun e => sparing_setAt e.1 e.2

theorem sparing_diffSequences (strategy : Strategy) :
    Sparing (diffSequences h strategy old new path) := by
  refine sparing_unlessEqual ?_
  cases strategy with
  | replace => exact sparing_replaceSequence
  | append => exact sparing_appendSequence
  | smart => exact sparing_smartSequence
  | merge => exact sparing_mergeSequence

end Sequences

/-! ### The comparison -/

theorem spares_keyPath (path : Label) (key : Value) : Spares (keyPath h o path key) := by
  unfold keyPath
  split
  · exact spares_error rfl
  · exact spares_ok _

theorem sparing_diffScalars (old new : Value) (path : Label) :
    Sparing (diffScalars h o old new path) := by
  refine sparing_unlessEqual ?_
  refine sparing_bind (sparing_ask (placeless_isZeroScalar _).spares) fun _ => ?_
  refine sparing_ite ?_ (sparing_onPatch _)
  cases o.zeros with
  | unset => exact sparing_onPatch _
  | ignore => exact sparing_log _ _
  | set => exact sparing_onPatch _

/-- A key leads on unless it is ignored. -/
theorem sparing_keyed {path : Label} {key : Value} {walk : Label → Walk Unit}
    (hw : ∀ l, Sparing (walk l)) : Sparing (ask (keyPath h o path key) >>= fun
      | none => pure ()
      | some subpath => walk subpath) := by
  refine sparing_bind (sparing_ask (spares_keyPath path key)) fun found => ?_
  cases found with
  | none => exact sparing_pure ()
  | some subpath => exact hw subpath

/-- The walks of a comparison that may take so many steps. -/
structure SparingWithin (h : Heap) (o : Options) (n : Nat) : Prop where
  values : ∀ old new path, Sparing (diffValues h o n old new path)
  pointers : ∀ old new path, Sparing (diffPointers h o n old new path)
  structs : ∀ old new path, Sparing (diffStructs h o n old new path)
  mappings : ∀ old new path, Sparing (diffMappings h o n old new path)
  addedFields : ∀ new path, Sparing (addStructFields h o n new path)
  added : ∀ v path, Sparing (diffAdded h o n v path)
  removedFields : ∀ old path, Sparing (unsetStructFields h o n old path)
  removed : ∀ v path, Sparing (diffRemoved h o n v path)

theorem sparingWithin_succ {n : Nat} (hn : SparingWithin h o n) : SparingWithin h o (n + 1) where
  values old new path := by
    rw [diffValues]
    refine sparing_ite (hn.pointers old new path) (sparing_ite (sparing_throw rfl) ?_)
    split
    · exact sparing_visiting (hn.structs old new path)
    · exact sparing_visiting (sparing_diffSequences _)
    · exact sparing_visiting (hn.mappings old new path)
    · exact sparing_diffScalars old new path
  pointers old new path := by
    rw [diffPointers]
    refine sparing_ite (sparing_pure ()) (sparing_ite ?_ (sparing_ite ?_ (hn.values old new path)))
    · exact sparing_ite (hn.addedFields new path) (sparing_onPatch _)
    · exact sparing_ite (hn.removedFields old path) (sparing_onPatch _)
  structs old new path := by
    rw [diffStructs]
    exact sparing_bind (sparing_ask (placeless_activeFields old new path).spares)
      fun fs => sparing_forM fun f => hn.values _ _ _
  mappings old new path := by
    rw [diffMappings]
    refine sparing_bind (sparing_ask (placeless_entriesOf old).spares) fun as => ?_
    refine sparing_bind (sparing_ask (placeless_entriesOf new).spares) fun bs => ?_
    refine sparing_bind (sparing_ask (placeless_unionKeys as bs).spares) fun keys => ?_
    refine sparing_forM fun key => sparing_keyed fun subpath => ?_
    refine sparing_bind (sparing_ask (placeless_valueUnder key as).spares) fun x => ?_
    exact sparing_bind (sparing_ask (placeless_valueUnder key bs).spares) fun y => hn.values x y subpath
  addedFields new path := by
    rw [addStructFields]
    exact sparing_visiting (sparing_bind (sparing_ask (placeless_activeFields new .nil path).spares)
      fun fs => sparing_forM fun f => hn.added _ _)
  added v path := by
    rw [diffAdded]
    refine sparing_ite (sparing_pure ()) (sparing_ite (hn.addedFields v path) ?_)
    split
    · exact sparing_onPatch _
    · exact hn.values _ v path
  removedFields old path := by
    rw [unsetStructFields]
    exact sparing_visiting (sparing_bind (sparing_ask (placeless_activeFields old .nil path).spares)
      fun fs => sparing_forM fun f => hn.removed _ _)
  removed v path := by
    rw [diffRemoved]
    refine sparing_bind (sparing_ask (placeless_isZero v).spares) fun _ => ?_
    refine sparing_ite (sparing_pure ()) (sparing_ite (hn.removedFields v path) ?_)
    split
    · exact sparing_forM fun e => sparing_keyed fun subpath => hn.values e.2 .nil subpath
    · exact sparing_onPatch _

theorem sparingWithin (h : Heap) (o : Options) (n : Nat) : SparingWithin h o n := by
  induction n with
  | zero =>
    constructor
    all_goals
      intros
      exact sparing_throw rfl
  | succ n ih => exact sparingWithin_succ ih

/-! ### The whole comparison -/

theorem sparing_trackMark (isOld : Bool) (path : String) (mark : Mark) :
    Sparing (trackMark isOld path mark) := by
  have hget : Sparing (get : Walk State) := fun s => spares_ok s
  have hset : ∀ t : State, Sparing (MonadStateOf.set t : Walk Unit) := fun _ _ => spares_ok ()
  refine sparing_bind hget fun s => sparing_ite (sparing_pure false) ?_
  exact sparing_bind (hset _) fun _ => sparing_pure true

theorem sparing_trackWithin (isOld : Bool) (n : Nat) (v : Value) (path : String) :
    Sparing (trackWithin h isOld n v path) := by
  induction n generalizing v path with
  | zero => exact sparing_throw rfl
  | succ n ih =>
    have hparts : ∀ fresh : Bool, Sparing (if fresh = true then
        (trackedParts h v path).forM fun part => trackWithin h isOld n part.1 part.2
        else pure ()) := fun _ =>
      sparing_ite (sparing_forM fun part => ih part.1 part.2) (sparing_pure ())
    rw [trackWithin]
    split
    · split
      · exact sparing_bind (sparing_trackMark isOld path _) hparts
      · exact sparing_bind (sparing_pure true) hparts
    · exact sparing_bind (sparing_pure true) hparts

theorem sparing_prepare (h : Heap) (o : Options) (old new : Value) :
    Sparing (prepare h o old new) := by
  refine sparing_ite ?_ (sparing_pure ())
  refine sparing_bind (sparing_trackWithin true _ _ _) fun _ => ?_
  refine sparing_bind (sparing_trackWithin false _ _ _) fun _ => ?_
  exact fun _ => spares_ok ()

theorem sparing_compare (h : Heap) (o : Options) (old new : Value) :
    Sparing (compare h o old new (.plain "")) :=
  (sparingWithin h o _).values old new (.plain "")

theorem sharedIn_isFlaw {s : State} {fault : Fault} (hs : sharedIn o s = some fault) :
    fault.isFlaw = false := by
  unfold sharedIn at hs
  split at hs
  · obtain ⟨found, _, rfl⟩ := Option.map_eq_some_iff.mp hs
    rfl
  · cases hs

/-- **A comparison never ends with the flaw of a patch.** -/
theorem spares_diff (h : Heap) (o : Options) (old new : Value) : Spares (diff h o old new).1 := by
  by_cases hc : Comparable h old new
  swap
  · obtain ⟨e, he, hrun⟩ := diffWalk_refuses hc
    rw [diff, hrun]
    rcases he with rfl | ⟨c, d, rfl⟩
    · exact spares_error rfl
    · exact spares_error rfl
  have hanswer : (diff h o old new).1 = ((diffWalk h o old new).run .start).1 := rfl
  rcases hu : (prepare h o old new).run .start with ⟨e | _, u⟩
  · have hfails : (diff h o old new).1 = .error e := by
      rw [hanswer, diffWalk_eq hc, run_bind, hu]
    have hspares := sparing_prepare h o old new .start
    rw [hu] at hspares
    rw [hfails]
    exact spares_error (hspares e rfl)
  rcases ht : (compare h o old new (.plain "")).run u with ⟨e | _, t⟩
  · have hfails : (diff h o old new).1 = .error e := by
      rw [hanswer, diffWalk_eq hc, run_bind_eq hu, run_bind, ht]
    have hspares := sparing_compare h o old new u
    rw [ht] at hspares
    rw [hfails]
    exact spares_error (hspares e rfl)
  · rw [diff_of_run hc hu ht]
    cases hs : sharedIn o t with
    | none => exact spares_ok _
    | some fault => exact spares_error (sharedIn_isFlaw hs)

/-- **What is recorded is a patch.** The map of a patch that any run of calls with filters that are
maps made passes the check; rebuilding it gives that very patch, which is equal to itself as soon
as the values it was given match themselves. So no comparison is refused for the patch it makes:
none ends with the flaw of a patch, and one whose walks end records what passes the check. -/
theorem recorded_rebuilds (h : Heap) (calls : List Patch.Call)
    (hf : ∀ f, .filter f ∈ calls → (h.mapEntries? f).isSome) :
    Patch.check h (Patch.run h .empty calls).toMap = .ok () ∧
    Patch.ofMap h (Patch.run h .empty calls).toMap = .ok (Patch.run h .empty calls) ∧
    ((∀ c ∈ calls, ∀ v ∈ c.values, h.matching v v = .ok true) →
      Patch.same h (Patch.run h .empty calls) (Patch.run h .empty calls) = .ok true) ∧
    ∀ (o : Options) (old new : Value),
      (∀ flaw, (diff h o old new).1 ≠ .error (.badPatch flaw)) ∧
      ∀ u t, (prepare h o old new).run .start = (.ok (), u) →
        (compare h o old new (.plain "")).run u = (.ok (), t) →
        Patch.check h t.patch.toMap = .ok () := by
  have hformed := Patch.formed_recorded hf
  refine ⟨Patch.check_formed hformed, Patch.ofMap_toMap hformed, Patch.same_recorded hf,
    fun o old new => ⟨fun flaw he => ?_, fun u t hu ht => ?_⟩⟩
  · cases spares_diff h o old new _ he
  · obtain ⟨cs, _, hrecords, _⟩ := run_compare hu ht
    exact check_changes hrecords

/-- A NaN, a text, a map from the text to the NaN, and the name of a rename operator. -/
def readings : Heap := ⟨#[.float none .nan, .text none "low", .map none [(2, 1)], .text none "$rename"]⟩

/-- Calls on three paths, two of them on one; a rename is refused. -/
def readingCalls : List Patch.Call :=
  [.set (.plain "room.heat") (.ref 1), .push (.plain "log") [.ref 3, .ref 1], .filter (.ref 3),
    .add (.ref 4) (.plain "room") .nil, .unset (.plain "room.heat")]

theorem recorded_rebuilds_readings :
    (∀ f, .filter f ∈ readingCalls → (readings.mapEntries? f).isSome) ∧
    (∀ c ∈ readingCalls, ∀ v ∈ c.values, readings.matching v v = .ok true) ∧
    (Patch.run readings .empty readingCalls).paths = ["log", "room.heat"] ∧
    Patch.check readings (Patch.run readings .empty readingCalls).toMap = .ok () ∧
    Patch.same readings (Patch.run readings .empty readingCalls)
      (Patch.run readings .empty readingCalls) = .ok true := by
  have hfilters : ∀ f, .filter f ∈ readingCalls → (readings.mapEntries? f).isSome := by
    intro f hf
    simp only [readingCalls, List.mem_cons, reduceCtorEq, Patch.Call.filter.injEq, List.not_mem_nil,
      or_false, false_or] at hf
    rw [hf]
    rfl
  have hown : ∀ c ∈ readingCalls, ∀ v ∈ c.values, readings.matching v v = .ok true := by
    intro c hc v hv
    simp only [readingCalls, List.mem_cons, List.not_mem_nil, or_false] at hc
    rcases hc with rfl | rfl | rfl | rfl | rfl
    all_goals
      simp only [Patch.Call.values, List.mem_cons, List.not_mem_nil, or_false] at hv
    · rw [hv]
      exact matching_ref 1
    · rcases hv with rfl | rfl <;> exact matching_ref _
    · rw [hv]
      exact matching_ref 3
    · rw [hv]
      rfl
  obtain ⟨hcheck, _, hsame, _⟩ := recorded_rebuilds readings readingCalls hfilters
  exact ⟨hfilters, hown, rfl, hcheck, hsame hown⟩

end Diff
end DocDelta
