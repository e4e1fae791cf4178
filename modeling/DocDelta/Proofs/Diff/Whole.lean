import DocDelta.Proofs.Diff.Recorded
import DocDelta.Proofs.Diff.Trace
import DocDelta.Proofs.Patch.Checked

/-! The whole comparison, from the values to the patch.

Around the comparison of the two values stand the search for shared references, which records
nothing, and the checks of what came out. The patch of a comparison always passes its check, so
`diff_eq_ok` says of every comparison that succeeds, and only of these, how its parts end. -/
namespace DocDelta.Diff
open Heap Patch
variable {h : Heap} {o : Options} {old new : Value}

/-! ### The parts -/

/-- Two values that are compared at all: not two nothings, and not of two classes. -/
def Comparable (h : Heap) (old new : Value) : Prop :=
  ¬ ((h.view old).isNil && (h.view new).isNil) = true ∧
  ¬ (!(h.view old).isNil && !(h.view new).isNil && (h.view old).cls ≠ (h.view new).cls) = true

/-- What comes before the comparison. -/
def prepare (h : Heap) (o : Options) (old new : Value) : Walk Unit :=
  if o.detectsSharing then trackRoots h old new else pure ()

/-- What comes after the comparison. -/
def conclude (h : Heap) (o : Options) : Walk Patch := do
  if o.detectsSharing then
    if let some fault := sharingFault (← get) then
      log .warning ((fault.message? h).getD "")
      throw fault
  let patch := (← get).patch
  ask (Patch.check h patch.toMap)
  return patch

theorem diffWalk_eq (hc : Comparable h old new) :
    diffWalk h o old new = prepare h o old new >>= fun _ =>
      compare h o old new (.plain "") >>= fun _ => conclude h o := by
  unfold diffWalk prepare conclude
  simp only [if_neg hc.1, if_neg hc.2]
  split <;> rfl

theorem diffWalk_refuses (hc : ¬ Comparable h old new) :
    ∃ e, (e = .nothingToCompare ∨ ∃ c d, e = .classMismatch (.plain "") c d) ∧
      ∀ (o : Options) (s : State), (diffWalk h o old new).run s = (.error e, s) := by
  unfold diffWalk
  by_cases hn : ((h.view old).isNil && (h.view new).isNil) = true
  · exact ⟨_, .inl rfl, fun o s => by simp only [if_pos hn]; rfl⟩
  · by_cases hcls : (!(h.view old).isNil && !(h.view new).isNil &&
        (h.view old).cls ≠ (h.view new).cls) = true
    · exact ⟨_, .inr ⟨_, _, rfl⟩, fun o s => by simp only [if_neg hn, if_pos hcls]; rfl⟩
    · exact absurd ⟨hn, hcls⟩ hc

/-- The failure that ends a comparison which looks for shared references. -/
def sharedIn (o : Options) (s : State) : Option Fault :=
  if o.detectsSharing then sharingFault s else none

theorem sharedIn_detected (hd : o.detectsSharing = true) (s : State) : sharedIn o s =
    (findShared s.old s.new).map fun (mark, path, oldPath) =>
      .sharedReference path (mark.getD 0) oldPath := by
  rw [sharedIn, if_pos hd, sharingFault]

/-- A comparison is concluded with that failure, or with the patch unless it is refused. -/
theorem run_conclude (s : State) : ((conclude h o).run s).1 = match sharedIn o s with
    | some fault => .error fault
    | none => (Patch.check h s.patch.toMap).map fun _ => s.patch := by
  have hchecked : ∀ t : State, ((ask (Patch.check h t.patch.toMap) >>= fun _ =>
      (pure t.patch : Walk Patch)).run t).1 = (Patch.check h t.patch.toMap).map fun _ => t.patch := by
    intro t
    rw [run_bind, run_ask]
    cases Patch.check h t.patch.toMap <;> rfl
  unfold conclude sharedIn
  cases o.detectsSharing with
  | false => exact hchecked s
  | true =>
    rw [if_pos rfl, if_pos rfl, run_bind]
    have hget : (get : Walk State).run s = (.ok s, s) := rfl
    rw [hget]
    dsimp only
    cases sharingFault s with
    | none => exact hchecked s
    | some fault => rfl

/-! ### The search for shared references -/

/-- A walk that leaves the patch, the labels and the pairs under comparison alone. -/
def Keeps {α : Type} (m : Walk α) : Prop :=
  ∀ s, (m.run s).2.patch = s.patch ∧ (m.run s).2.labels = s.labels ∧ (m.run s).2.active = s.active

section Keeps
variable {α β : Type}

theorem keeps_pure (a : α) : Keeps (pure a) := fun _ => ⟨rfl, rfl, rfl⟩

theorem keeps_bind {m : Walk α} {f : α → Walk β} (hm : Keeps m) (hf : ∀ a, Keeps (f a)) :
    Keeps (m >>= f) := by
  intro s
  rw [run_bind]
  obtain ⟨hpatch, hlabels, hactive⟩ := hm s
  rcases hr : m.run s with ⟨e | a, t⟩
  · rw [hr] at hpatch hlabels hactive
    exact ⟨hpatch, hlabels, hactive⟩
  · rw [hr] at hpatch hlabels hactive
    obtain ⟨hpatch', hlabels', hactive'⟩ := hf a t
    exact ⟨hpatch'.trans hpatch, hlabels'.trans hlabels, hactive'.trans hactive⟩

theorem keeps_forM {f : α → Walk Unit} {xs : List α} (hf : ∀ x, Keeps (f x)) : Keeps (xs.forM f) := by
  induction xs with
  | nil => exact keeps_pure ()
  | cons x xs ih => exact keeps_bind (hf x) fun _ => ih

theorem keeps_trackMark (isOld : Bool) (path : String) (mark : Mark) :
    Keeps (trackMark isOld path mark) := by
  intro s
  unfold trackMark
  rw [run_bind]
  have hget : (get : Walk State).run s = (.ok s, s) := rfl
  rw [hget]
  dsimp only
  cases isOld
  all_goals
    simp only [if_true, if_false, Bool.false_eq_true]
    split <;> exact ⟨rfl, rfl, rfl⟩

theorem keeps_trackWithin (isOld : Bool) (n : Nat) (v : Value) (path : String) :
    Keeps (trackWithin h isOld n v path) := by
  induction n generalizing v path with
  | zero => exact fun _ => ⟨rfl, rfl, rfl⟩
  | succ n ih =>
    have hparts : ∀ fresh : Bool, Keeps (if fresh = true then
        (trackedParts h v path).forM fun part => trackWithin h isOld n part.1 part.2
        else pure ()) := by
      intro fresh
      split
      · exact keeps_forM fun part => ih part.1 part.2
      · exact keeps_pure ()
    rw [trackWithin]
    split
    · split
      · exact keeps_bind (keeps_trackMark isOld path _) hparts
      · exact keeps_bind (keeps_pure true) hparts
    · exact keeps_bind (keeps_pure true) hparts

theorem keeps_prepare : Keeps (prepare h o old new) := by
  unfold prepare trackRoots
  split
  · refine keeps_bind (keeps_trackWithin true _ _ _) fun _ =>
      keeps_bind (keeps_trackWithin false _ _ _) fun _ => ?_
    exact fun _ => ⟨rfl, rfl, rfl⟩
  · exact keeps_pure ()

end Keeps

/-- The comparison starts with nothing recorded. -/
theorem prepare_start {u : State} (hu : (prepare h o old new).run .start = (.ok (), u)) :
    u.patch = .empty ∧ u.labels = 0 ∧ u.active = [] := by
  have hkeeps := (keeps_prepare : Keeps (prepare h o old new)) .start
  rw [hu] at hkeeps
  exact hkeeps

/-! ### The patch -/

/-- The filters of changes are maps. -/
theorem filtersFrom_maps {cs : List Change} {n : Nat} :
    ∀ f ∈ filtersFrom n cs, (h.mapEntries? f).isSome := by
  induction cs generalizing n with
  | nil => exact nofun
  | cons c cs ih =>
    intro f hf
    rcases List.mem_append.mp hf with hf | hf
    · cases c with
      | whole path action => cases hf
      | item path index v =>
        rw [List.mem_singleton.mp hf]
        rfl
    · exact ih f hf

/-- A patch made by changes is as recording leaves it. -/
theorem formed_changes {cs : List Change} {p : Patch} {n : Nat}
    (hp : (p, n) = replayAll (.plain "") cs (.empty, 0)) : Formed h p := by
  obtain ⟨hrecords, hfilters⟩ := accumulates_changes hp
  exact formed_of_accumulates hrecords (by rw [hfilters]; exact filtersFrom_maps)

/-- A patch made by changes passes its check. -/
theorem check_changes {cs : List Change} {p : Patch} {n : Nat}
    (hp : (p, n) = replayAll (.plain "") cs (.empty, 0)) : Patch.check h p.toMap = .ok () :=
  check_formed (formed_changes hp)

theorem run_compare {u t : State} (hu : (prepare h o old new).run .start = (.ok (), u))
    (ht : (compare h o old new (.plain "")).run u = (.ok (), t)) :
    ∃ cs, Yields h o (.compare old new) (.plain "") cs ∧
      (t.patch, t.labels) = replayAll (.plain "") cs (.empty, 0) ∧ t.old = u.old ∧ t.new = u.new := by
  obtain ⟨cs, hy, hs⟩ := yields_compare ht
  obtain ⟨hpatch, hlabels, _⟩ := prepare_start hu
  refine ⟨cs, hy, ?_, hs.old, hs.new⟩
  rw [← hpatch, ← hlabels]
  exact hs.records

/-- How a comparison ends whose parts succeed. -/
theorem diff_of_run (hc : Comparable h old new) {u t : State}
    (hu : (prepare h o old new).run .start = (.ok (), u))
    (ht : (compare h o old new (.plain "")).run u = (.ok (), t)) :
    (diff h o old new).1 = match sharedIn o t with
      | some fault => .error fault
      | none => .ok t.patch := by
  obtain ⟨cs, _, hrecords, _, _⟩ := run_compare hu ht
  have hrun : (diffWalk h o old new).run .start = (conclude h o).run t := by
    rw [diffWalk_eq hc, run_bind_eq hu, run_bind_eq ht]
  show ((diffWalk h o old new).run .start).1 = _
  rw [hrun, run_conclude, check_changes hrecords]
  rfl

/-- **When a comparison makes a patch**: its parts succeed, and no shared reference ends it. -/
theorem diff_eq_ok {p : Patch} : (diff h o old new).1 = .ok p ↔ Comparable h old new ∧
    ∃ u t, (prepare h o old new).run .start = (.ok (), u) ∧
      (compare h o old new (.plain "")).run u = (.ok (), t) ∧ sharedIn o t = none ∧ p = t.patch := by
  constructor
  · intro hd
    have hc : Comparable h old new := by
      by_contra hc
      obtain ⟨e, _, he⟩ := diffWalk_refuses hc
      rw [diff, he] at hd
      cases hd
    have hrun : (diffWalk h o old new).run .start = (.ok p, ((diffWalk h o old new).run .start).2) :=
      Prod.ext hd rfl
    rw [diffWalk_eq hc] at hrun
    obtain ⟨_, u, hu, hrun⟩ := run_bind_ok hrun
    obtain ⟨_, t, ht, _⟩ := run_bind_ok hrun
    rw [diff_of_run hc hu ht] at hd
    refine ⟨hc, u, t, hu, ht, ?_⟩
    cases hs : sharedIn o t with
    | some fault =>
      rw [hs] at hd
      cases hd
    | none =>
      rw [hs] at hd
      cases hd
      exact ⟨rfl, rfl⟩
  · rintro ⟨hc, u, t, hu, ht, hs, rfl⟩
    rw [diff_of_run hc hu ht, hs]

/-- **A patch is the replay of what the comparison of the two values yields.** -/
theorem yields_diff {p : Patch} {messages : List Message}
    (hd : diff h o old new = (.ok p, messages)) :
    ∃ cs n, Yields h o (.compare old new) (.plain "") cs ∧
      (p, n) = replayAll (.plain "") cs (.empty, 0) := by
  obtain ⟨_, u, t, hu, ht, _, rfl⟩ := diff_eq_ok.mp (congrArg Prod.fst hd)
  obtain ⟨cs, hy, hrecords, _⟩ := run_compare hu ht
  exact ⟨cs, t.labels, hy, hrecords⟩

/-- **Comparisons that end alike make patches alike**, or are refused alike. -/
theorem diff_abreast {o' : Options} {R : List Change → List Change → Prop}
    (hm : Abreast False (.plain "") R (compare h o old new (.plain ""))
      (compare h o' old new (.plain "")))
    (hs : o'.detectsSharing = o.detectsSharing) :
    (∃ e, (diff h o old new).1 = .error e ∧ (diff h o' old new).1 = .error e) ∨
    ∃ p p' cs ds n n', (diff h o old new).1 = .ok p ∧ (diff h o' old new).1 = .ok p' ∧ R cs ds ∧
      (p, n) = replayAll (.plain "") cs (.empty, 0) ∧
      (p', n') = replayAll (.plain "") ds (.empty, 0) := by
  have hanswer : ∀ o, (diff h o old new).1 = ((diffWalk h o old new).run .start).1 := fun _ => rfl
  by_cases hc : Comparable h old new
  swap
  · obtain ⟨e, _, he⟩ := diffWalk_refuses hc
    exact .inl ⟨e, by rw [hanswer, he], by rw [hanswer, he]⟩
  have hprepare : prepare h o' old new = prepare h o old new := by
    unfold prepare
    rw [hs]
  rcases hu : (prepare h o old new).run .start with ⟨e | _, u⟩
  · exact .inl ⟨e, by rw [hanswer, diffWalk_eq hc, run_bind, hu],
      by rw [hanswer, diffWalk_eq hc, hprepare, run_bind, hu]⟩
  have hend := hm u u rfl
  generalize hr : (compare h o old new (.plain "")).run u = r at hend
  generalize hr' : (compare h o' old new (.plain "")).run u = r' at hend
  cases hend with
  | @records cs ds t t' hR ht ht' =>
    have hshared : sharedIn o' t' = sharedIn o t := by
      unfold sharedIn sharingFault
      rw [hs, ht.old, ht.new, ht'.old, ht'.new]
    rw [diff_of_run hc hu hr, diff_of_run hc (hprepare ▸ hu) hr', hshared]
    cases sharedIn o t with
    | some fault => exact .inl ⟨fault, rfl, rfl⟩
    | none =>
      obtain ⟨hpatch, hlabels, _⟩ := prepare_start hu
      have hrecords := ht.records
      have hrecords' := ht'.records
      rw [Records, hpatch, hlabels] at hrecords hrecords'
      exact .inr ⟨_, _, cs, ds, _, _, rfl, rfl, hR, hrecords, hrecords'⟩
  | @fault e t t' =>
    refine .inl ⟨e, ?_, ?_⟩
    · rw [hanswer, diffWalk_eq hc, run_bind_eq hu, run_bind, hr]
    · rw [hanswer, diffWalk_eq hc, hprepare, run_bind_eq hu, run_bind, hr']
  | first hl => exact hl.elim
  | second hl => exact hl.elim

/-- A comparison that was evaluated to a patch. -/
theorem diff_of_toOption {p : Patch} (hp : (diff h o old new).1.toOption = some p) :
    ∃ messages, diff h o old new = (.ok p, messages) := ⟨_, Prod.ext (ok_of_toOption hp) rfl⟩

/-- **Comparisons abreast that both succeed make patches of changes that are related**, in two
heaps and under two options. -/
theorem diff_abreast_ok {lax : Prop} {h' : Heap} {o' : Options} {R : List Change → List Change → Prop}
    (hm : Abreast lax (.plain "") R (compare h o old new (.plain ""))
      (compare h' o' old new (.plain ""))) {p p' : Patch}
    (hd : (diff h o old new).1 = .ok p) (hd' : (diff h' o' old new).1 = .ok p') :
    ∃ cs ds n n', R cs ds ∧ (p, n) = replayAll (.plain "") cs (.empty, 0) ∧
      (p', n') = replayAll (.plain "") ds (.empty, 0) := by
  obtain ⟨_, u, t, hu, ht, _, rfl⟩ := diff_eq_ok.mp hd
  obtain ⟨_, u', t', hu', ht', _, rfl⟩ := diff_eq_ok.mp hd'
  obtain ⟨hpatch, hlabels, hactive⟩ := prepare_start hu
  obtain ⟨hpatch', hlabels', hactive'⟩ := prepare_start hu'
  obtain ⟨cs, ds, hR, hs, hs'⟩ := hm.of_ok (hactive.trans hactive'.symm) ht ht'
  have hrecords := hs.records
  have hrecords' := hs'.records
  rw [Records, hpatch, hlabels] at hrecords
  rw [Records, hpatch', hlabels'] at hrecords'
  exact ⟨cs, ds, _, _, hR, hrecords, hrecords'⟩

end DocDelta.Diff
