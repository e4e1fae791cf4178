import DocDelta.Proofs.Diff.Lockstep
import DocDelta.Proofs.Value.Acyclic

/-! What becomes of a walk, said of every state with given pairs under comparison.

A walk `Succeeds` with certain changes, or it `Fails`; it `Skips` where a test says that there is
nothing to do. On values without cycles the pairs under comparison never matter: on the way down
no pair is met twice. -/
namespace DocDelta.Diff
open Heap

/-! ### Success and failure -/

/-- From any state with these pairs under comparison a walk succeeds, and records these changes. -/
def Succeeds (active : List (Mark × Mark)) (base : Label) (cs : List Change) (m : Walk Unit) :
    Prop :=
  ∀ s : State, s.active = active → ∃ t, m.run s = (.ok (), t) ∧ Leaves base cs s t

/-- From any state with these pairs under comparison a walk fails. -/
def Fails (active : List (Mark × Mark)) (m : Walk Unit) : Prop :=
  ∀ s : State, s.active = active → ∃ e t, m.run s = (.error e, t)

/-- The pairs under comparison inside a pair. -/
def entered (h : Heap) (old new : Value) (active : List (Mark × Mark)) : List (Mark × Mark) :=
  (pairOf h old new).toList ++ active

section Outcome
variable {h : Heap} {old new : Value} {path base : Label} {active : List (Mark × Mark)}
  {cs ds : List Change} {m k : Walk Unit}

theorem ask_ok {α β : Type} (a : α) (f : α → Walk β) : ask (.ok a) >>= f = f a := rfl

theorem succeeds_pure : Succeeds active base [] (pure ()) :=
  fun s _ => ⟨s, rfl, leaves_self base s⟩

theorem succeeds_onPatch {f : Patch → Patch} (hf : ∀ p n, (f p, n) = replayAll base cs (p, n)) :
    Succeeds active base cs (onPatch f) :=
  fun s _ => ⟨_, rfl, ⟨hf s.patch s.labels, rfl, rfl, rfl⟩⟩

theorem Succeeds.seq (hm : Succeeds active base cs m) (hk : Succeeds active base ds k) :
    Succeeds active base (cs ++ ds) (m >>= fun _ => k) := by
  intro s hs
  obtain ⟨t, hrun, ht⟩ := hm s hs
  obtain ⟨u, hrest, hu⟩ := hk t (ht.active.trans hs)
  exact ⟨u, (run_bind_eq hrun).trans hrest, ht.append hu⟩

theorem succeeds_forM_nil {α : Type} {xs : List α} {f : α → Walk Unit}
    (hf : ∀ x ∈ xs, Succeeds active base [] (f x)) : Succeeds active base [] (xs.forM f) := by
  induction xs with
  | nil => exact succeeds_pure
  | cons x xs ih =>
    rw [forM_cons]
    exact (hf x (List.mem_cons_self ..)).seq (ih fun y hy => hf y (List.mem_cons_of_mem x hy))

theorem Succeeds.under {l : Label} (hm : Succeeds active (joinPath base l) cs m) :
    Succeeds active base (cs.map (·.under l)) m := by
  intro s hs
  obtain ⟨t, hrun, ht⟩ := hm s hs
  exact ⟨t, hrun, ht.under⟩

/-- A pair that is not under comparison yet is entered. -/
theorem Succeeds.visiting (hnew : ∀ p, pairOf h old new = some p → p ∉ active)
    (hm : Succeeds (entered h old new active) base cs m) :
    Succeeds active base cs (visiting h old new path m) := by
  intro s hs
  rw [run_visiting]
  cases hp : pairOf h old new with
  | none =>
    rw [entered, hp] at hm
    exact hm s hs
  | some p =>
    rw [entered, hp] at hm
    obtain ⟨t, hrun, ht⟩ := hm { s with active := p :: s.active } (by rw [hs]; rfl)
    simp only
    rw [if_neg (by rw [hs, List.contains_iff_mem]; exact hnew p hp), hrun]
    exact ⟨_, rfl, ht.leave rfl⟩

theorem fails_ask {α : Type} (e : Fault) (f : α → Walk Unit) :
    Fails active (ask (.error e) >>= f) :=
  fun s _ => ⟨e, s, rfl⟩

theorem Fails.left (hm : Fails active m) : Fails active (m >>= fun _ => k) := by
  intro s hs
  obtain ⟨e, t, hrun⟩ := hm s hs
  exact ⟨e, t, by rw [run_bind, hrun]⟩

theorem Fails.right (hm : Succeeds active base cs m) (hk : Fails active k) :
    Fails active (m >>= fun _ => k) := by
  intro s hs
  obtain ⟨t, hrun, ht⟩ := hm s hs
  obtain ⟨e, u, hrest⟩ := hk t (ht.active.trans hs)
  exact ⟨e, u, (run_bind_eq hrun).trans hrest⟩

theorem Fails.visiting (hm : Fails (entered h old new active) m) :
    Fails active (visiting h old new path m) := by
  intro s hs
  rw [run_visiting]
  cases hp : pairOf h old new with
  | none =>
    rw [entered, hp] at hm
    exact hm s hs
  | some p =>
    rw [entered, hp] at hm
    obtain ⟨e, t, hrun⟩ := hm { s with active := p :: s.active } (by rw [hs]; rfl)
    simp only
    split
    · exact ⟨_, _, rfl⟩
    · rw [hrun]
      exact ⟨e, _, rfl⟩

/-- A pair with a value in place is not entered. -/
theorem visiting_inline {z : Object Value} (hz : z ≠ .nil) :
    visiting h (.inline z) new path m = m := by
  have hp : pairOf h (.inline z) new = none := by
    cases z <;> first | rfl | exact absurd rfl hz
  unfold visiting
  rw [hp]
  rfl

end Outcome

/-! ### The way down -/

section Way
variable {h : Heap} {v w u : Value} {active : List (Mark × Mark)}

theorem rank_link (hv : h.Acyclic v) (hl : h.Link v w) : rank h w < rank h v := by
  rcases hl.below with rfl | hw
  · rw [rank_nil]
    exact rank_pos hl.view_ne_nil
  · exact hv.rank_below hw

/-- A value that is not met among the pairs is entered. -/
theorem pair_fresh (hu : Untouched h (active.map (·.1)) v) (hn : h.view v ≠ .nil) :
    ∀ p, pairOf h v u = some p → p ∉ active := by
  intro p hp hin
  exact hu v p.1 .refl hn (pairOf_eq_some hp).1 (List.mem_map_of_mem hin)

/-- Nothing below an entered value is met among the pairs. -/
theorem untouched_entered (hu : Untouched h (active.map (·.1)) v) (hv : h.Acyclic v)
    (hl : h.Link v w) : Untouched h ((entered h v u active).map (·.1)) w := by
  rcases hl.below with rfl | hw
  · exact untouched_empty rfl
  · rw [entered]
    cases hp : pairOf h v u with
    | none => exact hu.of_within hw.to_reflTransGen
    | some p => exact hu.cons hv (pairOf_eq_some hp).1 hw

/-- No object within a value is under comparison with nothing. -/
def Unmet (h : Heap) (active : List (Mark × Mark)) (v : Value) : Prop :=
  ∀ w m, h.Within v w → h.view w ≠ .nil → w.identity h = some m → (m, none) ∉ active

theorem Unmet.link (hu : Unmet h active v) (hl : h.Link v w) : Unmet h active w := by
  rcases hl.below with rfl | hw
  · intro u m hu hn
    rw [within_nil hu] at hn
    exact absurd rfl hn
  · exact fun u m hwu => hu u m (hw.to_reflTransGen.trans hwu)

theorem Unmet.fresh (hu : Unmet h active v) (hn : h.view v ≠ .nil) :
    ∀ p, pairOf h v .nil = some p → p ∉ active := by
  intro p hp hin
  obtain ⟨hv, hnone⟩ := pairOf_eq_some hp
  obtain ⟨m, k⟩ := p
  cases hnone
  exact hu v m .refl hn hv hin

/-- Nothing below a value that was entered beside nothing is met. -/
theorem Unmet.enter (hu : Unmet h active v) (hv : h.Acyclic v) (hl : h.Link v w) :
    Unmet h (entered h v .nil active) w := by
  rcases hl.below with rfl | hw
  · intro u m hu hn
    rw [within_nil hu] at hn
    exact absurd rfl hn
  · intro u m hwu hn hm hin
    rcases List.mem_append.mp hin with hin | hin
    · have hp := pairOf_eq_some (Option.mem_toList.mp hin)
      exact hv.identity_below hp.1 hw hwu hn hm
    · exact hu u m (hw.to_reflTransGen.trans hwu) hn hm hin

/-- Only objects are under comparison with one another, and nothing within a value is. -/
structure Ahead (h : Heap) (active : List (Mark × Mark)) (v : Value) : Prop where
  untouched : Untouched h (active.map (·.1)) v
  objects : ∀ p ∈ active, p.2 ≠ none

theorem ahead_start (v : Value) : Ahead h [] v := ⟨untouched_nil v, nofun⟩

theorem Ahead.unmet (ha : Ahead h active u) : Unmet h active v :=
  fun _ _ _ _ _ hin => ha.objects _ hin rfl

/-- Below two objects that were entered nothing is met either. -/
theorem Ahead.enter (ha : Ahead h active v) (hv : h.Acyclic v) (hn : h.view u ≠ .nil)
    (hl : w = .nil ∨ h.Link v w) : Ahead h (entered h v u active) w := by
  refine ⟨?_, fun p hp hnone => ?_⟩
  · rcases hl with rfl | hl
    · exact untouched_empty rfl
    · exact untouched_entered ha.untouched hv hl
  · rcases List.mem_append.mp hp with hp | hp
    · obtain ⟨a, _, ha, _⟩ := identity_eq_some hn (pairOf_eq_some (Option.mem_toList.mp hp)).2
      rw [hnone] at ha
      cases ha
    · exact ha.objects p hp hnone

theorem rank_below (hv : h.Acyclic v) (hn : h.view v ≠ .nil) (hl : w = .nil ∨ h.Link v w) :
    rank h w < rank h v := by
  rcases hl with rfl | hl
  · rw [rank_nil]
    exact rank_pos hn
  · exact rank_link hv hl

end Way

/-! ### Nothing to do -/

/-- A walk that does nothing where a test says so, and fails where the test does. -/
structure Skips (active : List (Mark × Mark)) (base : Label) (x : Except Fault Bool)
    (m : Walk Unit) : Prop where
  nothing : x = .ok true → Succeeds active base [] m
  fault : ∀ e, x = .error e → Fails active m

section Skips
variable {h : Heap} {v : Value} {path base : Label} {active : List (Mark × Mark)}
  {x : Except Fault Bool} {m : Walk Unit}

theorem skips_pure (hx : x = .ok true) : Skips active base x (pure ()) :=
  ⟨fun _ => succeeds_pure, fun e he => by rw [hx] at he; cases he⟩

theorem skips_false : Skips active base (.ok false) m where
  nothing ht := by cases ht
  fault e he := by cases he

theorem skips_ask : Skips active base x (ask x >>= fun zero => if zero then pure () else m) where
  nothing hx := by
    rw [hx]
    exact succeeds_pure
  fault e hx := by
    rw [hx]
    exact fails_ask e _

theorem Skips.under {l : Label} (hm : Skips active (joinPath base l) x m) : Skips active base x m :=
  ⟨fun hx => (hm.nothing hx).under, hm.fault⟩

theorem Skips.visiting (hnew : ∀ p, pairOf h v .nil = some p → p ∉ active)
    (hm : Skips (entered h v .nil active) base x m) :
    Skips active base x (visiting h v .nil path m) :=
  ⟨fun hx => (hm.nothing hx).visiting hnew, fun e he => (hm.fault e he).visiting⟩

/-- Steps are skipped where the test of each is, one after another. -/
theorem skips_forM {α : Type} {xs : List α} {test : α → Except Fault Bool} {f : α → Walk Unit}
    (hf : ∀ a ∈ xs, Skips active base (test a) (f a)) :
    Skips active base (allHold test xs) (xs.forM f) := by
  induction xs with
  | nil => exact skips_pure rfl
  | cons a xs ih =>
    have ha := hf a (List.mem_cons_self ..)
    have ih := ih fun b hb => hf b (List.mem_cons_of_mem a hb)
    rw [forM_cons, allHold]
    cases hx : test a with
    | error e =>
      refine ⟨fun ht => ?_, fun _ _ => (ha.fault e hx).left⟩
      cases ht
    | ok holds =>
      cases holds with
      | false => exact skips_false
      | true =>
        have hnothing := ha.nothing hx
        exact ⟨fun hrest => hnothing.seq (ih.nothing hrest),
          fun e hrest => .right hnothing (ih.fault e hrest)⟩

/-- Steps may be left out where every test can be told. -/
theorem skips_filter {α : Type} {xs : List α} {test : α → Except Fault Bool} {f : α → Walk Unit}
    {kept : α → Bool} (ht : (∀ a ∈ xs, kept a = true) ∨ Answers (allHold test xs))
    (hf : ∀ a ∈ xs, Skips active base (test a) (f a)) :
    Skips active base (allHold test xs) ((xs.filter kept).forM f) := by
  rcases ht with hkept | ⟨_, ht⟩
  · rw [List.filter_eq_self.mpr hkept]
    exact skips_forM hf
  · refine ⟨fun htrue => succeeds_forM_nil fun a ha => ?_, fun e he => ?_⟩
    · have hmem := (List.mem_filter.mp ha).1
      exact (hf a hmem).nothing (allHold_eq_true.mp htrue a hmem)
    · rw [ht] at he
      cases he

end Skips

end DocDelta.Diff
