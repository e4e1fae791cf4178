import DocDelta.Proofs.Diff.Changes
import DocDelta.Proofs.Diff.Run

/-! Two walks in step.

A walk records changes relative to its place, and what it records does not depend on the patch,
the labels or the log that it finds, only on the pairs under comparison. `InStep` is said of two
walks: whenever the first succeeds the second does, from any state with the same pairs, and what
both recorded is related. It passes through every way of putting walks together. -/
namespace DocDelta.Diff
open Heap

/-! ### What a walk leaves behind -/

/-- The changes lead from one state's patch and labels to those of another. -/
def Records (base : Label) (cs : List Change) (s t : State) : Prop :=
  (t.patch, t.labels) = replayAll base cs (s.patch, s.labels)

theorem Records.append {base : Label} {cs ds : List Change} {s t u : State}
    (hc : Records base cs s t) (hd : Records base ds t u) : Records base (cs ++ ds) s u := by
  rw [Records, replayAll_append, ← hc]
  exact hd

theorem Records.under {base l : Label} {cs : List Change} {s t : State}
    (hc : Records (joinPath base l) cs s t) : Records base (cs.map (·.under l)) s t := by
  rw [Records, replayAll_under]
  exact hc

/-- A walk recorded changes and left the pairs under comparison and the references alone. -/
structure Leaves (base : Label) (cs : List Change) (s t : State) : Prop where
  records : Records base cs s t
  active : t.active = s.active
  old : t.old = s.old
  new : t.new = s.new

theorem leaves_self (base : Label) (s : State) : Leaves base [] s s := ⟨rfl, rfl, rfl, rfl⟩

theorem Leaves.append {base : Label} {cs ds : List Change} {s t u : State}
    (hc : Leaves base cs s t) (hd : Leaves base ds t u) : Leaves base (cs ++ ds) s u :=
  ⟨hc.records.append hd.records, hd.active.trans hc.active, hd.old.trans hc.old, hd.new.trans hc.new⟩

theorem Leaves.under {base l : Label} {cs : List Change} {s t : State}
    (hc : Leaves (joinPath base l) cs s t) : Leaves base (cs.map (·.under l)) s t :=
  ⟨hc.records.under, hc.active, hc.old, hc.new⟩

/-- What a walk left with a pair entered is left without it once the pair is taken out. -/
theorem Leaves.leave {base : Label} {cs : List Change} {s t : State} {pair : Mark × Mark}
    {active : List (Mark × Mark)} (ha : s.active = active)
    (hc : Leaves base cs { s with active := pair :: active } t) :
    Leaves base cs s { t with active := t.active.erase pair } where
  records := hc.records
  active := by rw [hc.active, List.erase_cons_head, ha]
  old := hc.old
  new := hc.new

/-! ### In step -/

/-- Whenever the first walk succeeds the second does, and what they record is related. -/
def InStep (base : Label) (R : List Change → List Change → Prop) (m m' : Walk Unit) : Prop :=
  ∀ s s' t, s.active = s'.active → m.run s = (.ok (), t) →
    ∃ t' cs ds, m'.run s' = (.ok (), t') ∧ R cs ds ∧ Leaves base cs s t ∧ Leaves base ds s' t'

section InStep
variable {base : Label} {R S : List Change → List Change → Prop} {m m' : Walk Unit}

theorem InStep.imp (hm : InStep base R m m') (hrs : ∀ cs ds, R cs ds → S cs ds) :
    InStep base S m m' := by
  intro s s' t ha hr
  obtain ⟨t', cs, ds, hr', hR, hs, hs'⟩ := hm s s' t ha hr
  exact ⟨t', cs, ds, hr', hrs cs ds hR, hs, hs'⟩

theorem inStep_pure (hR : R [] []) : InStep base R (pure ()) (pure ()) := by
  intro s s' t _ hr
  cases hr
  exact ⟨s', [], [], rfl, hR, leaves_self base s, leaves_self base s'⟩

theorem inStep_throw (e : Fault) : InStep base R (throw e) m' := by
  intro s s' t _ hr
  cases hr

theorem inStep_ask {α α' : Type} {x : Except Fault α} {x' : Except Fault α'} {f : α → Walk Unit}
    {f' : α' → Walk Unit}
    (hf : ∀ a, x = .ok a → ∃ a', x' = .ok a' ∧ InStep base R (f a) (f' a')) :
    InStep base R (ask x >>= f) (ask x' >>= f') := by
  intro s s' t ha hr
  obtain ⟨a, u, hm, hr⟩ := run_bind_ok hr
  cases hm
  obtain ⟨a', hx', hstep⟩ := hf a rfl
  rw [run_bind_eq (m := ask x') (by rw [run_ask, hx'])]
  exact hstep s s' t ha hr

theorem inStep_ite {c : Prop} [Decidable c] {k k' : Walk Unit} (hm : c → InStep base R m m')
    (hk : ¬ c → InStep base R k k') :
    InStep base R (if c then m else k) (if c then m' else k') := by
  split
  · exact hm ‹c›
  · exact hk ‹¬ c›

theorem inStep_visiting {h : Heap} {old new : Value} {path : Label} (hm : InStep base R m m') :
    InStep base R (visiting h old new path m) (visiting h old new path m') := by
  intro s s' t ha hr
  rw [run_visiting] at hr ⊢
  cases hp : pairOf h old new with
  | none =>
    rw [hp] at hr
    exact hm s s' t ha hr
  | some pair =>
    simp only [hp] at hr ⊢
    rw [← ha]
    split at hr
    · cases hr
    · rename_i hfresh
      rw [if_neg hfresh]
      rcases hb : m.run { s with active := pair :: s.active } with ⟨e | a, u⟩
      · rw [hb] at hr
        cases hr
      · rw [hb] at hr
        cases hr
        obtain ⟨u', cs, ds, hr', hR, hs, hs'⟩ :=
          hm { s with active := pair :: s.active } { s' with active := pair :: s.active } u rfl hb
        rw [hr']
        exact ⟨_, cs, ds, rfl, hR, hs.leave rfl, hs'.leave ha.symm⟩

/-- A walk further down, seen from above. -/
theorem InStep.under {l : Label} (hm : InStep (joinPath base l) R m m') :
    InStep base (fun cs ds => ∃ cs' ds', R cs' ds' ∧ cs = cs'.map (·.under l) ∧
      ds = ds'.map (·.under l)) m m' := by
  intro s s' t ha hr
  obtain ⟨t', cs, ds, hr', hR, hs, hs'⟩ := hm s s' t ha hr
  exact ⟨t', _, _, hr', ⟨cs, ds, hR, rfl, rfl⟩, hs.under, hs'.under⟩

/-- Where the second walk does nothing instead, it records nothing. -/
theorem InStep.skip (hm : InStep base R m m') :
    InStep base (fun cs ds => ds = [] ∧ ∃ ds', R cs ds') m (pure ()) := by
  intro s s' t ha hr
  obtain ⟨_, cs, ds, _, hR, hs, _⟩ := hm s s' t ha hr
  exact ⟨s', cs, [], rfl, ⟨rfl, ds, hR⟩, hs, leaves_self base s'⟩

/-- Steps that are taken one after another, some of them passed over by both. -/
theorem inStep_forM {α β : Type} (skip : α → Bool) (Q : α → β → Prop)
    (before after : β → List Change) {xs : List α} {body body' : α → Walk Unit}
    (hskip : ∀ x ∈ xs, skip x = true →
      InStep base (fun cs ds => cs = [] ∧ ds = []) (body x) (body' x))
    (hstep : ∀ x ∈ xs, skip x = false → InStep base
      (fun cs ds => ∃ b, Q x b ∧ cs = before b ∧ ds = after b) (body x) (body' x)) :
    InStep base (fun cs ds => ∃ bs : List β, List.Forall₂ Q (xs.filter fun x => !skip x) bs ∧
      cs = bs.flatMap before ∧ ds = bs.flatMap after) (xs.forM body) (xs.forM body') := by
  induction xs with
  | nil => exact inStep_pure ⟨[], .nil, rfl, rfl⟩
  | cons x xs ih =>
    intro s s' t ha hr
    rw [forM_cons] at hr ⊢
    obtain ⟨_, u, hx, hr⟩ := run_bind_ok hr
    have ih := ih (fun y hy => hskip y (List.mem_cons_of_mem x hy))
      fun y hy => hstep y (List.mem_cons_of_mem x hy)
    cases hs : skip x with
    | true =>
      obtain ⟨u', cs, ds, hx', ⟨rfl, rfl⟩, hu, hu'⟩ :=
        hskip x (List.mem_cons_self ..) hs s s' u ha hx
      obtain ⟨t', cs, ds, hr', ⟨bs, hbs, rfl, rfl⟩, ht, ht'⟩ :=
        ih u u' t (hu.active.trans (ha.trans hu'.active.symm)) hr
      refine ⟨t', _, _, (run_bind_eq hx').trans hr', ⟨bs, ?_, rfl, rfl⟩, hu.append ht, hu'.append ht'⟩
      rw [List.filter_cons_of_neg (by rw [hs]; decide)]
      exact hbs
    | false =>
      obtain ⟨u', cs, ds, hx', ⟨b, hb, rfl, rfl⟩, hu, hu'⟩ :=
        hstep x (List.mem_cons_self ..) hs s s' u ha hx
      obtain ⟨t', cs, ds, hr', ⟨bs, hbs, rfl, rfl⟩, ht, ht'⟩ :=
        ih u u' t (hu.active.trans (ha.trans hu'.active.symm)) hr
      refine ⟨t', _, _, (run_bind_eq hx').trans hr', ⟨b :: bs, ?_, rfl, rfl⟩, hu.append ht,
        hu'.append ht'⟩
      rw [List.filter_cons_of_pos (by rw [hs]; decide)]
      exact .cons hb hbs

end InStep

end DocDelta.Diff
