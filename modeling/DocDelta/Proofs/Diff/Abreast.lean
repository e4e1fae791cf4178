import DocDelta.Proofs.Diff.Lockstep

/-! Two walks abreast.

`InStep` follows the first of two walks. Here both are followed, failures too: from states with
the same pairs under comparison they succeed together, and what they record is related, or they
fail with the same fault. Where two walks are to be compared only when both succeed, `lax` lets
either of them fail alone. A walk that is abreast of itself `Does` always the same. -/
namespace DocDelta.Diff
open Heap

/-! ### Ending alike -/

/-- How two walks end that started in two states. -/
inductive EndAlike (lax : Prop) (base : Label) (R : List Change → List Change → Prop)
    (s s' : State) : Except Fault Unit × State → Except Fault Unit × State → Prop
  | records {cs ds : List Change} {t t' : State} (hR : R cs ds) (hs : Leaves base cs s t)
      (hs' : Leaves base ds s' t') : EndAlike lax base R s s' (.ok (), t) (.ok (), t')
  | fault {e : Fault} {t t' : State} : EndAlike lax base R s s' (.error e, t) (.error e, t')
  | first (hl : lax) {e : Fault} {t : State} {r : Except Fault Unit × State} :
      EndAlike lax base R s s' (.error e, t) r
  | second (hl : lax) {e : Fault} {t : State} {r : Except Fault Unit × State} :
      EndAlike lax base R s s' r (.error e, t)

/-- Two walks that end alike, from any states with the same pairs under comparison. -/
def Abreast (lax : Prop) (base : Label) (R : List Change → List Change → Prop)
    (m m' : Walk Unit) : Prop :=
  ∀ s s' : State, s.active = s'.active → EndAlike lax base R s s' (m.run s) (m'.run s')

section Abreast
variable {lax : Prop} {base : Label} {R S : List Change → List Change → Prop} {m m' k k' : Walk Unit}

theorem Abreast.imp (hm : Abreast lax base R m m') (hrs : ∀ cs ds, R cs ds → S cs ds) :
    Abreast lax base S m m' := by
  intro s s' ha
  have hend := hm s s' ha
  generalize m.run s = r at hend ⊢
  generalize m'.run s' = r' at hend ⊢
  cases hend with
  | records hR hs hs' => exact .records (hrs _ _ hR) hs hs'
  | fault => exact .fault
  | first hl => exact .first hl
  | second hl => exact .second hl

/-- Where both walks succeed, what they record is related. -/
theorem Abreast.of_ok (hm : Abreast lax base R m m') {s s' t t' : State}
    (ha : s.active = s'.active) (hr : m.run s = (.ok (), t)) (hr' : m'.run s' = (.ok (), t')) :
    ∃ cs ds, R cs ds ∧ Leaves base cs s t ∧ Leaves base ds s' t' := by
  have hend := hm s s' ha
  rw [hr, hr'] at hend
  cases hend with
  | records hR hs hs' => exact ⟨_, _, hR, hs, hs'⟩

/-- Walks that always end alike are in step. -/
theorem Abreast.inStep (hm : Abreast False base R m m') : InStep base R m m' := by
  intro s s' t ha hr
  have hend := hm s s' ha
  rw [hr] at hend
  generalize hr' : m'.run s' = r' at hend
  cases hend with
  | records hR hs hs' => exact ⟨_, _, _, rfl, hR, hs, hs'⟩
  | second hl => exact hl.elim

theorem Abreast.loosen (hm : Abreast False base R m m') : Abreast lax base R m m' := by
  intro s s' ha
  have hend := hm s s' ha
  generalize m.run s = r at hend ⊢
  generalize m'.run s' = r' at hend ⊢
  cases hend with
  | records hR hs hs' => exact .records hR hs hs'
  | fault => exact .fault
  | first hl => exact hl.elim
  | second hl => exact hl.elim

theorem abreast_pure (hR : R [] []) : Abreast lax base R (pure ()) (pure ()) :=
  fun s s' _ => .records hR (leaves_self base s) (leaves_self base s')

/-- Two walks that record the same from every state. -/
theorem abreast_of_leaves {cs ds : List Change} (hm : ∀ s, ∃ t, m.run s = (.ok (), t) ∧ Leaves base cs s t)
    (hm' : ∀ s, ∃ t, m'.run s = (.ok (), t) ∧ Leaves base ds s t) (hR : R cs ds) :
    Abreast lax base R m m' := by
  intro s s' _
  obtain ⟨t, hr, hs⟩ := hm s
  obtain ⟨t', hr', hs'⟩ := hm' s'
  rw [hr, hr']
  exact .records hR hs hs'

theorem abreast_throw (e : Fault) : Abreast lax base R (throw e) (throw e) := fun _ _ _ => .fault

/-- A walk that fails from every state may be left alone. -/
theorem abreast_of_fails (hl : lax) (hm : ∀ s, ∃ e t, m.run s = (.error e, t)) :
    Abreast lax base R m m' := by
  intro s s' _
  obtain ⟨e, t, hr⟩ := hm s
  rw [hr]
  exact .first hl

theorem abreast_of_fails_second (hl : lax) (hm : ∀ s, ∃ e t, m'.run s = (.error e, t)) :
    Abreast lax base R m m' := by
  intro s s' _
  obtain ⟨e, t, hr⟩ := hm s'
  rw [hr]
  exact .second hl

/-- A loop fails where one of its steps does, if not before. -/
theorem forM_fails {α : Type} {f : α → Walk Unit} {xs : List α} {x : α} (hx : x ∈ xs)
    (hf : ∀ s, ∃ e t, (f x).run s = (.error e, t)) (s : State) :
    ∃ e t, (xs.forM f).run s = (.error e, t) := by
  induction xs generalizing s with
  | nil => cases hx
  | cons y ys ih =>
    rw [forM_cons, run_bind]
    rcases hr : (f y).run s with ⟨e | _, t⟩
    · exact ⟨e, t, rfl⟩
    · rcases List.mem_cons.mp hx with rfl | hx
      · obtain ⟨e, u, he⟩ := hf s
        rw [hr] at he
        cases he
      · exact ih hx t

theorem abreast_onPatch {f f' : Patch → Patch} {cs ds : List Change} (hR : R cs ds)
    (hf : ∀ p n, (f p, n) = replayAll base cs (p, n))
    (hf' : ∀ p n, (f' p, n) = replayAll base ds (p, n)) :
    Abreast lax base R (onPatch f) (onPatch f') :=
  fun s s' _ => .records hR ⟨hf s.patch s.labels, rfl, rfl, rfl⟩ ⟨hf' s'.patch s'.labels, rfl, rfl, rfl⟩

/-- Two tests whose answers go on abreast; where one has no answer, neither has the other. -/
theorem abreast_ask {α : Type} {x x' : Except Fault α} {f f' : α → Walk Unit} (hx : lax ∨ x' = x)
    (hf : ∀ a a', x = .ok a → x' = .ok a' → Abreast lax base R (f a) (f' a')) :
    Abreast lax base R (ask x >>= f) (ask x' >>= f') := by
  intro s s' ha
  rw [run_bind, run_bind, run_ask, run_ask]
  cases x with
  | error e =>
    rcases hx with hl | rfl
    · exact .first hl
    · exact .fault
  | ok a =>
    cases x' with
    | error e =>
      rcases hx with hl | he
      · exact .second hl
      · cases he
    | ok a' => exact hf a a' rfl rfl s s' ha

theorem abreast_log {level level' : Level} {text text' : String} {f f' : Unit → Walk Unit}
    (hf : Abreast lax base R (f ()) (f' ())) :
    Abreast lax base R (log level text >>= f) (log level' text' >>= f') := by
  intro s s' ha
  have hend := hf { s with log := s.log ++ [⟨level, text⟩] }
    { s' with log := s'.log ++ [⟨level', text'⟩] } ha
  show EndAlike lax base R s s' ((f ()).run _) ((f' ()).run _)
  generalize (f ()).run _ = r at hend ⊢
  generalize (f' ()).run _ = r' at hend ⊢
  cases hend with
  | records hR hs hs' =>
    exact .records hR ⟨hs.records, hs.active, hs.old, hs.new⟩
      ⟨hs'.records, hs'.active, hs'.old, hs'.new⟩
  | fault => exact .fault
  | first hl => exact .first hl
  | second hl => exact .second hl

theorem abreast_ite {c : Prop} [Decidable c] (hm : c → Abreast lax base R m m')
    (hk : ¬ c → Abreast lax base R k k') :
    Abreast lax base R (if c then m else k) (if c then m' else k') := by
  split
  · exact hm ‹c›
  · exact hk ‹¬ c›

theorem abreast_seq (hm : Abreast lax base R m m') (hk : Abreast lax base S k k') :
    Abreast lax base (fun cs ds => ∃ cs₁ ds₁ cs₂ ds₂, R cs₁ ds₁ ∧ S cs₂ ds₂ ∧ cs = cs₁ ++ cs₂ ∧
      ds = ds₁ ++ ds₂) (m >>= fun _ => k) (m' >>= fun _ => k') := by
  intro s s' ha
  rw [run_bind, run_bind]
  have hend := hm s s' ha
  generalize m.run s = r at hend ⊢
  generalize m'.run s' = r' at hend ⊢
  cases hend with
  | @records cs₁ ds₁ t t' hR hs hs' =>
    have hend := hk t t' (hs.active.trans (ha.trans hs'.active.symm))
    dsimp only
    generalize k.run t = q at hend ⊢
    generalize k'.run t' = q' at hend ⊢
    cases hend with
    | records hS ht ht' =>
      exact .records ⟨_, _, _, _, hR, hS, rfl, rfl⟩ (hs.append ht) (hs'.append ht')
    | fault => exact .fault
    | first hl => exact .first hl
    | second hl => exact .second hl
  | fault => exact .fault
  | first hl => exact .first hl
  | second hl => exact .second hl

theorem abreast_visiting {h h' : Heap} {old new old' new' : Value} {path : Label}
    (hp : pairOf h' old' new' = pairOf h old new) (hm : Abreast lax base R m m') :
    Abreast lax base R (visiting h old new path m) (visiting h' old' new' path m') := by
  intro s s' ha
  rw [run_visiting, run_visiting, hp, ← ha]
  cases pairOf h old new with
  | none => exact hm s s' ha
  | some pair =>
    dsimp only
    split
    · exact .fault
    · have hend := hm { s with active := pair :: s.active } { s' with active := pair :: s.active } rfl
      generalize m.run _ = r at hend ⊢
      generalize m'.run _ = r' at hend ⊢
      cases hend with
      | records hR hs hs' => exact .records hR (hs.leave rfl) (hs'.leave ha.symm)
      | fault => exact .fault
      | first hl => exact .first hl
      | second hl => exact .second hl

/-- Walks further down, seen from above. -/
theorem Abreast.under {l : Label} (hm : Abreast lax (joinPath base l) R m m') :
    Abreast lax base (fun cs ds => ∃ cs' ds', R cs' ds' ∧ cs = cs'.map (·.under l) ∧
      ds = ds'.map (·.under l)) m m' := by
  intro s s' ha
  have hend := hm s s' ha
  generalize m.run s = r at hend ⊢
  generalize m'.run s' = r' at hend ⊢
  cases hend with
  | records hR hs hs' => exact .records ⟨_, _, hR, rfl, rfl⟩ hs.under hs'.under
  | fault => exact .fault
  | first hl => exact .first hl
  | second hl => exact .second hl

/-- Steps that are taken one after another, some of them passed over by both. -/
theorem abreast_forM {α β : Type} (skip : α → Bool) (Q : α → β → Prop)
    (before after : β → List Change) {xs : List α} {body body' : α → Walk Unit}
    (hskip : ∀ x ∈ xs, skip x = true →
      Abreast lax base (fun cs ds => cs = [] ∧ ds = []) (body x) (body' x))
    (hstep : ∀ x ∈ xs, skip x = false → Abreast lax base
      (fun cs ds => ∃ b, Q x b ∧ cs = before b ∧ ds = after b) (body x) (body' x)) :
    Abreast lax base (fun cs ds => ∃ bs : List β, List.Forall₂ Q (xs.filter fun x => !skip x) bs ∧
      cs = bs.flatMap before ∧ ds = bs.flatMap after) (xs.forM body) (xs.forM body') := by
  induction xs with
  | nil => exact abreast_pure ⟨[], .nil, rfl, rfl⟩
  | cons x xs ih =>
    rw [forM_cons, forM_cons]
    have ih := ih (fun y hy => hskip y (List.mem_cons_of_mem x hy))
      fun y hy => hstep y (List.mem_cons_of_mem x hy)
    cases hs : skip x with
    | true =>
      rw [List.filter_cons_of_neg (by rw [hs]; decide)]
      refine (abreast_seq (hskip x (List.mem_cons_self ..) hs) ih).imp ?_
      rintro _ _ ⟨_, _, _, _, ⟨rfl, rfl⟩, hbs, rfl, rfl⟩
      exact hbs
    | false =>
      rw [List.filter_cons_of_pos (by rw [hs]; decide)]
      refine (abreast_seq (hstep x (List.mem_cons_self ..) hs) ih).imp ?_
      rintro _ _ ⟨_, _, _, _, ⟨b, hb, rfl, rfl⟩, ⟨bs, hbs, rfl, rfl⟩, rfl, rfl⟩
      exact ⟨b :: bs, .cons hb hbs, rfl, rfl⟩

end Abreast

/-! ### Abreast of itself -/

/-- What a walk records, or how it fails, whatever the state. -/
def Does (base : Label) (P : List Change → Prop) (m : Walk Unit) : Prop :=
  Abreast False base (fun cs ds => ds = cs ∧ P cs) m m

section Does
variable {base : Label} {P Q : List Change → Prop} {m : Walk Unit}

theorem Does.imp (hm : Does base P m) (hpq : ∀ cs, P cs → Q cs) : Does base Q m :=
  Abreast.imp hm fun cs _ hp => ⟨hp.1, hpq cs hp.2⟩

theorem does_pure (hp : P []) : Does base P (pure ()) := abreast_pure ⟨rfl, hp⟩

theorem does_onPatch {f : Patch → Patch} {c : Change} (hp : P [c])
    (hf : ∀ p n, (f p, n) = replay base (p, n) c) : Does base P (onPatch f) :=
  abreast_onPatch ⟨rfl, hp⟩ hf hf

theorem does_ask {α : Type} {x : Except Fault α} {f : α → Walk Unit}
    (hf : ∀ a, x = .ok a → Does base P (f a)) : Does base P (ask x >>= f) := by
  refine abreast_ask (.inr rfl) fun a a' ha ha' => ?_
  rw [Except.ok.inj (ha'.symm.trans ha)]
  exact hf a ha

theorem does_log {level : Level} {text : String} {f : Unit → Walk Unit}
    (hf : Does base P (f ())) : Does base P (log level text >>= f) := abreast_log hf

theorem does_ite {c : Prop} [Decidable c] {k : Walk Unit} (hm : c → Does base P m)
    (hk : ¬ c → Does base P k) : Does base P (if c then m else k) := abreast_ite hm hk

theorem does_seq {cs ds : List Change} {k : Walk Unit} (hm : Does base (· = cs) m)
    (hk : Does base (· = ds) k) : Does base (· = cs ++ ds) (m >>= fun _ => k) := by
  refine (abreast_seq hm hk).imp ?_
  rintro _ _ ⟨_, _, _, _, ⟨rfl, rfl⟩, ⟨rfl, rfl⟩, rfl, rfl⟩
  exact ⟨rfl, rfl⟩

end Does

/-! ### Sequences and scalars -/

section Ends
variable {h : Heap} {o : Options} {old new : Value} {path : Label} {P : List Change → Prop}

theorem does_unlessEqual {body : Walk Unit} (he : h.deepEqual old new = .ok true → P [])
    (hn : h.deepEqual old new = .ok false → Does path P body) :
    Does path P (unlessEqual h old new body) := by
  refine does_ask fun equal hq => ?_
  cases equal with
  | true => exact does_pure (he hq)
  | false => exact hn hq

theorem does_replace (hne : h.deepEqual old new = .ok false) :
    Does path (Reconciles h o old new) (replaceSequence h old new path) := by
  refine does_unlessEqual (fun he => ?_) fun _ => does_onPatch .replaced fun _ _ => rfl
  rw [hne] at he
  cases he

theorem does_fallBack (hne : h.deepEqual old new = .ok false) (reason : String) :
    Does path (Reconciles h o old new) (fallBack h reason old new path) :=
  does_log (does_replace hne)

theorem does_setAt (index : Nat) (v : Value) :
    Does path (· = [.item [] index v]) (setAt index v path) := by
  exact fun s s' _ => .records ⟨rfl, rfl⟩ ⟨rfl, rfl, rfl, rfl⟩ ⟨rfl, rfl, rfl, rfl⟩

theorem does_items {α : Type} (f : α → Nat × Value) (xs : List α) :
    Does path (· = xs.map fun x => .item [] (f x).1 (f x).2)
      (xs.forM fun x => setAt (f x).1 (f x).2 path) := by
  induction xs with
  | nil => exact does_pure rfl
  | cons x xs ih => exact does_seq (does_setAt (f x).1 (f x).2) ih

theorem does_push (items : List Value) (hp : P (pushed items)) :
    Does path P (onPatch (·.push path items)) := by
  have hpushed : ∀ (p : Patch) (n : Nat), (p.push path items, n) = replayAll path (pushed items) (p, n) := by
    intro p n
    cases items with
    | nil => rfl
    | cons x xs => rfl
  exact abreast_onPatch ⟨rfl, hp⟩ hpushed hpushed

theorem does_append (hne : h.deepEqual old new = .ok false) :
    Does path (Reconciles h o old new) (appendSequence h old new path) := by
  refine does_unlessEqual (fun he => ?_) fun _ => ?_
  · rw [hne] at he
    cases he
  refine does_ask fun xs hx => does_ask fun ys hy => ?_
  refine does_ite (fun _ => does_fallBack hne _) fun hl => does_ask fun change hs => ?_
  cases change with
  | some i => exact does_fallBack hne _
  | none => exact does_push _ (.extended hx hy (Nat.le_of_not_lt hl) hs)

theorem does_smart (hne : h.deepEqual old new = .ok false) :
    Does path (Reconciles h o old new) (smartSequence h old new path) := by
  refine does_unlessEqual (fun he => ?_) fun _ => ?_
  · rw [hne] at he
    cases he
  refine does_ask fun xs hx => does_ask fun ys hy => ?_
  refine does_ite (fun _ => does_fallBack hne _) fun _ => ?_
  refine does_ite (fun _ => does_fallBack hne _) fun _ => does_ask fun changed hs => ?_
  refine does_ite (fun _ => does_fallBack hne _) fun hlength => ?_
  refine does_ite (fun hchanged => ?_) fun hunchanged => ?_
  · have hl : xs.length = ys.length := by
      by_contra hl
      exact hlength ⟨hchanged, hl⟩
    refine (does_items (fun i => (i, (ys[i]?).getD .nil)) changed).imp fun cs hcs => ?_
    rw [hcs]
    exact .updated hx hy hl hs
  · have hnil : changed = [] := not_not.mp hunchanged
    subst hnil
    exact does_ite (fun hl => does_push _ (.grown hx hy hl hs)) fun _ => does_fallBack hne _

theorem does_merge (hm : o.strategy = .merge) (hne : h.deepEqual old new = .ok false) :
    Does path (Reconciles h o old new) (mergeSequence h old new path) := by
  refine does_unlessEqual (fun he => ?_) fun _ => ?_
  · rw [hne] at he
    cases he
  refine does_ask fun xs hx => does_ite (fun _ => does_onPatch .replaced fun _ _ => rfl) fun _ => ?_
  refine does_ask fun ys hy => does_ite (fun _ => does_onPatch (.emptied hm) fun _ _ => rfl) fun _ => ?_
  refine does_ite (fun _ => does_fallBack hne _) fun _ => does_ask fun p hp => ?_
  refine does_ite (fun _ => does_fallBack hne _) fun _ => ?_
  refine does_ite (fun _ => does_fallBack hne _) fun _ => ?_
  refine does_ite (fun _ => does_push _ (.added hm hx hy hp)) fun _ => ?_
  refine (does_items id p.updates).imp fun cs hcs => ?_
  rw [hcs]
  exact .merged hm hx hy hp

theorem does_sequences (hne : h.deepEqual old new = .ok false) :
    Does path (Reconciles h o old new) (match o.strategy with
      | .replace => replaceSequence h old new path
      | .append => appendSequence h old new path
      | .smart => smartSequence h old new path
      | .merge => mergeSequence h old new path) := by
  split
  · exact does_replace hne
  · exact does_append hne
  · exact does_smart hne
  · exact does_merge ‹_› hne

/-- Two sequences of one class end in changes at their place. -/
theorem does_diffSequences (ho : h.view old ≠ .nil) (hn : h.view new ≠ .nil)
    (hc : (h.view old).cls = (h.view new).cls) (hk : (h.view old).kind = .sequence) :
    Does path (Settles h o (.compare old new)) (diffSequences h o.strategy old new path) :=
  does_unlessEqual (fun he => .same ho hn he) fun he =>
    (does_sequences he).imp fun _ hs => .sequence ho hn hc hk he hs

/-- Two scalars of one class end in a change at their place, or in none. -/
theorem does_diffScalars (ho : h.view old ≠ .nil) (hn : h.view new ≠ .nil)
    (hc : (h.view old).cls = (h.view new).cls) (hk : (h.view old).kind.isLeaf = true) :
    Does path (Settles h o (.compare old new)) (diffScalars h o old new path) := by
  refine does_unlessEqual (fun he => .same ho hn he) fun he => does_ask fun zero hz => ?_
  have hsettles : Settles h o (.compare old new) (scalarChanges o zero new) :=
    .scalar ho hn hc hk he hz
  cases zero with
  | false => exact does_onPatch hsettles fun _ _ => rfl
  | true =>
    cases hpolicy : o.zeros with
    | unset => exact does_onPatch (by simpa [scalarChanges, hpolicy] using hsettles) fun _ _ => rfl
    | set => exact does_onPatch (by simpa [scalarChanges, hpolicy] using hsettles) fun _ _ => rfl
    | ignore =>
      have hnothing : Settles h o (.compare old new) [] := by
        simpa [scalarChanges, hpolicy] using hsettles
      exact does_log (does_pure hnothing)

end Ends

end DocDelta.Diff
