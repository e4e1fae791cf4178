import DocDelta.Diff.Walk
import DocDelta.Proofs.Value.Answers

/-! How a walk ends.

A walk that `Ends` leaves the pairs under comparison as it found them and fails, if at all,
with a failure that a comparison foresees: two classes that differ, a key that is no text, and,
where the values contain themselves, a cycle. Each way of putting walks together keeps that, so
a comparison is followed step by step without looking at the state. -/
namespace DocDelta.Diff

/-! ### Running one step after another -/

section Run
variable {α β : Type}

theorem run_ask (x : Except Fault α) (s : State) : (ask x).run s = (x, s) := rfl

theorem run_visiting (h : Heap) (old new : Value) (path : Label) (body : Walk Unit) (s : State) :
    (visiting h old new path body).run s = match pairOf h old new with
      | none => body.run s
      | some pair =>
        if s.active.contains pair then (.error (.cycle path), s)
        else
          let r := body.run { s with active := pair :: s.active }
          (r.1, { r.2 with active := r.2.active.erase pair }) := rfl

theorem forM_cons (a : α) (xs : List α) (f : α → Walk Unit) :
    (a :: xs).forM f = f a >>= fun _ => xs.forM f := rfl

theorem forM_congr {f g : α → Walk Unit} {xs : List α} (hf : ∀ a ∈ xs, f a = g a) :
    xs.forM f = xs.forM g := by
  induction xs with
  | nil => rfl
  | cons a xs ih =>
    rw [forM_cons, forM_cons, hf a (List.mem_cons_self ..),
      ih fun b hb => hf b (List.mem_cons_of_mem a hb)]

theorem forM_map (g : α → β) (xs : List α) (f : β → Walk Unit) :
    (xs.map g).forM f = xs.forM fun a => f (g a) := by
  induction xs with
  | nil => rfl
  | cons a xs ih => rw [List.map_cons, forM_cons, ih, forM_cons]

end Run

/-! ### Pairs -/

section Pairs
variable {h : Heap}

theorem pairOf_eq_some {old new : Value} {p : Mark × Mark} (hp : pairOf h old new = some p) :
    old.identity h = some p.1 ∧ new.identity h = some p.2 := by
  obtain ⟨x, hx, hp⟩ := Option.bind_eq_some_iff.mp hp
  obtain ⟨y, hy, hp⟩ := Option.bind_eq_some_iff.mp hp
  cases hp
  exact ⟨hx, hy⟩

theorem pairOf_eq_none {old new : Value} (hp : pairOf h old new = none) :
    old.identity h = none ∨ new.identity h = none := by
  cases hx : old.identity h with
  | none => exact .inl rfl
  | some x =>
    cases hy : new.identity h with
    | none => exact .inr rfl
    | some y =>
      rw [pairOf, hx, hy] at hp
      cases hp

end Pairs

/-! ### Ending -/

/-- What a comparison fails with: only values that contain themselves make a cycle. -/
def Foreseen (cyclic : Prop) : Fault → Prop
  | .classMismatch .. => True
  | .unsupportedKey .. => True
  | .cycle _ => cyclic
  | _ => False

/-- A walk comes to an end, and no other pairs are under comparison then. -/
def Ends {α : Type} (cyclic : Prop) (active : List (Mark × Mark)) (m : Walk α) : Prop :=
  ∀ s : State, s.active = active → (m.run s).2.active = active ∧
    ∀ e, (m.run s).1 = .error e → Foreseen cyclic e

section Ends
variable {α β : Type} {cyclic : Prop} {active : List (Mark × Mark)}

theorem ends_pure (a : α) : Ends cyclic active (pure a : Walk α) :=
  fun _ hs => ⟨hs, fun _ he => nomatch he⟩

theorem ends_throw {e : Fault} (he : Foreseen cyclic e) : Ends cyclic active (throw e : Walk α) := by
  intro s hs
  refine ⟨hs, fun d hd => ?_⟩
  cases hd
  exact he

theorem ends_ask {x : Except Fault α} (hx : ∀ e, x = .error e → Foreseen cyclic e) :
    Ends cyclic active (ask x) := fun _ hs => ⟨hs, hx⟩

/-- A step whose outcome is known goes on with that. -/
theorem ends_bind_of {m : Walk α} {f : α → Walk β} (hm : Ends cyclic active m)
    (hf : ∀ s a, (m.run s).1 = .ok a → Ends cyclic active (f a)) :
    Ends cyclic active (m >>= f) := by
  intro s hs
  rw [run_bind]
  obtain ⟨hactive, hfault⟩ := hm s hs
  rcases hr : m.run s with ⟨e | a, t⟩
  · rw [hr] at hactive hfault
    exact ⟨hactive, fun d hd => hfault d (by cases hd; rfl)⟩
  · rw [hr] at hactive
    exact hf s a (by rw [hr]) t hactive

theorem ends_bind {m : Walk α} {f : α → Walk β} (hm : Ends cyclic active m)
    (hf : ∀ a, Ends cyclic active (f a)) : Ends cyclic active (m >>= f) :=
  ends_bind_of hm fun _ a _ => hf a

theorem ends_ask_bind {x : Except Fault α} {f : α → Walk β}
    (hx : ∀ e, x = .error e → Foreseen cyclic e) (hf : ∀ a, x = .ok a → Ends cyclic active (f a)) :
    Ends cyclic active (ask x >>= f) := ends_bind_of (ends_ask hx) fun _ a ha => hf a ha

/-- A test that has an answer never fails. -/
theorem ends_ask_answer {x : Except Fault α} {f : α → Walk β} (hx : Answers x)
    (hf : ∀ a, x = .ok a → Ends cyclic active (f a)) : Ends cyclic active (ask x >>= f) := by
  obtain ⟨a, rfl⟩ := hx
  exact ends_ask_bind (fun _ he => nomatch he) hf

theorem ends_ask_ok {x : Except Fault α} {f : α → Walk β} {a : α} (hx : x = .ok a)
    (hf : Ends cyclic active (f a)) : Ends cyclic active (ask x >>= f) := by
  refine ends_ask_answer ⟨a, hx⟩ fun b hb => ?_
  cases hx.symm.trans hb
  exact hf

theorem ends_ite {c : Prop} [Decidable c] {m k : Walk α} (hm : Ends cyclic active m)
    (hk : Ends cyclic active k) : Ends cyclic active (if c then m else k) := by
  split
  · exact hm
  · exact hk

theorem ends_forM {f : α → Walk Unit} {xs : List α} (hf : ∀ x ∈ xs, Ends cyclic active (f x)) :
    Ends cyclic active (xs.forM f) := by
  induction xs with
  | nil => exact ends_pure ()
  | cons x xs ih =>
    rw [forM_cons]
    exact ends_bind (hf x (List.mem_cons_self ..)) fun _ =>
      ih fun y hy => hf y (List.mem_cons_of_mem x hy)

theorem ends_onPatch (f : Patch → Patch) : Ends cyclic active (onPatch f) :=
  fun _ hs => ⟨hs, fun _ he => nomatch he⟩

theorem ends_log (level : Level) (text : String) : Ends cyclic active (log level text) :=
  fun _ hs => ⟨hs, fun _ he => nomatch he⟩

theorem ends_nextLabel : Ends cyclic active nextLabel := fun _ hs => ⟨hs, fun _ he => nomatch he⟩

/-- A pair is entered where it is not under comparison yet; otherwise the values contain
themselves. -/
theorem ends_visiting {h : Heap} {old new : Value} {path : Label} {body : Walk Unit}
    (hnone : pairOf h old new = none → Ends cyclic active body)
    (hcycle : ∀ p, pairOf h old new = some p → p ∈ active → cyclic)
    (hbody : ∀ p, pairOf h old new = some p → p ∉ active → Ends cyclic (p :: active) body) :
    Ends cyclic active (visiting h old new path body) := by
  intro s hs
  rw [run_visiting]
  cases hp : pairOf h old new with
  | none => exact hnone hp s hs
  | some p =>
    simp only
    split
    · rename_i hin
      refine ⟨hs, fun e he => ?_⟩
      cases he
      exact hcycle p hp (hs ▸ List.contains_iff_mem.mp hin)
    · rename_i hout
      have hfresh : p ∉ active := fun hin => hout (List.contains_iff_mem.mpr (hs ▸ hin))
      obtain ⟨hactive, hfault⟩ := hbody p hp hfresh { s with active := p :: s.active } (by rw [hs])
      refine ⟨?_, hfault⟩
      dsimp only
      rw [hactive, List.erase_cons_head]

end Ends

end DocDelta.Diff
