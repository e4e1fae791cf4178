import Mathlib.Data.List.InsertIdx
import DocDelta.Proofs.Value.Answers

/-! Sorting loses nothing.

Where the comparison answers on the items, sorting ends with the same items in some order: the run
that starts the list is kept or turned round, and every other item is inserted once. -/
namespace DocDelta
open Number

section Sorting
variable {α : Type} {less : α → α → Except Fault Bool} {P : α → Prop}
variable (hless : ∀ a b, P a → P b → Answers (less a b))
include hless

theorem insertionPoint_le {x : α} (hx : P x) {sorted : Array α} (hs : ∀ y ∈ sorted, P y)
    (n : Nat) {low width : Nat} (hw : low + width ≤ sorted.size) :
    ∃ place, insertionPoint less x sorted n low width = .ok place ∧ place ≤ sorted.size := by
  induction n generalizing low width with
  | zero => exact ⟨low, rfl, by omega⟩
  | succ n ih =>
    rw [insertionPoint]
    split
    · exact ⟨low, rfl, by omega⟩
    · dsimp only
      split
      · exact ⟨low, rfl, by omega⟩
      · rename_i y hy
        obtain ⟨b, hb⟩ := hless x y hx (hs y (Array.mem_of_getElem? hy))
        rw [hb]
        cases b with
        | true => exact ih (by omega)
        | false => exact ih (by omega)

theorem insertAll_perm {xs : List α} (hx : ∀ x ∈ xs, P x) {sorted : Array α}
    (hs : ∀ y ∈ sorted, P y) :
    ∃ ys, insertAll less sorted xs = .ok ys ∧ ys.toList.Perm (sorted.toList ++ xs) := by
  induction xs generalizing sorted with
  | nil => exact ⟨sorted, rfl, by rw [List.append_nil]⟩
  | cons x xs ih =>
    obtain ⟨place, hplace, hle⟩ := insertionPoint_le hless (hx x (List.mem_cons_self ..)) hs
      sorted.size (Nat.le_of_eq (Nat.zero_add _))
    have hperm : (sorted.toList.insertIdx place x).Perm (x :: sorted.toList) :=
      List.perm_insertIdx x sorted.toList (by simpa using hle)
    have hmem : ∀ y ∈ (sorted.toList.insertIdx place x).toArray, P y := by
      intro y hy
      rcases List.mem_cons.mp (hperm.subset (by simpa using hy)) with rfl | hy
      · exact hx y (List.mem_cons_self ..)
      · exact hs y (by simpa using hy)
    obtain ⟨ys, hys, hall⟩ := ih (fun y hy => hx y (List.mem_cons_of_mem x hy)) hmem
    rw [insertAll, hplace]
    refine ⟨ys, hys, hall.trans ?_⟩
    exact (hperm.append_right xs).trans List.perm_middle.symm

/-- A run and what is behind it are the list. -/
theorem risingRun_append {last : α} (hl : P last) {xs : List α} (hx : ∀ x ∈ xs, P x) :
    ∃ run rest, risingRun less last xs = .ok (run, rest) ∧ run ++ rest = xs := by
  induction xs generalizing last with
  | nil => exact ⟨[], [], rfl, rfl⟩
  | cons x xs ih =>
    have hxp := hx x (List.mem_cons_self ..)
    obtain ⟨b, hb⟩ := hless x last hxp hl
    rw [risingRun, hb]
    cases b with
    | true => exact ⟨[], x :: xs, rfl, rfl⟩
    | false =>
      obtain ⟨run, rest, hr, happend⟩ := ih hxp fun y hy => hx y (List.mem_cons_of_mem x hy)
      refine ⟨x :: run, rest, ?_, by rw [← happend]; rfl⟩
      show (risingRun less x xs >>= _) = _
      rw [hr]
      rfl

theorem fallingRun_append {last : α} (hl : P last) {xs : List α} (hx : ∀ x ∈ xs, P x) :
    ∃ run rest, fallingRun less last xs = .ok (run, rest) ∧ run ++ rest = xs := by
  induction xs generalizing last with
  | nil => exact ⟨[], [], rfl, rfl⟩
  | cons x xs ih =>
    have hxp := hx x (List.mem_cons_self ..)
    obtain ⟨b, hb⟩ := hless x last hxp hl
    rw [fallingRun, hb]
    cases b with
    | false => exact ⟨[], x :: xs, rfl, rfl⟩
    | true =>
      obtain ⟨run, rest, hr, happend⟩ := ih hxp fun y hy => hx y (List.mem_cons_of_mem x hy)
      refine ⟨x :: run, rest, ?_, by rw [← happend]; rfl⟩
      show (fallingRun less x xs >>= _) = _
      rw [hr]
      rfl

/-- **Sorting ends with the same items.** -/
theorem sortBy_perm {xs : List α} (hx : ∀ x ∈ xs, P x) :
    ∃ ys, sortBy less xs = .ok ys ∧ ys.Perm xs := by
  match xs with
  | [] => exact ⟨[], rfl, .nil⟩
  | [x] => exact ⟨[x], rfl, .refl _⟩
  | x :: y :: zs =>
    have hxp := hx x (List.mem_cons_self ..)
    have hyp := hx y (List.mem_cons_of_mem x (List.mem_cons_self ..))
    have hzs : ∀ z ∈ zs, P z := fun z hz =>
      hx z (List.mem_cons_of_mem x (List.mem_cons_of_mem y hz))
    have hinserted : ∀ {run rest : List α} (start : List α), run ++ rest = zs →
        start.Perm (x :: y :: run) → ∃ ys, insertAll less start.toArray rest = .ok ys ∧
          ys.toList.Perm (x :: y :: zs) := by
      intro run rest start happend hstart
      have hrest : ∀ z ∈ rest, P z := fun z hz =>
        hzs z (happend ▸ List.mem_append_right run hz)
      have hmem : ∀ z ∈ start.toArray, P z := by
        intro z hz
        refine hx z ?_
        rw [← happend]
        exact List.mem_append_left rest (hstart.subset (by simpa using hz))
      obtain ⟨ys, hys, hperm⟩ := insertAll_perm hless hrest hmem
      refine ⟨ys, hys, hperm.trans ?_⟩
      rw [← happend]
      exact hstart.append_right rest
    obtain ⟨b, hb⟩ := hless y x hyp hxp
    rw [sortBy, hb]
    cases b with
    | true =>
      obtain ⟨run, rest, hr, happend⟩ := fallingRun_append hless hyp hzs
      obtain ⟨ys, hys, hperm⟩ := hinserted _ happend (List.reverse_perm (x :: y :: run))
      refine ⟨ys.toList, ?_, hperm⟩
      show (fallingRun less y zs >>= _) = _
      rw [hr]
      show (insertAll less (x :: y :: run).reverse.toArray rest >>= _) = _
      rw [hys]
      rfl
    | false =>
      obtain ⟨run, rest, hr, happend⟩ := risingRun_append hless hyp hzs
      obtain ⟨ys, hys, hperm⟩ := hinserted _ happend (.refl _)
      refine ⟨ys.toList, ?_, hperm⟩
      show (risingRun less y zs >>= _) = _
      rw [hr]
      show (insertAll less (x :: y :: run).toArray rest >>= _) = _
      rw [hys]
      rfl

end Sorting
end DocDelta
