import DocDelta.Proofs.Diff.Routes
import DocDelta.Proofs.Diff.Run

/-! The search for references lists them in depth-first order.

`Lists` is said of a walk that enters into one side's table what a listing holds of the routes
through no reference that is there already. The search comes to an end because between one new
reference and the next no object is met twice, unless it contains itself with no reference on the
way: the references not entered yet (`room`), and below them the objects not seen since the last
one, bound how deep it goes. -/
namespace DocDelta.Diff
open Heap Relation

/-! ### Tables -/

namespace State

/-- The references of one side's table. -/
def met (isOld : Bool) (s : State) : List Mark := (if isOld then s.old else s.new).map (·.1)

/-- With entries added to one side's table. -/
def enter (isOld : Bool) (es : Table) (s : State) : State :=
  if isOld then { s with old := s.old ++ es } else { s with new := s.new ++ es }

variable {isOld : Bool} {es fs : Table} {s : State}

theorem enter_nil : s.enter isOld [] = s := by
  cases isOld <;> simp [enter]

theorem enter_enter : (s.enter isOld es).enter isOld fs = s.enter isOld (es ++ fs) := by
  cases isOld <;> simp [enter]

theorem met_enter : (s.enter isOld es).met isOld = s.met isOld ++ es.map (·.1) := by
  cases isOld <;> simp [enter, met]

end State

theorem run_trackMark (isOld : Bool) (path : String) (mark : Mark) (s : State) :
    (trackMark isOld path mark).run s = if mark ∈ s.met isOld then (.ok false, s)
      else (.ok true, s.enter isOld [(mark, path)]) := by
  have hget : (get : Walk State).run s = (.ok s, s) := rfl
  have hany : ∀ table : Table, (table.any fun e => e.1 == mark) = true ↔ mark ∈ table.map (·.1) := by
    intro table
    simp only [List.any_eq_true, beq_iff_eq, List.mem_map]
  unfold trackMark
  rw [run_bind_eq hget]
  cases isOld
  all_goals
    simp only [hany, State.met, if_true, if_false, Bool.false_eq_true]
    split <;> rfl

/-! ### Listing walks -/

/-- A walk that enters into one side's table, from any state in which some references are entered
already, what is listed of some routes. -/
def Lists (h : Heap) (isOld : Bool) (T : List Mark)
    (F : List Mark → List Nat → Value × String → Prop) (m : Walk Unit) : Prop :=
  ∀ s : State, T ⊆ s.met isOld → ∃ L, Listing h (F (s.met isOld)) L ∧
    m.run s = (.ok (), s.enter isOld (L.map Visit.entry))

section Lists
variable {h : Heap} {isOld : Bool} {T : List Mark}

/-- Parts are searched one after another. -/
theorem lists_parts {xs : List (Value × String)} {f : Value × String → Walk Unit}
    (hf : ∀ x ∈ xs, Lists h isOld T (fun T => Route h T x) (f x)) (n : Nat) :
    Lists h isOld T (fun T => Among h T n xs) (xs.forM f) := by
  induction xs generalizing n with
  | nil => exact fun s _ => ⟨[], listing_nil, by rw [List.map_nil, State.enter_nil]; rfl⟩
  | cons x xs ih =>
    intro s hs
    obtain ⟨L, hL, hrun⟩ := hf x (List.mem_cons_self ..) s hs
    have hmet : (s.enter isOld (L.map Visit.entry)).met isOld = s.met isOld ++ L.map (·.mark) := by
      rw [State.met_enter, List.map_map]
      rfl
    obtain ⟨M, hM, hrest⟩ := ih (fun y hy => hf y (List.mem_cons_of_mem x hy)) (n + 1)
      (s.enter isOld (L.map Visit.entry))
      (by rw [hmet]; exact List.Subset.trans hs (List.subset_append_left _ _))
    rw [hmet] at hM
    refine ⟨_, listing_cons hL hM, ?_⟩
    rw [forM_cons, run_bind_eq hrun, hrest, State.enter_enter, List.map_append, List.map_map]
    rfl

theorem trackWithin_succ (n : Nat) (v : Value) (p : String) :
    trackWithin h isOld (n + 1) v p = (match reference? h v with
      | some mark => trackMark isOld p mark
      | none => pure true) >>= fun fresh =>
        if fresh then (trackedParts h v p).forM fun (x, q) => trackWithin h isOld n x q
        else pure () := by
  rw [trackWithin, reference?]
  split
  · split
    · rename_i hi
      simp only [hi]
    · rename_i hi
      simp only [hi]
  · rfl

/-! ### The end of the search -/

/-- The objects seen since the last reference lead to a value by plain steps. -/
def SeenAbove (h : Heap) (seen : List Mark) (v : Value) : Prop :=
  ∀ m ∈ seen, ∃ u, h.view u ≠ .nil ∧ u.identity h = some m ∧ TransGen (PlainStep h) u v

/-- A step down from what is no reference sees one more object, or leads to less. -/
theorem seen_step {seen : List Mark} {v w : Value} (hg : Grounded h v) (hs : SeenAbove h seen v)
    (hv : reference? h v = none) (hc : Contains h v w) :
    ∃ seen', SeenAbove h seen' w ∧ room h.marks seen' + weight w < room h.marks seen + weight v := by
  have hn := hc.view_ne_nil
  cases hi : v.identity h with
  | some m =>
    have hplain : PlainStep h v w := by
      refine ⟨?_, hc⟩
      unfold reference? at hv
      split at hv
      · rw [hi] at hv
        cases hv
      · exact Bool.eq_false_iff.mpr ‹_›
    have hnew : m ∉ seen := by
      intro hin
      obtain ⟨u, hu, hum, huv⟩ := hs m hin
      obtain ⟨a, rfl, rfl, _⟩ := identity_eq_some hn hi
      obtain ⟨b, rfl, hb, _⟩ := identity_eq_some hu hum
      cases hb
      exact hg _ .refl huv
    refine ⟨m :: seen, fun k hk => ?_, Nat.add_lt_add_of_lt_of_le
      (room_cons (identity_mem_marks hn hi) hnew) hc.weight_le⟩
    rcases List.mem_cons.mp hk with rfl | hk
    · exact ⟨v, hn, hi, .single hplain⟩
    · obtain ⟨u, hu, hum, huv⟩ := hs k hk
      exact ⟨u, hu, hum, huv.tail hplain⟩
  | none =>
    obtain ⟨o, rfl, _⟩ := identity_eq_none hi
    have hempty : seen = [] := by
      refine List.eq_nil_iff_forall_not_mem.mpr fun m hm => ?_
      obtain ⟨u, hu, hum, huv⟩ := hs m hm
      obtain ⟨a, rfl, _⟩ := identity_eq_some hu hum
      obtain ⟨b, hb⟩ :=
        contains_ref (ReflTransGen.mono (fun _ _ hs => hs.2) _ _ huv.to_reflTransGen) hn
      cases hb
    subst hempty
    exact ⟨[], fun m hm => (nomatch hm), Nat.add_lt_add_left hc.weight_lt _⟩

/-- How many steps a search needs below a value, where some references are entered and some
objects have been seen since the last one. -/
def stepsBelow (h : Heap) (T seen : List Mark) (v : Value) : Nat :=
  room h.marks T * (h.size + 1) + room h.marks seen + weight v + 1

/-- **A search lists the references that it enters**, given the steps it needs. -/
theorem lists_trackWithin {n : Nat} {seen : List Mark} {v : Value} {p : String}
    (hg : Grounded h v) (hs : SeenAbove h seen v) (hn : stepsBelow h T seen v ≤ n) :
    Lists h isOld T (fun T => Route h T (v, p)) (trackWithin h isOld n v p) := by
  induction n generalizing T seen v p with
  | zero => exact absurd hn (Nat.not_succ_le_zero _)
  | succ n ih =>
    have hparts : ∀ T' : List Mark, (∀ w, Contains h v w → ∃ seen', SeenAbove h seen' w ∧
        stepsBelow h T' seen' w ≤ n) → Lists h isOld T' (fun T => Among h T 0 (trackedParts h v p))
          ((trackedParts h v p).forM fun (x, q) => trackWithin h isOld n x q) := by
      intro T' hbelow
      refine lists_parts (fun x hx => ?_) 0
      have hc : Contains h v x.1 := (contains_iff p).mpr ⟨x.2, hx⟩
      obtain ⟨seen', hs', hn'⟩ := hbelow x.1 hc
      exact ih (hg.of_contains hc) hs' hn'
    unfold stepsBelow at hn hparts
    intro s hT
    rw [trackWithin_succ]
    cases hv : reference? h v with
    | none =>
      obtain ⟨L, hL, hrun⟩ := hparts T (fun w hc => by
        obtain ⟨seen', hs', hlt⟩ := seen_step hg hs hv hc
        exact ⟨seen', hs', by omega⟩) s hT
      exact ⟨L, listing_plain hv hL, hrun⟩
    | some m =>
      obtain ⟨a, rfl, rfl, hmark⟩ := reference?_eq_some hv
      dsimp only
      by_cases hm : some a ∈ s.met isOld
      · refine ⟨[], listing_seen hv hm, ?_⟩
        rw [run_bind_eq (by rw [run_trackMark, if_pos hm])]
        exact congrArg _ State.enter_nil.symm
      · have hmet : (s.enter isOld [(some a, p)]).met isOld = s.met isOld ++ [some a] :=
          State.met_enter
        obtain ⟨L, hL, hrun⟩ := hparts (some a :: T) (fun w hc => by
          refine ⟨[], fun m hm => (nomatch hm), ?_⟩
          have hroom := room_cons hmark fun hin => hm (hT hin)
          have hscaled := Nat.mul_le_mul_right (h.size + 1) (Nat.succ_le_of_lt hroom)
          have hseen := (room_le_card h.marks []).trans (card_marks h)
          have hweight := hc.weight_le
          rw [Nat.succ_mul] at hscaled
          omega) (s.enter isOld [(some a, p)]) (by
            rw [hmet]
            intro m hin
            rcases List.mem_cons.mp hin with rfl | hin
            · exact List.mem_append_right _ (List.mem_singleton.mpr rfl)
            · exact List.mem_append_left _ (hT hin))
        rw [hmet] at hL
        refine ⟨_, listing_reference hv hm hL, ?_⟩
        rw [run_bind_eq (by rw [run_trackMark, if_neg hm]), if_pos rfl, hrun, State.enter_enter]
        rfl

/-- **The search of a whole value** has the steps it needs. -/
theorem lists_track {v : Value} {p : String} (hg : Grounded h v) :
    Lists h isOld [] (fun T => Route h T (v, p)) (track h isOld v p) := by
  have hseen : SeenAbove h [] v := fun m hm => (nomatch hm)
  refine lists_trackWithin hg hseen ?_
  have hroom := (room_le_card h.marks []).trans (card_marks h)
  have hweight := weight_le_depth v
  unfold stepsBelow layerBound
  calc room h.marks [] * (h.size + 1) + room h.marks [] + weight v + 1
      ≤ h.size * (h.size + 1) + h.size + v.depth + 1 := by
        have := Nat.mul_le_mul_right (h.size + 1) hroom
        omega
    _ ≤ (h.size + 1) * (h.size + v.depth + 1) := by
        rw [Nat.succ_mul, Nat.mul_add h.size, Nat.mul_add h.size, Nat.mul_add h.size]
        omega

end Lists

end DocDelta.Diff
