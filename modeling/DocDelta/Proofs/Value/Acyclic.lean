import DocDelta.Proofs.Value.Guarded

/-! Values that do not contain themselves.

The rank of a value counts the objects it reaches and the layers it stands above them. Below a
value without cycles every rank is lower, so induction on the rank is induction on the value, the
tests come to the end of it before their steps are used up, and what they remember of the way
down is never met again. `isZero_record` and `deepEqual_object` open the tests by one layer. -/
namespace DocDelta

theorem allHold_congr {α : Type} {f g : α → Except Fault Bool} {xs : List α}
    (hf : ∀ x ∈ xs, f x = g x) : allHold f xs = allHold g xs := by
  induction xs with
  | nil => rfl
  | cons x xs ih =>
    rw [allHold, allHold, hf x (List.mem_cons_self ..),
      ih fun y hy => hf y (List.mem_cons_of_mem x hy)]

theorem allHold_eq_true {α : Type} {f : α → Except Fault Bool} {xs : List α} :
    allHold f xs = .ok true ↔ ∀ x ∈ xs, f x = .ok true := by
  induction xs with
  | nil => simp [allHold]
  | cons x xs ih =>
    rw [allHold, List.forall_mem_cons, ← ih, bind_eq_ok]
    constructor
    · rintro ⟨b, hb, hr⟩
      cases b with
      | true => exact ⟨hb, hr⟩
      | false => cases hr
    · rintro ⟨hx, hr⟩
      exact ⟨true, hx, hr⟩

namespace Heap
open Relation
variable {h : Heap}

/-! ### Rank -/

open Classical in
/-- How many objects of the heap a value reaches, and how many layers it stands above them. -/
noncomputable def rank (h : Heap) (v : Value) : Nat :=
  (h.marks.filter fun m => ∃ w, h.Within v w ∧ h.view w ≠ .nil ∧ w.identity h = some m).card +
    weight v

section Rank
variable {v w u : Value}

theorem view_ne_nil_of_below (hw : TransGen h.Part v w) : h.view v ≠ .nil := by
  intro hv
  obtain ⟨u, hp, _⟩ := TransGen.head'_iff.mp hw
  have hp : u ∈ (h.view v).children := hp
  rw [hv] at hp
  cases hp

/-- No value below one without cycles is that object. -/
theorem Acyclic.identity_below (hv : h.Acyclic v) {m : Option Addr} (hm : v.identity h = some m)
    (hw : TransGen h.Part v w) (hu : h.Within w u) (hn : h.view u ≠ .nil) :
    u.identity h ≠ some m := by
  intro hum
  obtain ⟨a, rfl, rfl, _⟩ := identity_eq_some (view_ne_nil_of_below hw) hm
  obtain ⟨b, rfl, hb, _⟩ := identity_eq_some hn hum
  cases hb
  exact hv _ .refl (TransGen.trans_left hw hu)

/-- Ranks fall on the way down. -/
theorem Acyclic.rank_below (hv : h.Acyclic v) (hw : TransGen h.Part v w) :
    rank h w < rank h v := by
  classical
  have hnil := view_ne_nil_of_below hw
  have hsub : (h.marks.filter fun m => ∃ u, h.Within w u ∧ h.view u ≠ .nil ∧ u.identity h = some m) ⊆
      h.marks.filter fun m => ∃ u, h.Within v u ∧ h.view u ≠ .nil ∧ u.identity h = some m := by
    intro m hm
    obtain ⟨hm, u, hu, hn, hi⟩ := Finset.mem_filter.mp hm
    exact Finset.mem_filter.mpr ⟨hm, u, hw.to_reflTransGen.trans hu, hn, hi⟩
  unfold rank
  cases hi : v.identity h with
  | none =>
    obtain ⟨o, rfl, _⟩ := identity_eq_none hi
    exact Nat.add_lt_add_of_le_of_lt (Finset.card_le_card hsub) (weight_below_inline hw)
  | some m =>
    refine Nat.add_lt_add_of_lt_of_le (Finset.card_lt_card ⟨hsub, fun hback => ?_⟩) (weight_below hw)
    have hm := hback (Finset.mem_filter.mpr ⟨identity_mem_marks hnil hi, v, .refl, hnil, hi⟩)
    obtain ⟨_, u, hu, hn, hum⟩ := Finset.mem_filter.mp hm
    exact hv.identity_below hi hw hu hn hum

theorem rank_nil : rank h .nil = 0 := by
  classical
  have hempty : (h.marks.filter fun m => ∃ w, h.Within .nil w ∧ h.view w ≠ .nil ∧
      w.identity h = some m) = ∅ := by
    refine Finset.filter_eq_empty_iff.mpr fun m _ hm => ?_
    obtain ⟨w, hw, hn, _⟩ := hm
    rw [within_nil hw] at hn
    exact hn rfl
  unfold rank
  rw [hempty]
  rfl

theorem rank_pos (hv : h.view v ≠ .nil) : 0 < rank h v := by
  classical
  unfold rank
  cases hi : v.identity h with
  | none =>
    obtain ⟨o, rfl, ho⟩ := identity_eq_none hi
    rw [weight_inline ho]
    exact Nat.add_pos_right _ depth_pos
  | some m =>
    refine Nat.add_pos_left (Finset.card_pos.mpr ⟨m, ?_⟩) _
    exact Finset.mem_filter.mpr ⟨identity_mem_marks hv hi, v, .refl, hv, hi⟩

theorem Acyclic.rank_fieldValue (hv : h.Acyclic v) (hn : h.view v ≠ .nil) (name : String) :
    rank h (h.fieldValue v name) < rank h v := by
  rcases fieldValue_part v name with he | hp
  · rw [he, rank_nil]
    exact rank_pos hn
  · exact hv.rank_below (.single hp)

theorem rank_le (v : Value) : rank h v ≤ h.size + v.depth := by
  classical
  have hcard := (Finset.card_filter_le h.marks fun m =>
    ∃ w, h.Within v w ∧ h.view w ≠ .nil ∧ w.identity h = some m).trans (card_marks h)
  exact Nat.add_le_add hcard (weight_le_depth v)

theorem rank_lt_layerBound (v : Value) : rank h v < h.layerBound v :=
  Nat.lt_succ_of_le (rank_le v)

theorem rank_lt_pairBound (a b : Value) : rank h a < h.pairBound a b := by
  have := rank_le (h := h) a
  have := Nat.le_mul_self h.size
  simp only [pairBound]
  omega

/-- Induction on values without cycles. -/
theorem Acyclic.induction {P : Value → Prop}
    (step : ∀ v, h.Acyclic v → (∀ w, h.Acyclic w → rank h w < rank h v → P w) → P v)
    {v : Value} (hv : h.Acyclic v) : P v := by
  induction hr : rank h v using Nat.strong_induction_on generalizing v with
  | _ n ih => exact step v hv fun w hw hlt => ih (rank h w) (hr ▸ hlt) hw rfl

end Rank

/-! ### What is remembered of the way down -/

/-- Nothing within a value is among some objects. -/
def Untouched (h : Heap) (active : List (Option Addr)) (v : Value) : Prop :=
  ∀ w m, h.Within v w → h.view w ≠ .nil → w.identity h = some m → m ∉ active

section Untouched
variable {v w : Value} {active : List (Option Addr)}

theorem untouched_nil (v : Value) : Untouched h [] v := fun _ _ _ _ _ => List.not_mem_nil

theorem Untouched.of_within (hu : Untouched h active v) (hw : h.Within v w) :
    Untouched h active w := fun u m hwu => hu u m (hw.trans hwu)

/-- An object entered is not met below itself. -/
theorem Untouched.cons (hu : Untouched h active v) (hv : h.Acyclic v) {m : Option Addr}
    (hm : v.identity h = some m) (hw : TransGen h.Part v w) : Untouched h (m :: active) w := by
  intro u k hwu hn hk hin
  rcases List.mem_cons.mp hin with rfl | hin
  · exact hv.identity_below hm hw hwu hn hk
  · exact hu u k (hw.to_reflTransGen.trans hwu) hn hk hin

theorem untouched_empty {v : Value} (hv : v = .nil) : Untouched h active v := by
  intro w m hw hn
  rw [hv] at hw
  rw [within_nil hw] at hn
  exact absurd rfl hn

theorem not_contains_of_untouched (hu : Untouched h active v) (hn : h.view v ≠ .nil)
    {m : Option Addr} (hm : v.identity h = some m) : active.contains m = false := by
  have hout := hu v m .refl hn hm
  simpa using hout

end Untouched

/-! ### Zero values -/

section Zero
variable {v : Value}

/-- Neither the steps left nor what is remembered matters to the test for zero. -/
theorem isZeroWithin_eq {n m : Nat} {as bs : List (Option Addr)} (hv : h.Acyclic v)
    (hn : rank h v < n) (hm : rank h v < m) (ha : Untouched h as v) (hb : Untouched h bs v) :
    h.isZeroWithin n as v = h.isZeroWithin m bs v := by
  induction n generalizing m as bs v with
  | zero => exact absurd hn (Nat.not_lt_zero _)
  | succ n ih =>
    obtain ⟨m, rfl⟩ : ∃ k, m = k + 1 := ⟨m - 1, by omega⟩
    rw [isZeroWithin, isZeroWithin]
    cases hk : (h.view v).kind with
    | record =>
      have hnil := Object.ne_nil_of_record hk
      have hpart := fun (f : Field) => fieldValue_part (h := h) v f.name
      have hlt := fun (f : Field) => hv.rank_fieldValue hnil f.name
      dsimp only
      cases hi : v.identity h with
      | none =>
        refine allHold_congr fun f _ => ih (hv.fieldValue f.name) ?_ ?_ ?_ ?_
        · exact Nat.lt_of_lt_of_le (hlt f) (Nat.le_of_lt_succ hn)
        · exact Nat.lt_of_lt_of_le (hlt f) (Nat.le_of_lt_succ hm)
        · exact (hpart f).elim untouched_empty fun hp => ha.of_within (.single hp)
        · exact (hpart f).elim untouched_empty fun hp => hb.of_within (.single hp)
      | some x =>
        dsimp only
        rw [not_contains_of_untouched ha hnil hi, not_contains_of_untouched hb hnil hi]
        refine allHold_congr fun f _ => ih (hv.fieldValue f.name) ?_ ?_ ?_ ?_
        · exact Nat.lt_of_lt_of_le (hlt f) (Nat.le_of_lt_succ hn)
        · exact Nat.lt_of_lt_of_le (hlt f) (Nat.le_of_lt_succ hm)
        · exact (hpart f).elim untouched_empty fun hp => ha.cons hv hi (.single hp)
        · exact (hpart f).elim untouched_empty fun hp => hb.cons hv hi (.single hp)
    | _ => rfl

/-- A record without cycles is zero when its exported fields are. -/
theorem isZero_record (hv : h.Acyclic v) (hk : (h.view v).kind = .record) :
    h.isZero v = allHold (fun f => h.isZero (h.fieldValue v f.name)) (h.view v).fields := by
  have hnil := Object.ne_nil_of_record hk
  have hpart := fun (f : Field) => fieldValue_part (h := h) v f.name
  have hlt := fun (f : Field) => hv.rank_fieldValue hnil f.name
  have hbound : rank h v ≤ h.size + v.depth := rank_le v
  rw [isZero, layerBound, isZeroWithin]
  simp only [hk]
  cases hi : v.identity h with
  | none =>
    refine allHold_congr fun f _ => isZeroWithin_eq (hv.fieldValue f.name) ?_ ?_ ?_ ?_
    · exact Nat.lt_of_lt_of_le (hlt f) hbound
    · exact rank_lt_layerBound _
    · exact untouched_nil _
    · exact untouched_nil _
  | some x =>
    refine allHold_congr fun f _ => isZeroWithin_eq (hv.fieldValue f.name) ?_ ?_ ?_ ?_
    · exact Nat.lt_of_lt_of_le (hlt f) hbound
    · exact rank_lt_layerBound _
    · exact (hpart f).elim untouched_empty fun hp => (untouched_nil v).cons hv hi (.single hp)
    · exact untouched_nil _

theorem isZero_counted (hk : (h.view v).kind = .sequence ∨ (h.view v).kind = .mapping) :
    h.isZero v = .ok (h.entryCount (h.view v) == 0) := by
  rw [isZero, layerBound, isZeroWithin]
  rcases hk with hk | hk <;> simp only [hk]

theorem isZero_leaf (hk : (h.view v).kind.isLeaf = true) : h.isZero v = h.isZeroScalar (h.view v) := by
  rw [isZero, layerBound, isZeroWithin]
  generalize (h.view v).kind = k at hk
  cases k <;> first | rfl | cases hk

end Zero

/-! ### Structural equality -/

section Equality
variable {a b : Value}

theorem equalParts_congr {eq eq' : Value → Value → Except Fault Bool}
    (he : ∀ u w, TransGen h.Part a u → eq u w = eq' u w) :
    h.equalParts eq (h.view a) (h.view b) = h.equalParts eq' (h.view a) (h.view b) := by
  unfold equalParts
  split
  · split
    · refine allHold_congr fun name _ => ?_
      split
      · rename_i x y hx hy
        exact he x y (.single (attribute?_mem hx))
      · rfl
    · rfl
  · refine congrArg (h.sameKeys _ _ >>= ·) (funext fun same => ?_)
    refine congrArg (fun r => if same = true then r else .ok false) (allHold_congr fun e hm => ?_)
    refine congrArg (h.find? e.1 _ >>= ·) (funext fun found => ?_)
    cases found with
    | none => rfl
    | some w =>
      cases has : h.entries? (h.view a) with
      | none =>
        rw [has] at hm
        cases hm
      | some as =>
        rw [has] at hm
        exact he e.2 w (entries?_below has hm).2
  · dsimp only
    split
    · refine allHold_congr fun p hp => ?_
      exact he p.1 p.2 (.single (items?_part (List.of_mem_zip hp).1))
    · rfl

/-- A pair is always entered anew. -/
theorem Untouched.assume (ha : h.Acyclic a) (hn : h.view a ≠ .nil) {active : Assumed}
    (hu : Untouched h (active.map (·.1)) a) :
    ∃ inner, h.assume active a b = some inner ∧
      ∀ u, TransGen h.Part a u → Untouched h (inner.map (·.1)) u := by
  unfold Heap.assume
  split
  · rename_i x y hx hy
    have hout : active.contains (x, y) = false := by
      refine Bool.eq_false_iff.mpr fun hin => ?_
      exact hu a x .refl hn hx (List.mem_map_of_mem (List.contains_iff_mem.mp hin))
    rw [hout]
    exact ⟨_, rfl, fun u hau => hu.cons ha hx hau⟩
  · exact ⟨active, rfl, fun u hau => hu.of_within hau.to_reflTransGen⟩

/-- Neither the steps left nor what is remembered matters to the comparison. -/
theorem deepEqualWithin_eq {n m : Nat} {as bs : Assumed} (ha : h.Acyclic a)
    (hn : rank h a < n) (hm : rank h a < m) (has : Untouched h (as.map (·.1)) a)
    (hbs : Untouched h (bs.map (·.1)) a) :
    h.deepEqualWithin n as a b = h.deepEqualWithin m bs a b := by
  induction n generalizing m as bs a b with
  | zero => exact absurd hn (Nat.not_lt_zero _)
  | succ n ih =>
    obtain ⟨m, rfl⟩ : ∃ k, m = k + 1 := ⟨m - 1, by omega⟩
    by_cases hc : (h.view a).cls = (h.view b).cls
    · cases hl : (h.view a).kind.isLeaf with
      | true => rw [deepEqualWithin_leaf hc hl, deepEqualWithin_leaf hc hl]
      | false =>
        rw [deepEqualWithin_object hc hl, deepEqualWithin_object hc hl]
        have hnil := view_ne_nil_of_object hl
        obtain ⟨as', has', hau⟩ := has.assume (b := b) ha hnil
        obtain ⟨bs', hbs', hbu⟩ := hbs.assume (b := b) ha hnil
        rw [has', hbs']
        congr 1
        refine equalParts_congr fun u w hu => ih (ha.of_within hu.to_reflTransGen) ?_ ?_ ?_ ?_
        · exact Nat.lt_of_lt_of_le (ha.rank_below hu) (Nat.le_of_lt_succ hn)
        · exact Nat.lt_of_lt_of_le (ha.rank_below hu) (Nat.le_of_lt_succ hm)
        · exact hau u hu
        · exact hbu u hu
    · rw [deepEqualWithin_classes hc, deepEqualWithin_classes hc]

/-- Objects without cycles are equal when they are one object or their parts are equal. -/
theorem deepEqual_object (ha : h.Acyclic a) (hc : (h.view a).cls = (h.view b).cls)
    (hl : (h.view a).kind.isLeaf = false) :
    h.deepEqual a b =
      if Value.isSame h a b then .ok true else h.equalParts h.deepEqual (h.view a) (h.view b) := by
  have hnil := view_ne_nil_of_object hl
  have hbound : rank h a ≤ a.depth + b.depth + h.size * h.size :=
    Nat.le_of_lt_succ (rank_lt_pairBound a b)
  have hstart : Untouched h (([] : Assumed).map (·.1)) a := untouched_nil a
  obtain ⟨inner, hi, hu⟩ := hstart.assume (b := b) ha hnil
  rw [deepEqual, pairBound, deepEqualWithin_object hc hl, hi]
  congr 1
  refine equalParts_congr fun u w hau => deepEqualWithin_eq (ha.of_within hau.to_reflTransGen) ?_ ?_ ?_ ?_
  · exact Nat.lt_of_lt_of_le (ha.rank_below hau) hbound
  · exact rank_lt_pairBound u w
  · exact hu u hau
  · exact untouched_nil u

theorem deepEqual_leaf (hc : (h.view a).cls = (h.view b).cls)
    (hl : (h.view a).kind.isLeaf = true) : h.deepEqual a b = h.matching a b := by
  rw [deepEqual, pairBound, deepEqualWithin_leaf hc hl]

theorem deepEqual_classes (he : h.deepEqual a b = .ok true) : (h.view a).cls = (h.view b).cls := by
  by_contra hc
  rw [deepEqual, pairBound, deepEqualWithin_classes hc] at he
  cases he

end Equality

end Heap
end DocDelta
