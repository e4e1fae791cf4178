import DocDelta.Proofs.Value.Acyclic

/-! Equal scalars are zero together.

Numbers that denote the same number, local times that show the same clock and instants that
coincide are all zero or none of them is. Instants are equal by their count of microseconds, so
for them the calendar comes in: a proper date and time are the first ones when the count says so. -/
namespace DocDelta
open Number Calendar

/-! ### Numbers and times -/

namespace Number.Decimal

theorem isZero_of_same {a b : Decimal} (hs : a.same b = true) : a.isZero = b.isZero := by
  have he : compare? a b = some .eq := eq_of_beq hs
  cases a with
  | nan n s p => cases he
  | infinite n =>
    cases b with
    | nan m s p => cases he
    | infinite m => rfl
    | finite m c e => cases n <;> cases he
  | finite n c e =>
    cases b with
    | nan m s p => cases c <;> cases he
    | infinite m => cases m <;> cases c <;> cases he
    | finite m d f =>
      cases c with
      | zero =>
        cases d with
        | zero => rfl
        | succ d => cases m <;> cases he
      | succ c =>
        cases d with
        | zero => cases n <;> cases he
        | succ d => rfl

end Number.Decimal

namespace Calendar

/-- A date of the calendar. -/
def Date.Proper (d : Date) : Prop :=
  1 ≤ d.year ∧ d.year ≤ 9999 ∧ 1 ≤ d.month ∧ d.month ≤ 12 ∧
    1 ≤ d.day ∧ d.day ≤ Date.monthLength d.year d.month

/-- A time that a clock can show. -/
def Time.Proper (t : Time) : Prop :=
  t.hour < 24 ∧ t.minute < 60 ∧ t.second < 60 ∧ t.microsecond < 1000000

instance (d : Date) : Decidable d.Proper := inferInstanceAs (Decidable (_ ∧ _))

instance (t : Time) : Decidable t.Proper := inferInstanceAs (Decidable (_ ∧ _))

theorem Date.le_daysBeforeMonth (year : Nat) {month : Nat} (hm : 2 ≤ month) :
    31 ≤ Date.daysBeforeMonth year month := by
  have hgrow : ∀ (ms : List Nat) (days : Nat),
      days ≤ ms.foldl (fun days m => days + Date.monthLength year (m + 1)) days := by
    intro ms
    induction ms with
    | nil => exact fun days => Nat.le_refl days
    | cons m ms ih => exact fun days => (Nat.le_add_right ..).trans (ih _)
  obtain ⟨k, rfl⟩ : ∃ k, month = k + 2 := ⟨month - 2, by omega⟩
  show 31 ≤ (List.range (k + 1)).foldl _ 0
  rw [List.range_succ_eq_map]
  exact hgrow _ _

/-- Day 1 is the first date. -/
theorem Date.eq_first {d : Date} (hd : d.Proper) (hn : d.dayNumber = 1) : d = Date.first := by
  obtain ⟨hy, _, hm, _, hday, _⟩ := hd
  unfold Date.dayNumber at hn
  have hmonth : d.month = 1 := by
    by_contra hne
    have hbefore : 31 ≤ Date.daysBeforeMonth d.year d.month := Date.le_daysBeforeMonth _ (by omega)
    omega
  have hyear : d.year = 1 := by
    by_contra hne
    have hleaps : (d.year - 1) / 100 ≤ (d.year - 1) / 4 :=
      Nat.div_le_div_left (by decide) (by decide)
    have : 365 ≤ Date.daysBeforeYear d.year := by
      simp only [Date.daysBeforeYear]
      omega
    omega
  have hlast : d.day = 1 := by omega
  obtain ⟨year, month, day⟩ := d
  simp only at hyear hmonth hlast
  rw [hyear, hmonth, hlast]
  rfl

theorem Time.clock_bounds {t : Time} (ht : t.Proper) : 0 ≤ t.clock ∧ t.clock < microsPerDay := by
  obtain ⟨hh, hm, hs, hu⟩ := ht
  simp only [Time.clock, microsPerDay, microsPerSecond]
  omega

/-- The first instant is the one at the end of day 0. -/
theorem DateTime.isFirst_iff {x : DateTime} (hd : x.date.Proper) (ht : x.time.Proper) :
    x.isFirst = true ↔ x.clock = microsPerDay := by
  have hbounds := Time.clock_bounds ht
  have hfirst : (Date.first.dayNumber : Int) = 1 := by decide
  simp only [DateTime.isFirst, DateTime.clock, Time.isMidnight, decide_eq_true_eq]
  constructor
  · rintro ⟨hdate, hclock⟩
    rw [hdate, hfirst, hclock]
    omega
  · intro hc
    simp only [microsPerDay, microsPerSecond] at hbounds hc
    have hn : x.date.dayNumber = 1 := by omega
    exact ⟨Date.eq_first hd hn, by rw [hn] at hc; omega⟩

end Calendar

/-! ### Plain values -/

theorem Object.tupleItems?_of_leaf {α : Type} {o : Object α} (hl : o.kind.isLeaf = true) :
    o.tupleItems? = none := by
  cases o <;> first | rfl | cases hl

namespace Heap

/-- The layers that documents are written of: scalars, local times, members of enumerations,
lists, tuples and maps from texts, none of a derived class, and records of any class. -/
def Plain (h : Heap) : Object Value → Prop
  | .nil | .bool _ | .int none _ | .float none _ | .decimal _ | .text none _ | .bytes none _ => True
  | .date d => d.Proper
  | .time t => t.offset = none ∧ t.Proper
  | .datetime x => x.time.offset = none ∧ x.date.Proper ∧ x.time.Proper
  | .duration _ | .member .. | .list none _ | .tuple none _ | .record .. => True
  | .map none es => ∀ e ∈ es, (h.view e.1).text?.isSome = true
  | _ => False

variable {h : Heap} {a b : Value} {x y : Object Value}

theorem plain_nil : h.Plain .nil := trivial

/-- Equal numbers of plain values are zero together. -/
theorem isZero_of_numbers (hx : h.Plain x) (hy : h.Plain y)
    (hn : sameObject.numbers h x y = .ok true) :
    (h.numeric? x).any Numeric.isZero = (h.numeric? y).any Numeric.isZero := by
  have hreal : ∀ {z : Object Value} {n : Numeric}, h.Plain z → h.numeric? z = some n →
      ∃ d, n = .real d := by
    intro z n hz hn
    cases z with
    | bool b => cases hn; exact ⟨_, rfl⟩
    | int c k => cases hn; exact ⟨_, rfl⟩
    | float c k => cases hn; exact ⟨_, rfl⟩
    | decimal d => cases hn; exact ⟨_, rfl⟩
    | complex re im => exact absurd hz id
    | member c m v =>
      simp only [numeric?] at hn
      split at hn
      · obtain ⟨k, _, rfl⟩ := Option.map_eq_some_iff.mp hn
        exact ⟨_, rfl⟩
      · cases hn
    | _ => cases hn
  unfold sameObject.numbers at hn
  split at hn
  · rename_i m n hm hn'
    obtain ⟨d, rfl⟩ := hreal hx hm
    obtain ⟨e, rfl⟩ := hreal hy hn'
    simp only [Numeric.same, Numeric.same.reals] at hn
    split at hn
    · cases hn
    · rw [hm, hn']
      exact Decimal.isZero_of_same (Except.ok.inj hn)
  · cases hn

/-- Two values that are one object show the same. -/
theorem view_eq_of_isSame (hs : Value.isSame h a b = true) : h.view a = h.view b := by
  unfold Value.isSame at hs
  split at hs
  · rename_i m n hm hn
    obtain rfl : m = n := eq_of_beq hs
    by_cases ha : h.view a = .nil
    · by_cases hb : h.view b = .nil
      · rw [ha, hb]
      · obtain ⟨i, rfl, rfl, hi⟩ := identity_eq_some hb hn
        cases a with
        | ref j =>
          simp only [Value.identity] at hm
          split at hm <;> cases hm
          rfl
        | inline o =>
          cases o <;> cases hm
    · obtain ⟨i, rfl, rfl, _⟩ := identity_eq_some ha hm
      cases b with
      | ref j =>
        simp only [Value.identity] at hn
        split at hn <;> cases hn
        rfl
      | inline o => cases o <;> cases hn
  · cases hs

/-- Objects that are one are the same value. -/
theorem eq_of_isSame (hs : Value.isSame h a b = true) (hn : h.view a ≠ .nil) : a = b := by
  have hb : h.view b ≠ .nil := view_eq_of_isSame hs ▸ hn
  unfold Value.isSame at hs
  split at hs
  · rename_i m n hm hn'
    obtain rfl : m = n := eq_of_beq hs
    obtain ⟨i, rfl, rfl, _⟩ := identity_eq_some hn hm
    obtain ⟨j, rfl, hj, _⟩ := identity_eq_some hb hn'
    cases hj
    rfl
  · cases hs

/-- What matches shows the same, or equal layers. -/
theorem layers_of_matching (hm : h.matching a b = .ok true) :
    h.view a = h.view b ∨ ∃ eq, h.sameObject eq (h.view a) (h.view b) = .ok true := by
  unfold matching matchPart at hm
  split at hm
  · exact .inl (view_eq_of_isSame ‹_›)
  · have hbound : h.pairBound a b = (h.size * h.size + a.depth + b.depth) + 1 := by
      simp only [pairBound]
      omega
    rw [same, hbound, sameWithin] at hm
    split at hm
    · rename_i hf
      refine .inl (view_eq_of_isSame ?_)
      exact (Bool.and_eq_true_iff.mp hf).2
    · exact .inr ⟨_, hm⟩

/-- A number is zero as a scalar when it is zero as a number. -/
theorem isZeroScalar_of_numeric {n : Numeric} (hn : h.numeric? x = some n) :
    h.isZeroScalar x = .ok true ↔ (h.numeric? x).any Numeric.isZero = true := by
  cases x with
  | decimal d =>
    have hz : (h.numeric? (.decimal d)).any Numeric.isZero = d.isZero := rfl
    rw [hz, isZeroScalar]
    cases d with
    | nan negative signaling payload => cases signaling <;> simp [Decimal.isSignaling, Decimal.isZero]
    | _ => simp [Decimal.isSignaling]
  | bool b => simp [isZeroScalar]
  | int c k => simp [isZeroScalar]
  | float c k => simp [isZeroScalar]
  | complex re im => simp [isZeroScalar]
  | member c m v => simp [isZeroScalar]
  | _ => cases hn

theorem isZeroScalar_of_numbers (hx : h.Plain x) (hy : h.Plain y)
    (hn : sameObject.numbers h x y = .ok true) :
    h.isZeroScalar x = .ok true ↔ h.isZeroScalar y = .ok true := by
  have hzero := isZero_of_numbers hx hy hn
  unfold sameObject.numbers at hn
  split at hn
  · rename_i m n hm hn'
    rw [isZeroScalar_of_numeric hm, isZeroScalar_of_numeric hn', hzero]
  · cases hn

/-- Plain scalars of one class that match are zero together. -/
theorem isZeroScalar_of_matching (ha : h.Plain (h.view a)) (hb : h.Plain (h.view b))
    (hf : (h.view a).form = (h.view b).form) (hl : (h.view a).kind.isLeaf = true)
    (hm : h.matching a b = .ok true) :
    h.isZeroScalar (h.view a) = .ok true ↔ h.isZeroScalar (h.view b) = .ok true := by
  rcases layers_of_matching hm with he | ⟨eq, hs⟩
  · rw [he]
  · clear hm
    generalize h.view a = x at *
    generalize h.view b = y at *
    unfold sameObject at hs
    split at hs
    case h_1 => rfl
    case h_2 => rfl
    case h_3 =>
      obtain rfl := eq_of_beq (Except.ok.inj hs)
      rfl
    case h_4 =>
      obtain rfl := eq_of_beq (Except.ok.inj hs)
      rfl
    case h_8 =>
      obtain rfl := eq_of_beq (Except.ok.inj hs)
      rfl
    case h_9 c d =>
      have hc : Time.compare? c d = some .eq := eq_of_beq (Except.ok.inj hs)
      rw [Time.compare?, ha.1, hb.1] at hc
      have hclock : c.clock = d.clock := compare_eq_iff_eq.mp (Option.some.inj hc)
      simp only [isZeroScalar, Time.isMidnight, hclock]
    case h_10 c d =>
      have hc : DateTime.compare? c d = some .eq := eq_of_beq (Except.ok.inj hs)
      rw [DateTime.compare?, ha.1, hb.1] at hc
      have hinstant : c.instant = d.instant := compare_eq_iff_eq.mp (Option.some.inj hc)
      have hclock : c.clock = d.clock := by
        simpa [DateTime.instant, ha.1, hb.1] using hinstant
      simp only [isZeroScalar, Except.ok.injEq]
      rw [DateTime.isFirst_iff ha.2.1 ha.2.2, DateTime.isFirst_iff hb.2.1 hb.2.2, hclock]
    case h_11 =>
      obtain rfl := eq_of_beq (Except.ok.inj hs)
      rfl
    case h_20 =>
      split at hs
      · split at hs
        · exact isZeroScalar_of_numbers ha hb hs
        · rename_i hw
          cases hf
          rw [Bool.and_self, Bool.not_eq_true] at hw
          simp [isZeroScalar, numeric?, hw]
      · cases hl
      · split at hs
        · rename_i htuple _
          rw [Object.tupleItems?_of_leaf hl] at htuple
          cases htuple
        · exact isZeroScalar_of_numbers ha hb hs
    all_goals first | exact absurd ha id | exact absurd hb id | cases hl

/-- Members that stand for equal whole numbers stand for values that match. -/
theorem matching_of_whole {m n : Int} (ha : (h.view a).whole? = some m)
    (hb : (h.view b).whole? = some n)
    (hs : Numeric.same (.real (.ofInt m)) (.real (.ofInt n)) = .ok true) :
    h.matching a b = .ok true := by
  have hbound : h.pairBound a b = (h.size * h.size + a.depth + b.depth) + 1 := by
    simp only [pairBound]
    omega
  unfold matching matchPart
  split
  · rfl
  · rw [same, hbound, sameWithin]
    generalize h.view a = x at ha
    generalize h.view b = y at hb
    cases x <;> cases ha
    all_goals cases y <;> cases hb
    all_goals exact hs

end Heap
end DocDelta
