import Mathlib.Algebra.Field.Rat
import DocDelta.Proofs.Value.Equivalence
import DocDelta.Proofs.Value.Matching
import DocDelta.Proofs.Value.Zeros

/-! What scalars stand for.

Equality of scalars goes by what they stand for, their `sense`: a number by its exact value, a time
by its instant, a member by its name. A NaN and a plain object stand for nothing but themselves, and
a signaling NaN, which refuses to be compared, stands for nothing either (`matching_whole`). -/
namespace DocDelta
open Number Calendar

/-! ### Numbers -/

namespace Number.Decimal

/-- A number as comparison sees it: its sign, the place of its first digit and its magnitude. A NaN
compares with nothing. -/
def quantity : Decimal → Option (Ordering × Option (Int × ℚ))
  | .nan .. => none
  | .infinite n => some (if n then .lt else .gt, none)
  | .finite _ 0 _ => some (.eq, none)
  | .finite n c e => some (if n then .lt else .gt, some (e + digitCount c, c * 10 ^ e))

theorem scaled_eq (c d : Nat) (e : Int) (k : Nat) :
    (c : ℚ) * 10 ^ (e + k) = d * 10 ^ e ↔ c * power 10 k = d := by
  have hpower : (power 10 k : ℚ) = 10 ^ k := by
    rw [power]
    exact Nat.cast_pow 10 k
  have hne : (10 : ℚ) ^ e ≠ 0 := zpow_ne_zero e (by norm_num)
  rw [zpow_add₀ (by norm_num), zpow_natCast, mul_comm ((10 : ℚ) ^ e), ← mul_assoc,
    mul_left_inj' hne, ← hpower]
  exact_mod_cast Iff.rfl

theorem compareMagnitude_eq (c : Nat) (e : Int) (d : Nat) (f : Int) :
    compareMagnitude c e d f = .eq ↔
      (e + (digitCount c : Int), (c : ℚ) * 10 ^ e) = (f + (digitCount d : Int), (d : ℚ) * 10 ^ f) := by
  rw [compareMagnitude, Prod.mk.injEq]
  dsimp only
  split
  · rename_i hne
    exact ⟨fun h => absurd (compare_eq_iff_eq.mp h) hne, fun h => absurd h.1 hne⟩
  · rename_i htop
    rw [not_ne_iff] at htop
    simp only [htop, true_and]
    split
    · rename_i hshift
      obtain ⟨k, hk⟩ := Int.eq_ofNat_of_zero_le hshift
      obtain rfl : e = f + k := by omega
      rw [hk, compare_eq_iff_eq, scaled_eq]
      rfl
    · rename_i hshift
      obtain ⟨k, hk⟩ := Int.eq_ofNat_of_zero_le (a := -(e - f)) (by omega)
      obtain rfl : f = e + k := by omega
      rw [hk, compare_eq_iff_eq, eq_comm, eq_comm (a := (c : ℚ) * _), scaled_eq]
      rfl

/-- Numbers are the same where their quantities are. -/
theorem same_iff (a b : Decimal) :
    a.same b = true ↔ ∃ q, a.quantity = some q ∧ b.quantity = some q := by
  rw [same, beq_iff_eq]
  cases a with
  | nan n s p => simp [compare?, quantity]
  | infinite n =>
    cases b with
    | nan m s p => simp [compare?, quantity]
    | infinite m => cases n <;> cases m <;> simp [compare?, quantity]
    | finite m d f => rcases d with _ | d <;> cases n <;> cases m <;> simp [compare?, quantity]
  | finite n c e =>
    cases b with
    | nan m s p => rcases c with _ | c <;> simp [compare?, quantity]
    | infinite m => rcases c with _ | c <;> cases n <;> cases m <;> simp [compare?, quantity]
    | finite m d f =>
      rcases c with _ | c
      · rcases d with _ | d
        · simp [compare?, quantity]
        · cases m <;> simp [compare?, quantity]
      · rcases d with _ | d
        · cases n <;> simp [compare?, quantity]
        · cases n <;> cases m
          · simp only [compare?, quantity, Option.some.injEq, compareMagnitude_eq, exists_eq_left']
            rw [eq_comm]
            simp
          · simp [compare?, quantity]
          · simp [compare?, quantity]
          · simp only [compare?, quantity, Option.some.injEq, compareMagnitude_eq, exists_eq_left']
            simp

end Number.Decimal

namespace Number

theorem Decimal.quantity_of_ne_zero {n : Bool} {c : Nat} {e : Int} (hc : c ≠ 0) :
    (Decimal.finite n c e).quantity =
      some (if n then .lt else .gt, some (e + digitCount c, (c : ℚ) * 10 ^ e)) := by
  cases c with
  | zero => exact absurd rfl hc
  | succ c => rfl

theorem power_ne_zero (n : Nat) : power 5 n ≠ 0 := pow_ne_zero n (by decide)

namespace Binary64

theorem quantity_zero (n : Bool) :
    (Decimal.ofBinary64 (.finite n 0)).quantity = some (.eq, none) := by
  rw [Decimal.ofBinary64, Nat.zero_mul]
  rfl

theorem quantity_finite (n : Bool) {units : Nat} (hu : units ≠ 0) :
    ∃ i, (Decimal.ofBinary64 (.finite n units)).quantity = some (if n then .lt else .gt,
      some (i, (units * power 5 scale : Nat) * (10 : ℚ) ^ (-(scale : Int)))) := by
  rw [Decimal.ofBinary64, Decimal.quantity_of_ne_zero (Nat.mul_ne_zero hu (power_ne_zero scale))]
  exact ⟨_, rfl⟩

theorem quantity_magnitude (n : Bool) {units : Nat} (hu : units ≠ 0) :
    ∃ q, (Decimal.ofBinary64 (.finite n units)).quantity =
      some (if n then .lt else .gt, some q) := by
  obtain ⟨i, hi⟩ := quantity_finite n hu
  exact ⟨_, hi⟩

theorem isZero_iff (x : Binary64) :
    x.isZero = true ↔ (Decimal.ofBinary64 x).quantity = some (.eq, none) := by
  cases x with
  | nan => simp [isZero, Decimal.ofBinary64, Decimal.quantity]
  | infinite n => cases n <;> simp [isZero, Decimal.ofBinary64, Decimal.quantity]
  | finite n units =>
    by_cases hu : units = 0
    · subst hu
      exact ⟨fun _ => quantity_zero n, fun _ => rfl⟩
    · obtain ⟨i, hi⟩ := quantity_magnitude n hu
      rw [hi]
      cases units with
      | zero => exact absurd rfl hu
      | succ units => simp [isZero]

theorem finite_of_quantity {n m : Bool} {u v : Nat} (hu : u ≠ 0) (hv : v ≠ 0)
    (hq : (Decimal.ofBinary64 (.finite n u)).quantity =
      (Decimal.ofBinary64 (.finite m v)).quantity) : n = m ∧ u = v := by
  obtain ⟨i, hi⟩ := quantity_finite n hu
  obtain ⟨j, hj⟩ := quantity_finite m hv
  rw [hi, hj] at hq
  obtain ⟨hsign, hmagnitude⟩ := Prod.mk.inj (Option.some.inj hq)
  have hrational := (Prod.mk.inj (Option.some.inj hmagnitude)).2
  have hne : (10 : ℚ) ^ (-(scale : Int)) ≠ 0 := zpow_ne_zero _ (by norm_num)
  have hunits := Nat.cast_injective (mul_right_cancel₀ hne hrational)
  refine ⟨?_, Nat.eq_of_mul_eq_mul_right (Nat.pos_of_ne_zero (power_ne_zero scale)) hunits⟩
  cases n <;> cases m <;> first | rfl | cases hsign

/-- Doubles are the same where their quantities are. -/
theorem same_iff (x y : Binary64) : x.same y = true ↔
    ∃ q, (Decimal.ofBinary64 x).quantity = some q ∧ (Decimal.ofBinary64 y).quantity = some q := by
  have hnan : (Decimal.ofBinary64 .nan).quantity = none := rfl
  have hinfinite : ∀ n, (Decimal.ofBinary64 (.infinite n)).quantity =
      some (if n then .lt else .gt, none) := fun _ => rfl
  cases x with
  | nan => simp [same, hnan]
  | infinite n =>
    cases y with
    | nan => simp [same, hnan]
    | infinite m => cases n <;> cases m <;> simp [same, hinfinite]
    | finite m v =>
      by_cases hv : v = 0
      · subst hv
        cases n <;> simp [same, hinfinite, quantity_zero]
      · obtain ⟨j, hj⟩ := quantity_magnitude m hv
        simp [same, hinfinite, hj]
  | finite n u =>
    cases y with
    | nan => simp [same, hnan]
    | infinite m =>
      by_cases hu : u = 0
      · subst hu
        cases m <;> simp [same, hinfinite, quantity_zero]
      · obtain ⟨i, hi⟩ := quantity_magnitude n hu
        simp [same, hinfinite, hi]
    | finite m v =>
      have hsame : (u ≠ 0 ∨ v ≠ 0) → (same (.finite n u) (.finite m v) = true ↔ n = m ∧ u = v) := by
        rintro hne
        rcases u with _ | u <;> rcases v with _ | v <;> simp [same] at hne ⊢
      by_cases hu : u = 0
      · by_cases hv : v = 0
        · subst hu hv
          exact ⟨fun _ => ⟨_, quantity_zero n, quantity_zero m⟩, fun _ => rfl⟩
        · obtain ⟨j, hj⟩ := quantity_magnitude m hv
          rw [hsame (.inr hv), hj]
          subst hu
          simp [quantity_zero, Ne.symm hv]
      · rw [hsame (.inl hu)]
        obtain ⟨i, hi⟩ := quantity_magnitude n hu
        constructor
        · rintro ⟨rfl, rfl⟩
          exact ⟨_, hi, hi⟩
        · rintro ⟨q, hq, hq'⟩
          by_cases hv : v = 0
          · subst hv
            cases (quantity_zero m).symm.trans hq'
            exact absurd (congrArg (·.map (·.2)) (hi.symm.trans hq)) (by simp)
          · exact finite_of_quantity hu hv (hq.trans hq'.symm)

end Binary64
end Number

/-! ### Scalars -/

/-- What a scalar stands for. -/
inductive Sense
  | nothing
  | missing
  | number (q : Ordering × Option (Int × ℚ))
  | complex (re im : Ordering × Option (Int × ℚ))
  | text (s : String)
  | bytes (bs : List UInt8)
  | date (d : Date)
  | time (offset : Bool) (instant : Int)
  | datetime (offset : Bool) (instant : Int)
  | duration (d : Duration)
  | member (cls name : String)
  | type (name : String)

/-- What a number stands for. One without an imaginary part is a real one. -/
def Numeric.sense : Numeric → Option Sense
  | .real d => d.quantity.map .number
  | .complex re im =>
    if im.isZero then (Decimal.ofBinary64 re).quantity.map .number
    else (Decimal.ofBinary64 re).quantity.bind fun q =>
      (Decimal.ofBinary64 im).quantity.map (.complex q)

theorem Number.Decimal.quantity_signaling {d : Decimal} (hd : d.isSignaling = true) :
    d.quantity = none := by
  cases d with
  | nan => rfl
  | infinite n => cases hd
  | finite n c e => cases hd

theorem Numeric.reals_iff (d e : Decimal) : Numeric.same.reals d e = .ok true ↔
    ∃ q, d.quantity = some q ∧ e.quantity = some q := by
  rw [Numeric.same.reals, ← Decimal.same_iff]
  split
  · rename_i hs
    refine ⟨fun he => ?_, fun hq => ?_⟩
    · cases he
    obtain ⟨q, hq, hq'⟩ := (Decimal.same_iff d e).mp hq
    rcases Bool.or_eq_true_iff.mp hs with hs | hs
    · cases (Decimal.quantity_signaling hs).symm.trans hq
    · cases (Decimal.quantity_signaling hs).symm.trans hq'
  · exact ⟨Except.ok.inj, congrArg _⟩

/-- Numbers are the same where they stand for the same. -/
theorem Numeric.same_iff (m n : Numeric) :
    m.same n = .ok true ↔ ∃ s, m.sense = some s ∧ n.sense = some s := by
  have hreal : ∀ {x y : Option (Ordering × Option (Int × ℚ))},
      (∃ q, x = some q ∧ y = some q) ↔ ∃ s, x.map Sense.number = some s ∧ y.map .number = some s := by
    intro x y
    cases x <;> cases y <;> simp [eq_comm]
  have hmixed : ∀ (re im : Binary64) (d : Decimal), Numeric.same.mixed re im d = .ok true ↔
      ∃ s, (Numeric.complex re im).sense = some s ∧ (Numeric.real d).sense = some s := by
    intro re im d
    rw [Numeric.same.mixed, sense, sense]
    split
    · rw [reals_iff, hreal]
    · cases (Decimal.ofBinary64 re).quantity <;> cases (Decimal.ofBinary64 im).quantity <;>
        cases d.quantity <;> simp
  cases m with
  | real d =>
    cases n with
    | real e => exact (reals_iff d e).trans hreal
    | complex re im =>
      refine (hmixed re im d).trans (exists_congr fun s => and_comm)
  | complex re im =>
    cases n with
    | real e => exact hmixed re im e
    | complex re' im' =>
      simp only [same, Except.ok.injEq, Bool.and_eq_true, Binary64.same_iff, sense,
        Binary64.isZero_iff]
      generalize (Decimal.ofBinary64 re).quantity = p
      generalize (Decimal.ofBinary64 im).quantity = q
      generalize (Decimal.ofBinary64 re').quantity = p'
      generalize (Decimal.ofBinary64 im').quantity = q'
      split
      · rename_i hq
        subst hq
        split
        · rename_i hq'
          subst hq'
          simp [hreal]
        · rename_i hq'
          cases p' <;> cases q' <;> simp_all [eq_comm]
      · rename_i hq
        split
        · rename_i hq'
          subst hq'
          rcases q with _ | q
          · cases p <;> simp
          · have hne : ¬ (Ordering.eq, none) = q := fun he => hq (congrArg some he.symm)
            cases p <;> simp [hne]
        · cases p <;> cases q <;> cases p' <;> cases q' <;> simp [eq_comm]

/-- What a scalar other than a number stands for. -/
def Object.sense {α : Type} : Object α → Option Sense
  | .nil => some .nothing
  | .missing => some .missing
  | .text _ s => some (.text s)
  | .bytes _ bs | .buffer _ bs => some (.bytes bs)
  | .date d => some (.date d)
  | .time t => some (.time t.offset.isSome (t.instant (t.offset.getD 0)))
  | .datetime x => some (.datetime x.time.offset.isSome x.instant)
  | .duration d => some (.duration d)
  | .member c n _ => if c.isWhole then none else some (.member c.name n)
  | .type n _ => some (.type n)
  | _ => none

/-- The items of a set. -/
def Object.setItems? {α : Type} : Object α → Option (List α)
  | .set _ xs | .frozenset _ xs => some xs
  | _ => none

namespace Heap

theorem times_same {a b : Time} : (a.compare? b == some .eq) = true ↔
    a.offset.isSome = b.offset.isSome ∧
      a.instant (a.offset.getD 0) = b.instant (b.offset.getD 0) := by
  rw [beq_iff_eq, Time.compare?]
  cases ha : a.offset <;> cases hb : b.offset <;>
    simp [Time.instant]

theorem datetimes_same {a b : DateTime} : (a.compare? b == some .eq) = true ↔
    a.time.offset.isSome = b.time.offset.isSome ∧ a.instant = b.instant := by
  rw [beq_iff_eq, DateTime.compare?]
  split
  · rename_i he
    simp [he]
  · rename_i he
    simp [he]

/-- What a scalar stands for, unless it is told apart from any other object. -/
def sense (h : Heap) (o : Object Value) : Option Sense :=
  match h.numeric? o with
  | some n => n.sense
  | none => o.sense

variable {h : Heap} {x y : Object Value} {s : Sense} {n : Numeric}

theorem sense_of_numeric (hn : h.numeric? x = some n) : h.sense x = n.sense := by
  rw [sense, hn]

theorem sense_of_plain (hn : h.numeric? x = none) : h.sense x = x.sense := by
  rw [sense, hn]

/-- Numbers stand for numbers only. -/
theorem sense_ne_of_numeric (hs : n.sense = some s) : x.sense ≠ some s := by
  have hnumber : (∃ q, s = .number q) ∨ ∃ q r, s = .complex q r := by
    cases n with
    | real d =>
      obtain ⟨q, _, rfl⟩ := Option.map_eq_some_iff.mp hs
      exact .inl ⟨q, rfl⟩
    | complex re im =>
      rw [Numeric.sense] at hs
      split at hs
      · obtain ⟨q, _, rfl⟩ := Option.map_eq_some_iff.mp hs
        exact .inl ⟨q, rfl⟩
      · obtain ⟨q, _, hs⟩ := Option.bind_eq_some_iff.mp hs
        obtain ⟨r, _, rfl⟩ := Option.map_eq_some_iff.mp hs
        exact .inr ⟨q, r, rfl⟩
  rcases hnumber with ⟨q, rfl⟩ | ⟨q, r, rfl⟩
  · cases x <;> simp [Object.sense]
  · cases x <;> simp [Object.sense]

theorem numbers_iff : sameObject.numbers h x y = .ok true ↔
    ∃ m n s, h.numeric? x = some m ∧ h.numeric? y = some n ∧ m.sense = some s ∧ n.sense = some s := by
  unfold sameObject.numbers
  split
  · rename_i m n hm hn
    rw [Numeric.same_iff]
    constructor
    · rintro ⟨s, hs, hs'⟩
      exact ⟨m, n, s, hm, hn, hs, hs'⟩
    · rintro ⟨m', n', s, hm', hn', hs, hs'⟩
      cases hm.symm.trans hm'
      cases hn.symm.trans hn'
      exact ⟨s, hs, hs'⟩
  · rename_i hnone
    exact ⟨nofun, fun ⟨m, n, s, hm, hn, _⟩ => absurd hn (hnone m n hm)⟩

theorem sense_of_numbers (hn : sameObject.numbers h x y = .ok true) :
    ∃ s, h.sense x = some s ∧ h.sense y = some s := by
  obtain ⟨m, n, s, hm, hn, hs, hs'⟩ := numbers_iff.mp hn
  exact ⟨s, (sense_of_numeric hm).trans hs, (sense_of_numeric hn).trans hs'⟩

theorem whole_of_numeric {c : EnumClass} {m : String} {v : Value}
    (hn : (h.numeric? (.member c m v)).isSome = true) : c.isWhole = true := by
  by_contra hw
  rw [numeric?, if_neg hw] at hn
  cases hn

/-- Numbers are compared as such. -/
theorem sameObject_numbers {eq : Value → Value → Except Fault Bool}
    (hx : (h.numeric? x).isSome = true) (hy : (h.numeric? y).isSome = true) :
    h.sameObject eq x y = sameObject.numbers h x y := by
  cases x with
  | member c m v =>
    cases y with
    | member d n w => simp [sameObject, whole_of_numeric hx, whole_of_numeric hy]
    | _ => rfl
  | _ => first | (cases y <;> rfl) | cases hx

theorem member_of_sense {c : EnumClass} {cls m n : String} {v : Value}
    (hs : (Object.member c m v).sense = some (.member cls n)) :
    c.isWhole = false ∧ c.name = cls ∧ m = n := by
  rw [Object.sense] at hs
  split at hs
  · cases hs
  · rename_i hw
    obtain ⟨hname, hmember⟩ := Sense.member.inj (Option.some.inj hs)
    exact ⟨by simpa using hw, hname, hmember⟩

/-- Layers other than numbers that stand for the same are equal. -/
theorem sameObject_of_plain {eq : Value → Value → Except Fault Bool} (hs : x.sense = some s)
    (hs' : y.sense = some s) : h.sameObject eq x y = .ok true := by
  cases s
  all_goals cases x <;> first | (simp [Object.sense] at hs; done) | skip
  all_goals cases y <;> first | (simp [Object.sense] at hs'; done) | skip
  -- what stands for the same is of one sort
  case nothing.nil.nil | missing.missing.missing => rfl
  case time.time.time =>
    cases hs
    obtain ⟨ho, hi⟩ := Sense.time.inj (Option.some.inj hs')
    exact congrArg Except.ok (times_same.mpr ⟨ho.symm, hi.symm⟩)
  case datetime.datetime.datetime =>
    cases hs
    obtain ⟨ho, hi⟩ := Sense.datetime.inj (Option.some.inj hs')
    exact congrArg Except.ok (datetimes_same.mpr ⟨ho.symm, hi.symm⟩)
  case member.member.member =>
    obtain ⟨hw, hname, hmember⟩ := member_of_sense hs
    obtain ⟨-, hname', hmember'⟩ := member_of_sense hs'
    simp [sameObject, hw, hname, hname', hmember, hmember']
  all_goals
    cases hs
    cases hs'
    exact congrArg Except.ok (beq_self_eq_true _)

/-- Layers that stand for the same are equal. -/
theorem sameObject_of_sense {eq : Value → Value → Except Fault Bool} (hs : h.sense x = some s)
    (hs' : h.sense y = some s) : h.sameObject eq x y = .ok true := by
  unfold sense at hs hs'
  split at hs
  · rename_i m hm
    split at hs'
    · rename_i n hn
      rw [sameObject_numbers (Option.isSome_of_eq_some hm) (Option.isSome_of_eq_some hn)]
      exact numbers_iff.mpr ⟨m, n, s, hm, hn, hs, hs'⟩
    · exact absurd hs' (sense_ne_of_numeric hs)
  · split at hs'
    · exact absurd hs (sense_ne_of_numeric hs')
    · exact sameObject_of_plain hs hs'

/-- Equal layers that are compared as a whole, and not item by item, stand for the same. -/
theorem sense_of_sameObject {K : ClassTable} {eq : Value → Value → Except Fault Bool}
    (hxk : x.Follows K) (hyk : y.Follows K) (hw : x.Whole) (hi : x.setItems? = none)
    (he : h.sameObject eq x y = .ok true) : ∃ s, h.sense x = some s ∧ h.sense y = some s := by
  unfold sameObject at he
  split at he
  case h_1 => exact ⟨_, rfl, rfl⟩
  case h_2 => exact ⟨_, rfl, rfl⟩
  case h_3 => exact ⟨_, rfl, by rw [eq_of_beq (Except.ok.inj he)]; rfl⟩
  case h_8 => exact ⟨_, rfl, by rw [eq_of_beq (Except.ok.inj he)]; rfl⟩
  case h_9 =>
    obtain ⟨ho, hi⟩ := times_same.mp (Except.ok.inj he)
    exact ⟨_, rfl, by rw [sense_of_plain rfl, Object.sense, ho, hi]⟩
  case h_10 =>
    obtain ⟨ho, hi⟩ := datetimes_same.mp (Except.ok.inj he)
    exact ⟨_, rfl, by rw [sense_of_plain rfl, Object.sense, ho, hi]⟩
  case h_11 => exact ⟨_, rfl, by rw [eq_of_beq (Except.ok.inj he)]; rfl⟩
  case h_12 => exact ⟨_, rfl, by rw [eq_of_beq (Except.ok.inj he)]; rfl⟩
  case h_13 => exact absurd rfl hw.2.1
  case h_18 => exact absurd rfl hw.2.2
  case h_19 => exact absurd rfl hw.2.2
  case h_20 =>
    split at he
    · split at he
      · exact sense_of_numbers he
      · rename_i c m v d n w _ _ _ _ _ _ _ _ _ _ _ _ _ _ _ _ _ _ _ hboth
        obtain ⟨hname, hmember⟩ := Bool.and_eq_true_iff.mp (Except.ok.inj he)
        have hclass : c = d := by
          have hcls : (Object.member c m v).cls = (Object.member d n w).cls := by
            simp [Object.cls, eq_of_beq hname]
          have hform := Object.form_eq hxk hyk hcls
          cases hform
          rfl
        subst hclass
        have hwhole : c.isWhole = false := by simpa using hboth
        have hsense : ∀ m v, h.sense (.member c m v) = some (.member c.name m) := fun m v => by
          rw [sense_of_plain (by simp [numeric?, hwhole]), Object.sense, hwhole]
          rfl
        exact ⟨_, hsense m v, by rw [hsense, eq_of_beq hmember]⟩
    · rename_i c as d bs _ _ _ _ _ _ _ _ _ _ _ _ _ _ _ _ _ _ _
      obtain ⟨name, shape⟩ := c
      cases shape with
      | freeform => simp [RecordClass.isPositional, RecordClass.isDeclared] at he
      | _ => cases hw.1
    · split at he
      · rename_i hitems _
        rw [Object.tupleItems?_eq_some, hw.1] at hitems
        cases hitems
      · exact sense_of_numbers he
  -- bytes and buffers are of one sort here, and sets are excluded
  all_goals first
    | exact ⟨_, rfl, by rw [eq_of_beq (Except.ok.inj he)]; rfl⟩
    | cases hi

/-! ### Matching -/

section Matching
variable {K : ClassTable} {a b : Value} (hak : (h.view a).Follows K) (hbk : (h.view b).Follows K)
  (hw : (h.view a).Whole) (hi : (h.view a).setItems? = none)
include hak hbk hw hi

/-- A scalar equals what stands for the same, and nothing else but itself. -/
theorem sameWithin_whole (hs : Value.isSame h a b = false) (n : Nat) :
    h.sameWithin (n + 1) a b = .ok true ↔
      ∃ s, h.sense (h.view a) = some s ∧ h.sense (h.view b) = some s := by
  rw [sameWithin, hs, Bool.and_false, if_neg Bool.false_ne_true]
  refine ⟨sense_of_sameObject hak hbk hw hi, ?_⟩
  rintro ⟨s, hs, hs'⟩
  exact sameObject_of_sense hs hs'

/-- A scalar matches itself, and what stands for the same. -/
theorem matching_whole (hp : a = .nil ∨ ∃ i, a = .ref i) : h.matching a b = .ok true ↔
    a = b ∨ ∃ s, h.sense (h.view a) = some s ∧ h.sense (h.view b) = some s := by
  have hbound : h.pairBound a b = (h.size * h.size + a.depth + b.depth) + 1 := by
    simp only [pairBound]
    omega
  rw [matching, matchPart]
  split
  · rename_i hs
    refine ⟨fun _ => ?_, fun _ => rfl⟩
    by_cases hn : h.view a = .nil
    · exact .inr ⟨.nothing, by rw [hn]; rfl, by rw [← view_eq_of_isSame hs, hn]; rfl⟩
    · exact .inl (eq_of_isSame hs hn)
  · rename_i hs
    rw [same, hbound, sameWithin_whole hak hbk hw hi (Bool.eq_false_iff.mpr hs)]
    refine ⟨.inr, fun he => he.resolve_left ?_⟩
    rintro rfl
    rcases hp with rfl | ⟨i, rfl⟩
    · exact hs rfl
    · exact hs (isSame_ref i)

end Matching

end Heap
end DocDelta
