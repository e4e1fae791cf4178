import DocDelta.Number.Decimal128
import DocDelta.Proofs.Value.Senses

/-! Numbers and the machine words that hold them.

A double of at most 53 significant bits and a decimal of at most 34 digits come back from their
words as they were put in. Quotients are rounded to such doubles. A decimal whose exponent is out
of the range of its word has an equal one with more or fewer zeros behind it, and that one comes
back. -/
namespace DocDelta.Number

/-! ### Fields of a word -/

/-- A sign above an exponent of `count` bits above a fraction of `place` bits. -/
def word (place count : Nat) (negative : Bool) (exponent fraction : Nat) : Nat :=
  (negative.toNat * 2 ^ count + exponent) * 2 ^ place + fraction

section Fields
variable {place count exponent fraction : Nat} (negative : Bool) (he : exponent < 2 ^ count)
  (hf : fraction < 2 ^ place)
include hf

theorem word_mod : word place count negative exponent fraction % 2 ^ place = fraction := by
  rw [word, Nat.mul_add_mod_self_right, Nat.mod_eq_of_lt hf]

theorem word_div : word place count negative exponent fraction / 2 ^ place =
    negative.toNat * 2 ^ count + exponent := by
  rw [word, Nat.add_comm, Nat.add_mul_div_right _ _ (Nat.two_pow_pos place), Nat.div_eq_of_lt hf,
    Nat.zero_add]

include he

/-- Bits that do not overlap are joined by addition. -/
theorem word_eq : negative.toNat <<< (place + count) ||| exponent <<< place ||| fraction =
    word place count negative exponent fraction := by
  have hupper : negative.toNat <<< (place + count) ||| exponent <<< place =
      (negative.toNat * 2 ^ count + exponent) <<< place := by
    rw [Nat.add_comm place, Nat.shiftLeft_add, ← Nat.shiftLeft_or_distrib,
      ← Nat.shiftLeft_add_eq_or_of_lt he, Nat.shiftLeft_eq negative.toNat]
  rw [hupper, ← Nat.shiftLeft_add_eq_or_of_lt hf, Nat.shiftLeft_eq, word]

theorem word_exponent :
    word place count negative exponent fraction / 2 ^ place % 2 ^ count = exponent := by
  rw [word_div negative hf, Nat.mul_add_mod_self_right, Nat.mod_eq_of_lt he]

theorem word_sign : (word place count negative exponent fraction).testBit (place + count) =
    negative := by
  have hsign : word place count negative exponent fraction / 2 ^ (place + count) =
      negative.toNat := by
    rw [Nat.pow_add, ← Nat.div_div_eq_div_mul, word_div negative hf, Nat.add_comm,
      Nat.add_mul_div_right _ _ (Nat.two_pow_pos count), Nat.div_eq_of_lt he, Nat.zero_add]
  rw [Nat.testBit_eq_decide_div_mod_eq, hsign]
  cases negative <;> rfl

theorem word_lt : word place count negative exponent fraction < 2 ^ (place + count + 1) := by
  have hupper : negative.toNat * 2 ^ count + exponent + 1 ≤ 2 ^ (count + 1) := by
    have := Nat.mul_le_mul_right (2 ^ count) (Nat.le_of_lt_succ (Bool.toNat_lt negative))
    rw [Nat.pow_succ]
    omega
  calc word place count negative exponent fraction
      < (negative.toNat * 2 ^ count + exponent + 1) * 2 ^ place := by
        rw [word, Nat.succ_mul]
        omega
    _ ≤ 2 ^ (count + 1) * 2 ^ place := Nat.mul_le_mul_right _ hupper
    _ = 2 ^ (place + count + 1) := by
        rw [← Nat.pow_add]
        congr 1
        omega

end Fields

/-! ### Doubles -/

namespace Binary64

/-- A number that a word holds: no more than 53 significant bits, and below the overflow. -/
def Proper : Binary64 → Prop
  | .finite _ units => 2 ^ (Nat.log2 units - 52) ∣ units ∧ units < 2 ^ (1024 + scale)
  | _ => True

instance (x : Binary64) : Decidable x.Proper := by
  cases x
  all_goals
    unfold Proper
    infer_instance

theorem signBit_eq (negative : Bool) : toWord.signBit negative = negative.toNat <<< (52 + 11) := by
  cases negative <;> rfl

theorem ofWord_word (negative : Bool) {exponent fraction : Nat} (he : exponent < 2 ^ 11)
    (hf : fraction < 2 ^ 52) : ofWord (word 52 11 negative exponent fraction) =
      if exponent = 2047 then if fraction = 0 then .infinite negative else .nan
      else if exponent = 0 then .finite negative fraction
      else .finite negative ((2 ^ 52 + fraction) * 2 ^ (exponent - 1)) := by
  have hsign : (word 52 11 negative exponent fraction).testBit 63 = negative :=
    word_sign negative he hf
  have hexponent : word 52 11 negative exponent fraction / 2 ^ 52 % 2048 = exponent :=
    word_exponent negative he hf
  simp only [ofWord, hsign, Nat.shiftRight_eq_div_pow, hexponent, Nat.shiftLeft_eq, Nat.one_mul,
    word_mod negative hf]

theorem toWord_small (negative : Bool) {units : Nat} (hs : Nat.log2 units < 52)
    (hu : units < 2 ^ 52) : toWord (.finite negative units) = word 52 11 negative 0 units := by
  have hword := word_eq negative (by decide : 0 < 2 ^ 11) hu
  rw [Nat.zero_shiftLeft, Nat.or_zero] at hword
  simp only [toWord, if_pos hs, signBit_eq]
  exact hword

theorem toWord_large (negative : Bool) {units : Nat} (hl : ¬ Nat.log2 units < 52)
    (he : Nat.log2 units - 51 < 2 ^ 11) : toWord (.finite negative units) =
      word 52 11 negative (Nat.log2 units - 51) (units / 2 ^ (Nat.log2 units - 52) % 2 ^ 52) := by
  have hfraction : units / 2 ^ (Nat.log2 units - 52) % 2 ^ 52 < 2 ^ 52 := Nat.mod_lt _ (by decide)
  simp only [toWord, if_neg hl, signBit_eq, Nat.shiftRight_eq_div_pow, Nat.one_shiftLeft]
  exact word_eq negative he hfraction

/-- A number of more than 52 bits is a leading bit and a fraction, shifted. -/
theorem significand {units : Nat} (hl : 52 ≤ Nat.log2 units)
    (hd : 2 ^ (Nat.log2 units - 52) ∣ units) :
    ∃ fraction < 2 ^ 52, units = (2 ^ 52 + fraction) * 2 ^ (Nat.log2 units - 52) := by
  have hne : units ≠ 0 := by
    rintro rfl
    exact absurd hl (by decide)
  obtain ⟨m, hm⟩ := hd
  have hpos : 0 < 2 ^ (Nat.log2 units - 52) := Nat.two_pow_pos _
  have hlow : 2 ^ 52 ≤ m := by
    refine Nat.le_of_mul_le_mul_left ?_ hpos
    rw [← hm, ← Nat.pow_add, Nat.sub_add_cancel hl]
    exact Nat.log2_self_le hne
  have hhigh : m < 2 ^ 53 := by
    refine Nat.lt_of_mul_lt_mul_left (a := 2 ^ (Nat.log2 units - 52)) ?_
    rw [← hm, ← Nat.pow_add, show Nat.log2 units - 52 + 53 = Nat.log2 units + 1 by omega]
    exact Nat.lt_log2_self
  refine ⟨m - 2 ^ 52, by omega, ?_⟩
  rw [Nat.add_sub_cancel' hlow, Nat.mul_comm]
  exact hm

theorem ofWord_toWord_finite (negative : Bool) {units : Nat}
    (hx : Proper (.finite negative units)) :
    ofWord (toWord (.finite negative units)) = .finite negative units ∧
      toWord (.finite negative units) < 2 ^ 64 := by
  obtain ⟨hdvd, hlt⟩ := hx
  by_cases hs : Nat.log2 units < 52
  · have hunits : units < 2 ^ 52 := by
      by_cases hz : units = 0
      · rw [hz]
        decide
      · exact (Nat.log2_lt hz).mp hs
    rw [toWord_small negative hs hunits, ofWord_word negative (by decide) hunits]
    exact ⟨rfl, word_lt negative (by decide) hunits⟩
  · have hne : units ≠ 0 := by
      rintro rfl
      exact hs (by decide)
    have hlog : Nat.log2 units < 1024 + scale := (Nat.log2_lt hne).mpr hlt
    unfold scale at hlog
    obtain ⟨fraction, hfraction, hunits⟩ := significand (Nat.le_of_not_lt hs) hdvd
    have hquotient : units / 2 ^ (Nat.log2 units - 52) = 2 ^ 52 + fraction :=
      Nat.div_eq_of_eq_mul_left (Nat.two_pow_pos _) hunits
    have hmod : (2 ^ 52 + fraction) % 2 ^ 52 = fraction := by omega
    rw [toWord_large negative hs (by omega), hquotient, hmod,
      ofWord_word negative (by omega) hfraction, if_neg (by omega), if_neg (by omega),
      show Nat.log2 units - 51 - 1 = Nat.log2 units - 52 by omega, ← hunits]
    exact ⟨rfl, word_lt negative (by omega) hfraction⟩

/-- **A double comes back from its word**, which has 64 bits. -/
theorem ofWord_toWord {x : Binary64} (hx : x.Proper) : ofWord x.toWord = x ∧ x.toWord < 2 ^ 64 := by
  cases x with
  | nan => decide +kernel
  | infinite negative => cases negative <;> decide +kernel
  | finite negative units => exact ofWord_toWord_finite negative hx

/-! ### Quotients -/

theorem roundDiv_le (num den : Nat) : roundDiv num den ≤ num / den + 1 := by
  unfold roundDiv
  dsimp only
  split
  · omega
  · split
    · omega
    · split <;> omega

/-- A rounded significand, shifted, has no more than 53 significant bits. -/
theorem dvd_shifted {m shift : Nat} (hm : m ≤ 2 ^ 53) :
    2 ^ (Nat.log2 (m * 2 ^ shift) - 52) ∣ m * 2 ^ shift := by
  by_cases hz : m = 0
  · rw [hz, Nat.zero_mul]
    exact Nat.dvd_zero _
  have hne : m * 2 ^ shift ≠ 0 := Nat.mul_ne_zero hz (Nat.two_pow_pos shift).ne'
  rcases Nat.lt_or_eq_of_le hm with hlt | rfl
  · refine Nat.dvd_trans (Nat.pow_dvd_pow 2 ?_) (Nat.dvd_mul_left _ m)
    have hbits : Nat.log2 (m * 2 ^ shift) < 53 + shift := by
      rw [Nat.log2_lt hne, Nat.pow_add]
      exact Nat.mul_lt_mul_of_pos_right hlt (Nat.two_pow_pos shift)
    omega
  · rw [← Nat.pow_add, Nat.log2_two_pow]
    exact Nat.pow_dvd_pow 2 (by omega)

/-- What a quotient is rounded to is a double. -/
theorem proper_ofRatio (negative : Bool) (num den : Nat) : (ofRatio negative num den).Proper := by
  simp only [ofRatio]
  split
  · rename_i hlt
    rw [Nat.one_shiftLeft] at hlt
    refine ⟨?_, hlt⟩
    rw [Nat.shiftLeft_eq (roundDiv _ _)]
    refine dvd_shifted ((roundDiv_le _ _).trans (Nat.succ_le_of_lt ?_))
    rw [Nat.shiftLeft_eq den, ← Nat.div_div_eq_div_mul]
    refine Nat.div_lt_of_lt_mul ?_
    rw [← Nat.pow_add]
    exact Nat.lt_log2_self.trans_le (Nat.pow_le_pow_right (by decide) (by omega))
  · trivial

end Binary64

/-! ### Decimals -/

theorem digitCount_le_iff {n k : Nat} (hk : 0 < k) : digitCount n ≤ k ↔ n < 10 ^ k :=
  Nat.length_toDigits_le_iff (by decide) hk

theorem digitCount_mul_ten {n : Nat} (hn : n ≠ 0) : digitCount (n * 10) = digitCount n + 1 := by
  have hten : 10 ≤ n * 10 := by omega
  rw [digitCount, digits, Nat.toDigits_of_base_le (by decide) hten, List.length_append,
    Nat.mul_div_cancel _ (by decide)]
  rfl

/-- Every factor of ten is a digit more. -/
theorem digitCount_mul_power {n : Nat} (hn : n ≠ 0) (k : Nat) :
    digitCount (n * 10 ^ k) = digitCount n + k := by
  induction k with
  | zero => rw [Nat.pow_zero, Nat.mul_one, Nat.add_zero]
  | succ k ih =>
    have hmul : n * 10 ^ k ≠ 0 := Nat.mul_ne_zero hn (Nat.pow_pos (by decide)).ne'
    rw [Nat.pow_succ, ← Nat.mul_assoc, digitCount_mul_ten hmul, ih, Nat.add_assoc]

namespace Decimal128

/-- A decimal of at most 34 digits, none of them but zeros beyond either end of the range. A NaN
carries no payload. -/
def Fits : Decimal → Prop
  | .finite _ c e => digitCount c ≤ precision ∧
      (c ≠ 0 → e + digitCount c ≤ greatestExponent + precision ∧
        10 ^ (leastExponent - e).toNat ∣ c)
  | .infinite _ => True
  | .nan _ _ payload => payload = 0

instance (d : Decimal) : Decidable (Fits d) := by
  cases d
  all_goals
    unfold Fits
    infer_instance

/-- A decimal with its exponent brought into the range: too large a one is written out in zeros, too
small a one takes zeros off, and that of a zero is moved. -/
def clamp : Decimal → Decimal
  | .finite negative c e =>
    if c = 0 then .finite negative 0 (min (max e leastExponent) greatestExponent)
    else if e < leastExponent then
      .finite negative (c / 10 ^ (leastExponent - e).toNat) leastExponent
    else if e ≤ greatestExponent then .finite negative c e
    else .finite negative (c * 10 ^ (e - greatestExponent).toNat) greatestExponent
  | d => d

/-- Nothing changes for an exponent within the range. -/
theorem clamp_eq {negative : Bool} {c : Nat} {e : Int} (hl : leastExponent ≤ e)
    (hg : e ≤ greatestExponent) : clamp (.finite negative c e) = .finite negative c e := by
  rw [clamp, if_neg (Int.not_lt.mpr hl), if_pos hg, max_eq_left hl, min_eq_left hg]
  split
  · rename_i hc
    rw [hc]
  · rfl

/-- Zeros at the end may stand in the exponent. -/
theorem same_shifted (negative : Bool) {c : Nat} (hc : c ≠ 0) (e : Int) (k : Nat) :
    ∃ q, (Decimal.finite negative (c * 10 ^ k) e).quantity = some q ∧
      (Decimal.finite negative c (e + k)).quantity = some q := by
  have hmul : c * 10 ^ k ≠ 0 := Nat.mul_ne_zero hc (Nat.pow_pos (by decide)).ne'
  have hvalue := (Decimal.scaled_eq c (c * 10 ^ k) e k).mpr rfl
  refine ⟨_, ?_, Decimal.quantity_of_ne_zero hc⟩
  rw [Decimal.quantity_of_ne_zero hmul, digitCount_mul_power hc, hvalue, Nat.cast_add,
    add_comm (digitCount c : Int), add_assoc]

/-- Every number keeps its value. -/
theorem same_clamp {d : Decimal} (hd : Fits d) (hn : d.isNaN = false) :
    (clamp d).same d = true := by
  rw [Decimal.same_iff]
  cases d with
  | nan => cases hn
  | infinite negative => exact ⟨_, rfl, rfl⟩
  | finite negative c e =>
    rw [clamp]
    split
    · rename_i hc
      rw [hc]
      exact ⟨_, rfl, rfl⟩
    · rename_i hc
      split
      · rename_i he
        obtain ⟨k, hk⟩ := Int.eq_ofNat_of_zero_le (a := leastExponent - e) (by omega)
        obtain ⟨m, rfl⟩ := (hd.2 hc).2
        have hm : m ≠ 0 := fun hz => hc (by rw [hz, Nat.mul_zero])
        obtain ⟨q, hq, hq'⟩ := same_shifted negative hm e k
        rw [hk, Int.toNat_natCast, Nat.mul_div_cancel_left _ (Nat.pow_pos (by decide)),
          show leastExponent = e + k by omega, Nat.mul_comm]
        exact ⟨q, hq', hq⟩
      · split
        · exact ⟨_, Decimal.quantity_of_ne_zero hc, Decimal.quantity_of_ne_zero hc⟩
        · obtain ⟨k, hk⟩ := Int.eq_ofNat_of_zero_le (a := e - greatestExponent) (by omega)
          obtain rfl : e = greatestExponent + k := by omega
          rw [hk, Int.toNat_natCast]
          exact same_shifted negative hc greatestExponent k

/-- A finite decimal within both ranges stays as it is. -/
theorem fit_finite {negative : Bool} {c : Nat} {e : Int} (hc : digitCount c ≤ precision)
    (hl : leastExponent ≤ e) (hg : e ≤ greatestExponent) :
    fit (.finite negative c e) = .ok (.finite negative c e) := by
  cases c with
  | zero => rw [fit, max_eq_left hl, min_eq_left hg]
  | succ c =>
    simp only [fit]
    rw [if_neg (by omega), if_neg (by omega), if_neg (by omega)]

theorem fit_nonzero {negative : Bool} {c : Nat} {e : Int} (hc : c ≠ 0)
    (hd : Fits (.finite negative c e)) :
    fit (.finite negative c e) = .ok (clamp (.finite negative c e)) := by
  obtain ⟨hdigits, hrange⟩ := hd
  obtain ⟨hg, hzeros⟩ := hrange hc
  have horder : leastExponent ≤ greatestExponent := by decide
  obtain ⟨c, rfl⟩ : ∃ k, c = k + 1 := ⟨c - 1, by omega⟩
  rw [clamp, if_neg hc]
  by_cases hl : e < leastExponent
  · have htarget : max (digitCount (c + 1) + e - precision) leastExponent = leastExponent := by
      omega
    -- What ends in so many zeros has more digits than those.
    have hcount : ¬ digitCount (c + 1) ≤ (leastExponent - e).toNat := by
      rw [digitCount_le_iff (by omega)]
      exact Nat.not_lt_of_le (Nat.le_of_dvd (Nat.succ_pos c) hzeros)
    have hmod : (c + 1) % power 10 (leastExponent - e).toNat = 0 := Nat.mod_eq_zero_of_dvd hzeros
    simp only [fit]
    rw [if_neg (by omega), htarget, if_pos hl, if_neg hcount, if_neg (not_not.mpr hmod), if_pos hl]
    rfl
  · rw [if_neg hl]
    by_cases he : e ≤ greatestExponent
    · rw [if_pos he]
      exact fit_finite hdigits (Int.not_lt.mp hl) he
    · rw [if_neg he]
      simp only [fit]
      rw [if_neg (by omega), if_neg (by omega), if_pos (by omega)]
      rfl

theorem fit_eq {d : Decimal} (hd : Fits d) : fit d = .ok (clamp d) := by
  cases d with
  | infinite negative => rfl
  | nan negative signaling payload =>
    obtain rfl : payload = 0 := hd
    rfl
  | finite negative c e =>
    by_cases hc : c = 0
    · subst hc
      rfl
    · exact fit_nonzero hc hd

/-- A clamped decimal has its digits and its exponent within the ranges. -/
theorem clamp_finite {negative : Bool} {c : Nat} {e : Int} (hd : Fits (.finite negative c e)) :
    ∃ c' e', clamp (.finite negative c e) = .finite negative c' e' ∧ digitCount c' ≤ precision ∧
      leastExponent ≤ e' ∧ e' ≤ greatestExponent := by
  obtain ⟨hdigits, hrange⟩ := hd
  have horder : leastExponent ≤ greatestExponent := by decide
  rw [clamp]
  split
  · exact ⟨0, _, rfl, by decide, by omega, by omega⟩
  · rename_i hc
    obtain ⟨hg, hzeros⟩ := hrange hc
    split
    · refine ⟨_, _, rfl, ?_, Int.le_refl _, horder⟩
      rw [digitCount_le_iff (by decide)] at hdigits ⊢
      exact (Nat.div_le_self ..).trans_lt hdigits
    · rename_i hl
      split
      · rename_i he
        exact ⟨c, e, rfl, hdigits, Int.not_lt.mp hl, he⟩
      · refine ⟨_, _, rfl, ?_, horder, Int.le_refl _⟩
        rw [digitCount_mul_power hc]
        omega

theorem signBit_eq (negative : Bool) :
    toWord.signBit negative = negative.toNat <<< (113 + 14) := by
  cases negative <;> rfl

/-- The exponents in use leave the upper codes of a word to what is not finite. -/
theorem ofWord_word (negative : Bool) {exponent c : Nat} (he : exponent < 3 * 2 ^ 12)
    (hc : c < 2 ^ 113) : ofWord (word 113 14 negative exponent c) =
      fit (.finite negative c (exponent + leastExponent)) := by
  have he' : exponent < 2 ^ 14 := by omega
  have hsign : (word 113 14 negative exponent c).testBit 127 = negative := word_sign negative he' hc
  have hexponent : ((word 113 14 negative exponent c / 2 ^ 113 : Nat) : Int) % 16384 = exponent :=
    congrArg Nat.cast (word_exponent negative he' hc)
  have htop : word 113 14 negative exponent c / 2 ^ 120 % 128 = exponent / 128 := by
    rw [show 120 = 113 + 7 from rfl, Nat.pow_add, ← Nat.div_div_eq_div_mul, word_div negative hc]
    omega
  simp only [ofWord, hsign, Nat.shiftRight_eq_div_pow, hexponent, htop, Nat.shiftLeft_eq,
    Nat.one_mul, word_mod negative hc]
  rw [if_neg (by omega), if_neg (by omega), if_neg (by omega), if_neg (by omega)]

/-- **A decimal comes back from its word**, which has 128 bits, with its exponent clamped. -/
theorem ofWord_toWord {d : Decimal} (hd : Fits d) :
    ∃ w, toWord d = .ok w ∧ w < 2 ^ 128 ∧ ofWord w = .ok (clamp d) := by
  have hfit := fit_eq hd
  cases d with
  | infinite negative => cases negative <;> exact ⟨_, rfl, by decide, rfl⟩
  | nan negative signaling payload =>
    obtain rfl : payload = 0 := hd
    cases negative <;> cases signaling <;> exact ⟨_, rfl, by decide, rfl⟩
  | finite negative c e =>
    obtain ⟨c', e', hclamp, hdigits, hl, hg⟩ := clamp_finite hd
    have hcoefficient : c' < 2 ^ 113 :=
      ((digitCount_le_iff (by decide)).mp hdigits).trans (by decide)
    have hcode : (e' - leastExponent).toNat < 3 * 2 ^ 12 := by
      simp only [leastExponent, greatestExponent] at hl hg ⊢
      omega
    have hword := word_eq negative (hcode.trans (by decide) : _ < 2 ^ 14) hcoefficient
    refine ⟨word 113 14 negative (e' - leastExponent).toNat c', ?_,
      word_lt negative (hcode.trans (by decide)) hcoefficient, ?_⟩
    · rw [toWord, hfit, hclamp, ← hword, ← signBit_eq]
      rfl
    · rw [ofWord_word negative hcode hcoefficient, hclamp,
        show ((e' - leastExponent).toNat : Int) + leastExponent = e' by omega]
      exact fit_finite hdigits hl hg

end Decimal128
end DocDelta.Number
