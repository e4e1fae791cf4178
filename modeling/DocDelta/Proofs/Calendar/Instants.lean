import DocDelta.Proofs.Value.Scalars

/-! Dates and instants and the numbers that count them.

A date comes back from the number of its day, so an instant comes back from its clock reading: the
year is found from an estimate that is off by one at most, and the month by the days before it. -/
namespace DocDelta.Calendar

namespace Date

/-! ### Months and years -/

theorem daysBeforeMonth_succ (year : Nat) {month : Nat} (hm : 1 ≤ month) :
    daysBeforeMonth year (month + 1) = daysBeforeMonth year month + monthLength year month := by
  obtain ⟨k, rfl⟩ : ∃ k, month = k + 1 := ⟨month - 1, by omega⟩
  show (List.range (k + 1)).foldl _ 0 = (List.range k).foldl _ 0 + _
  rw [List.range_succ, List.foldl_append]
  rfl

theorem daysBeforeMonth_mono (year : Nat) {m n : Nat} (hm : 1 ≤ m) (hmn : m ≤ n) :
    daysBeforeMonth year m ≤ daysBeforeMonth year n := by
  induction n, hmn using Nat.le_induction with
  | base => exact Nat.le_refl _
  | succ n hn ih =>
    rw [daysBeforeMonth_succ year (hm.trans hn)]
    exact ih.trans (Nat.le_add_right ..)

theorem isLeap_iff (year : Nat) : isLeap year = true ↔ 4 ∣ year ∧ (¬ 100 ∣ year ∨ 400 ∣ year) := by
  simp only [Nat.dvd_iff_mod_eq_zero]
  exact decide_eq_true_iff

theorem daysBeforeYear_succ {year : Nat} (hy : 1 ≤ year) :
    daysBeforeYear (year + 1) = daysBeforeYear year + daysBeforeMonth year 13 := by
  have hlength : daysBeforeMonth year 13 = 365 + (if isLeap year then 1 else 0) := by
    unfold daysBeforeMonth monthLength
    cases isLeap year <;> rfl
  obtain ⟨k, rfl⟩ : ∃ k, year = k + 1 := ⟨year - 1, by omega⟩
  have hcenturies : k / 100 ≤ k / 4 := Nat.div_le_div_left (by decide) (by decide)
  have hfour : 100 ∣ k + 1 → 4 ∣ k + 1 := Nat.dvd_trans (by decide)
  have hhundred : 400 ∣ k + 1 → 100 ∣ k + 1 := Nat.dvd_trans (by decide)
  simp only [hlength, isLeap_iff, daysBeforeYear, Nat.add_sub_cancel, Nat.succ_div]
  by_cases h4 : 4 ∣ k + 1
  · by_cases h100 : 100 ∣ k + 1
    · by_cases h400 : 400 ∣ k + 1
      · simp only [h4, h100, h400, if_true, or_true, and_true]
        omega
      · simp only [h4, h100, h400, if_true, if_false, not_true, or_false, and_false]
        omega
    · have h400 : ¬ 400 ∣ k + 1 := fun h => h100 (hhundred h)
      simp only [h4, h100, h400, if_true, if_false, not_false_iff, true_or, and_true]
      omega
  · have h100 : ¬ 100 ∣ k + 1 := fun h => h4 (hfour h)
    have h400 : ¬ 400 ∣ k + 1 := fun h => h100 (hhundred h)
    simp only [h4, h100, h400, if_false, false_and]
    omega

/-- Where a day stands among the months and the years. -/
theorem dayNumber_bounds {d : Date} (hd : d.Proper) :
    daysBeforeYear d.year < d.dayNumber ∧ d.dayNumber ≤ daysBeforeYear (d.year + 1) := by
  obtain ⟨hy, _, hm, hm', hday, hday'⟩ := hd
  have hmonth := daysBeforeMonth_succ d.year hm
  have hyear : daysBeforeMonth d.year (d.month + 1) ≤ daysBeforeMonth d.year 13 :=
    daysBeforeMonth_mono d.year (Nat.succ_pos d.month) (by omega)
  rw [daysBeforeYear_succ hy, dayNumber]
  omega

/-- The days of the calendar are numbered from 1 to 3652059. -/
theorem dayNumber_range {d : Date} (hd : d.Proper) : 1 ≤ d.dayNumber ∧ d.dayNumber ≤ 3652059 := by
  obtain ⟨hlow, hhigh⟩ := dayNumber_bounds hd
  have hlast : daysBeforeYear (d.year + 1) ≤ daysBeforeYear 10000 := by
    have := hd.1
    have := hd.2.1
    simp only [daysBeforeYear]
    omega
  exact ⟨by omega, hhigh.trans hlast⟩

/-! ### From a number to its day -/

/-- A year is 365.2425 days long on the average, and no day is far from where that puts it. -/
theorem estimate_bounds {year n : Nat} (hl : daysBeforeYear year < n)
    (hu : n ≤ daysBeforeYear (year + 1)) :
    year ≤ (n - 1) * 400 / 146097 + 2 ∧ (n - 1) * 400 / 146097 ≤ year := by
  simp only [daysBeforeYear] at hl hu
  omega

theorem year_found {year n guess : Nat} (hg : guess = (n - 1) * 400 / 146097 + 1)
    (hl : daysBeforeYear year < n) (hu : n ≤ daysBeforeYear (year + 1)) :
    (if n ≤ daysBeforeYear guess then guess - 1
      else if daysBeforeYear (guess + 1) < n then guess + 1 else guess) = year := by
  obtain ⟨hlow, hhigh⟩ := estimate_bounds hl hu
  obtain rfl | rfl | rfl : guess = year + 1 ∨ guess = year ∨ guess + 1 = year := by omega
  · rw [if_pos hu, Nat.add_sub_cancel]
  · rw [if_neg (Nat.not_le_of_lt hl), if_neg (Nat.not_lt_of_le hu)]
  · have hbefore := daysBeforeYear_succ (by omega : 1 ≤ guess)
    rw [if_neg (by omega), if_pos hl]

theorem month_found {year month n : Nat} (hm : 1 ≤ month) (hm' : month ≤ 12)
    (hl : daysBeforeMonth year month < n) (hu : n ≤ daysBeforeMonth year (month + 1)) :
    ((List.range 12).filter fun m => daysBeforeMonth year (m + 1) < n).length = month := by
  have hcount : ∀ k ≤ 12, ((List.range 12).filter fun m => m < k).length = k := by decide
  have hbefore : (List.range 12).filter (fun m => daysBeforeMonth year (m + 1) < n) =
      (List.range 12).filter (fun m => m < month) := by
    refine List.filter_congr fun m _ => decide_eq_decide.mpr ⟨fun h => ?_, fun h => ?_⟩
    · by_contra hle
      have := daysBeforeMonth_mono year (m := month + 1) (n := m + 1) (by omega) (by omega)
      omega
    · have := daysBeforeMonth_mono year (m := m + 1) (n := month) (by omega) (by omega)
      omega
  rw [hbefore, hcount month hm']

/-- **A date comes back from the number of its day.** -/
theorem ofDayNumber_dayNumber {d : Date} (hd : d.Proper) : ofDayNumber d.dayNumber = d := by
  obtain ⟨hlow, hhigh⟩ := dayNumber_bounds hd
  obtain ⟨_, _, hm, hm', hday, hday'⟩ := hd
  have hyear := year_found rfl hlow hhigh
  have hinYear : d.dayNumber - daysBeforeYear d.year = daysBeforeMonth d.year d.month + d.day := by
    unfold dayNumber
    omega
  have hlow' : daysBeforeMonth d.year d.month < daysBeforeMonth d.year d.month + d.day := by omega
  have hhigh' : daysBeforeMonth d.year d.month + d.day ≤ daysBeforeMonth d.year (d.month + 1) := by
    rw [daysBeforeMonth_succ d.year hm]
    omega
  have hmonth := month_found hm hm' hlow' hhigh'
  simp only [ofDayNumber, hyear, hinYear, hmonth, Nat.add_sub_cancel_left]

end Date

/-! ### Clock readings -/

namespace DateTime

/-- An instant whose date and time are those of the calendar and of a clock. -/
def Proper (x : DateTime) : Prop := x.date.Proper ∧ x.time.Proper

instance (x : DateTime) : Decidable x.Proper := inferInstanceAs (Decidable (_ ∧ _))

/-- The same clock reading with another offset. -/
def withOffset (offset : Option Int) (x : DateTime) : DateTime :=
  { x with time := { x.time with offset } }

theorem inRange_iff (clock : Int) :
    inRange clock = true ↔ microsPerDay ≤ clock ∧ clock < 3652060 * microsPerDay :=
  decide_eq_true_iff

/-- Every clock reading lies in the calendar. -/
theorem inRange_clock {x : DateTime} (hx : x.Proper) : inRange x.clock = true := by
  have hday := Date.dayNumber_range hx.1
  obtain ⟨hlow, hhigh⟩ := Time.clock_bounds hx.2
  rw [inRange_iff]
  simp only [clock, microsPerDay, microsPerSecond] at hhigh ⊢
  omega

/-- **An instant comes back from its clock reading**, with whatever offset it is given. -/
theorem ofClock_clock {x : DateTime} (hx : x.Proper) (offset : Option Int) :
    ofClock x.clock offset = x.withOffset offset := by
  obtain ⟨hh, hm, hs, hu⟩ := hx.2
  obtain ⟨hlow, hhigh⟩ := Time.clock_bounds hx.2
  simp only [microsPerDay, microsPerSecond] at hhigh
  have hday : (x.clock / microsPerDay).toNat = x.date.dayNumber := by
    simp only [clock, microsPerDay, microsPerSecond]
    omega
  have hrest : (x.clock % microsPerDay).toNat =
      ((x.time.hour * 60 + x.time.minute) * 60 + x.time.second) * 1000000 + x.time.microsecond := by
    simp only [clock, microsPerDay, microsPerSecond]
    simp only [Time.clock, microsPerSecond] at hlow hhigh ⊢
    omega
  simp only [ofClock, hday, hrest, Date.ofDayNumber_dayNumber hx.1, withOffset, mk.injEq,
    Time.mk.injEq, true_and, and_true]
  omega

/-! ### Milliseconds -/

/-- The clock reading down to the millisecond. -/
def inMillis (x : DateTime) : DateTime :=
  { x with time := { x.time with microsecond := x.time.microsecond / 1000 * 1000 } }

theorem proper_inMillis {x : DateTime} (hx : x.Proper) : x.inMillis.Proper := by
  obtain ⟨hd, hh, hm, hs, hu⟩ := hx
  exact ⟨hd, hh, hm, hs, (Nat.div_mul_le_self ..).trans_lt hu⟩

theorem clock_inMillis (x : DateTime) :
    x.inMillis.clock = x.clock - (x.time.microsecond % 1000 : Nat) := by
  simp only [clock, Time.clock, inMillis]
  omega

/-- **A local instant, or one in UTC, comes back to the millisecond** from the milliseconds since
the epoch, with whatever offset it is given. -/
theorem ofEpoch?_millis {x : DateTime} (hx : x.Proper) (ho : x.time.offset.getD 0 = 0)
    (offset : Option Int) :
    ofEpoch? (1000 * (x.sinceEpoch / 1000)) offset = some (x.inMillis.withOffset offset) := by
  have hclock : 1000 * (x.sinceEpoch / 1000) + epochDay * microsPerDay = x.inMillis.clock := by
    rw [clock_inMillis]
    simp only [sinceEpoch, instant, ho, clock, Time.clock, epochDay, microsPerDay, microsPerSecond]
    omega
  have hproper := proper_inMillis hx
  rw [ofEpoch?]
  simp only [hclock]
  rw [if_pos (inRange_clock hproper), ofClock_clock hproper]

end DateTime

/-! ### Durations -/

/-- The whole span in seconds, as the nearest double. -/
def Duration.totalSeconds (d : Duration) : Number.Binary64 :=
  .ofRatio (d.micros < 0) d.micros.natAbs 1000000

end DocDelta.Calendar
