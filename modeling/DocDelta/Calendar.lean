import DocDelta.Number.Digits

/-! Dates, times of day, instants and durations.

Days are counted in the proleptic Gregorian calendar from 1 January of year 1, and every
comparison reduces to a count of microseconds. A time may carry an offset from UTC, in
seconds; one that carries none is local, and a local and an offset time are never equal. -/
namespace DocDelta.Calendar
open Number

/-- A calendar date; years run from 1 to 9999. -/
structure Date where
  year : Nat
  month : Nat
  day : Nat
  deriving DecidableEq, Repr, Inhabited

/-- A time of day, local or with an offset from UTC in seconds. -/
structure Time where
  hour : Nat
  minute : Nat
  second : Nat
  microsecond : Nat
  offset : Option Int
  deriving DecidableEq, Repr, Inhabited

structure DateTime where
  date : Date
  time : Time
  deriving DecidableEq, Repr, Inhabited

/-- A signed span of time; seconds and microseconds are never negative. -/
structure Duration where
  days : Int
  seconds : Nat
  microseconds : Nat
  deriving DecidableEq, Repr, Inhabited

def microsPerSecond : Int := 1000000
def microsPerDay : Int := 86400 * microsPerSecond

/-! ### Days -/

namespace Date

/-- The first date. -/
def first : Date := ⟨1, 1, 1⟩

def isLeap (year : Nat) : Bool := year % 4 = 0 ∧ (year % 100 ≠ 0 ∨ year % 400 = 0)

def monthLength (year month : Nat) : Nat :=
  match month with
  | 2 => if isLeap year then 29 else 28
  | 4 | 6 | 9 | 11 => 30
  | _ => 31

/-- Days in the years before this one. -/
def daysBeforeYear (year : Nat) : Nat :=
  let y := year - 1
  365 * y + y / 4 - y / 100 + y / 400

/-- Days in this year before the month. -/
def daysBeforeMonth (year month : Nat) : Nat :=
  (List.range (month - 1)).foldl (fun days m => days + monthLength year (m + 1)) 0

/-- The number of the day, 1 for the first date. -/
def dayNumber (d : Date) : Nat :=
  daysBeforeYear d.year + daysBeforeMonth d.year d.month + d.day

/-- The date of a day number. The year's estimate is at most one too large. -/
def ofDayNumber (n : Nat) : Date :=
  let guess := (n - 1) * 400 / 146097 + 1
  let year := if n ≤ daysBeforeYear guess then guess - 1
    else if daysBeforeYear (guess + 1) < n then guess + 1 else guess
  let inYear := n - daysBeforeYear year
  let month := ((List.range 12).filter fun m => daysBeforeMonth year (m + 1) < inYear).length
  ⟨year, month, inYear - daysBeforeMonth year month⟩

/-- Year, month and day, each zero-filled. -/
def text (d : Date) : String :=
  padded 4 d.year ++ "-" ++ padded 2 d.month ++ "-" ++ padded 2 d.day

end Date

/-! ### Times of day -/

namespace Time

def midnight : Time := ⟨0, 0, 0, 0, none⟩

/-- Microseconds since midnight, as the clock shows them. -/
def clock (t : Time) : Int :=
  ((t.hour * 60 + t.minute) * 60 + t.second : Nat) * microsPerSecond + t.microsecond

/-- Microseconds since midnight UTC, for a time with an offset. -/
def instant (t : Time) (offset : Int) : Int := t.clock - offset * microsPerSecond

/-- Order in time; none between a local time and one with an offset. -/
def compare? (a b : Time) : Option Ordering :=
  match a.offset, b.offset with
  | none, none => some (compare a.clock b.clock)
  | some x, some y => some (compare (a.instant x) (b.instant y))
  | _, _ => none

/-- Whether the clock shows midnight. -/
def isMidnight (t : Time) : Bool := t.clock = 0

/-- An offset as hours and minutes, and seconds where there are some. -/
def offsetText : Option Int → String
  | none => ""
  | some o =>
    let n := o.natAbs
    (if o < 0 then "-" else "+") ++ padded 2 (n / 3600) ++ ":" ++ padded 2 (n / 60 % 60) ++
      (if n % 60 = 0 then "" else ":" ++ padded 2 (n % 60))

def text (t : Time) : String :=
  padded 2 t.hour ++ ":" ++ padded 2 t.minute ++ ":" ++ padded 2 t.second ++
    (if t.microsecond = 0 then "" else "." ++ padded 6 t.microsecond) ++ offsetText t.offset

end Time

/-! ### Instants -/

namespace DateTime

/-- The first instant, local. -/
def first : DateTime := ⟨Date.first, Time.midnight⟩

/-- Microseconds since day 0, as the clock shows them. -/
def clock (x : DateTime) : Int := x.date.dayNumber * microsPerDay + x.time.clock

/-- Microseconds since day 0 in UTC; a local instant counts as UTC. -/
def instant (x : DateTime) : Int := x.clock - x.time.offset.getD 0 * microsPerSecond

/-- Order in time; none between a local instant and one with an offset. -/
def compare? (a b : DateTime) : Option Ordering :=
  if a.time.offset.isSome = b.time.offset.isSome then some (compare a.instant b.instant)
  else none

/-- Whether the clock shows the first instant. -/
def isFirst (x : DateTime) : Bool := x.date = Date.first ∧ x.time.isMidnight

/-- Date and time with a separator between them. -/
def textWith (separator : String) (x : DateTime) : String :=
  x.date.text ++ separator ++ x.time.text

/-- The instant whose clock shows a number of microseconds since day 0. -/
def ofClock (n : Int) (offset : Option Int) : DateTime :=
  let day := n / microsPerDay
  let rest := (n % microsPerDay).toNat
  let seconds := rest / 1000000
  ⟨Date.ofDayNumber day.toNat,
    ⟨seconds / 3600, seconds / 60 % 60, seconds % 60, rest % 1000000, offset⟩⟩

/-- The epoch of computer clocks, 1 January 1970, as a day number. -/
def epochDay : Int := 719163

/-- Microseconds since the epoch, in UTC. -/
def sinceEpoch (x : DateTime) : Int := x.instant - epochDay * microsPerDay

/-- Whether a clock reading lies in the years 1 to 9999. -/
def inRange (clock : Int) : Bool :=
  microsPerDay ≤ clock ∧ clock < (3652060 : Int) * microsPerDay

/-- The UTC instant at a number of microseconds since the epoch, within the calendar. -/
def ofEpoch? (n : Int) (offset : Option Int) : Option DateTime :=
  let clock := n + epochDay * microsPerDay
  if inRange clock then some (ofClock clock offset) else none

end DateTime

/-! ### Durations -/

namespace Duration

def zero : Duration := ⟨0, 0, 0⟩

/-- The whole span in microseconds. -/
def micros (d : Duration) : Int :=
  d.days * microsPerDay + d.seconds * microsPerSecond + d.microseconds

/-- The span of a number of microseconds. -/
def ofMicros (n : Int) : Duration :=
  let rest := (n % microsPerDay).toNat
  ⟨n / microsPerDay, rest / 1000000, rest % 1000000⟩

/-- The span of a number of seconds. -/
def ofSeconds (n : Int) : Duration := ofMicros (n * microsPerSecond)

/-- Days, where there are some, then hours, minutes and seconds. -/
def text (d : Duration) : String :=
  (if d.days = 0 then ""
    else integerText d.days ++ (if d.days.natAbs = 1 then " day, " else " days, ")) ++
  decimalText (d.seconds / 3600) ++ ":" ++ padded 2 (d.seconds / 60 % 60) ++ ":" ++
  padded 2 (d.seconds % 60) ++
  (if d.microseconds = 0 then "" else "." ++ padded 6 d.microseconds)

end Duration
end DocDelta.Calendar
