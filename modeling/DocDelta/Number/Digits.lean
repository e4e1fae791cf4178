/-! Whole numbers in positional notation, and quotients rounded to the nearest whole
number. Every number text of the library is built from these, so its digits are exact
whatever their count. -/
namespace DocDelta.Number

/-- A power of a natural number. -/
def power (base n : Nat) : Nat := Nat.pow base n

/-- The decimal digits of a number, most significant first; zero has one digit. -/
def digits (n : Nat) : List Char := Nat.toDigits 10 n

/-- How many decimal digits a number has. -/
def digitCount (n : Nat) : Nat := (digits n).length

/-- The decimal text of a number. -/
def decimalText (n : Nat) : String := String.ofList (digits n)

/-- The decimal text of an integer, with a minus sign when it is negative. -/
def integerText : Int → String
  | .ofNat n => decimalText n
  | .negSucc n => "-" ++ decimalText (n + 1)

/-- The decimal text of a number, filled with zeros on the left up to `width`. -/
def padded (width n : Nat) : String :=
  let ds := digits n
  String.ofList (List.replicate (width - ds.length) '0' ++ ds)

/-- The value of a run of decimal digits. -/
def ofDigits (cs : List Char) : Nat :=
  cs.foldl (fun n c => 10 * n + (c.toNat - 48)) 0

/-- Reads a text made of decimal digits only. -/
def ofDecimalText? (cs : List Char) : Option Nat :=
  if cs.isEmpty || !cs.all Char.isDigit then none else some (ofDigits cs)

/-- Reads decimal digits behind an optional sign. -/
def ofSignedText? : List Char → Option Int
  | '-' :: cs => (ofDecimalText? cs).map fun n => -(n : Int)
  | '+' :: cs => (ofDecimalText? cs).map Int.ofNat
  | cs => (ofDecimalText? cs).map Int.ofNat

/-- A quotient rounded to the nearest whole number; a half goes to the even neighbour. -/
def roundDiv (num den : Nat) : Nat :=
  let q := num / den
  let r := num % den
  if 2 * r < den then q
  else if den < 2 * r then q + 1
  else if q % 2 = 0 then q else q + 1

/-- One lower-case hexadecimal digit. -/
def hexDigit (n : Nat) : Char :=
  if n < 10 then Char.ofNat (48 + n) else Char.ofNat (87 + n)

/-- The hexadecimal text of a number, filled with zeros on the left up to `width`. -/
def hexText (width n : Nat) : String :=
  let ds := Nat.toDigits 16 n
  String.ofList (List.replicate (width - ds.length) '0' ++ ds)

end DocDelta.Number
