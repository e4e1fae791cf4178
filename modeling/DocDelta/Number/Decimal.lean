import DocDelta.Number.Binary64

/-! Decimal numbers that keep their written form.

A finite decimal is a signed coefficient times a power of ten, so `1.50` and `1.5` are two
decimals of one value. Integers and doubles are finite decimals too (a double because two
divides ten), so `compare?` is the one exact comparison of all numbers. -/
namespace DocDelta.Number

/-- A decimal number. A NaN may signal and may carry a payload, where 0 stands for none. -/
inductive Decimal
  | finite (negative : Bool) (coefficient : Nat) (exponent : Int)
  | infinite (negative : Bool)
  | nan (negative signaling : Bool) (payload : Nat)
  deriving DecidableEq, Repr, Inhabited

namespace Decimal

def ofInt (n : Int) : Decimal := .finite (n < 0) n.natAbs 0

/-- The exact value of a double. -/
def ofBinary64 : Binary64 → Decimal
  | .nan => .nan false false 0
  | .infinite negative => .infinite negative
  | .finite negative units => .finite negative (units * power 5 Binary64.scale) (-Binary64.scale)

def isZero : Decimal → Bool
  | .finite _ 0 _ => true
  | _ => false

def isNaN : Decimal → Bool
  | .nan .. => true
  | _ => false

def isSignaling : Decimal → Bool
  | .nan _ signaling _ => signaling
  | _ => false

/-! ### Exact comparison -/

/-- Order of two positive magnitudes `c · 10 ^ e`. Different digit positions decide at
once; otherwise the exponents differ by fewer places than the coefficients have digits. -/
def compareMagnitude (c₁ : Nat) (e₁ : Int) (c₂ : Nat) (e₂ : Int) : Ordering :=
  let top₁ := e₁ + digitCount c₁
  let top₂ := e₂ + digitCount c₂
  if top₁ ≠ top₂ then compare top₁ top₂
  else
    let shift := e₁ - e₂
    if 0 ≤ shift then compare (c₁ * power 10 shift.toNat) c₂
    else compare c₁ (c₂ * power 10 (-shift).toNat)

/-- Order by value; a NaN has none. -/
def compare? : Decimal → Decimal → Option Ordering
  | .nan .., _ => none
  | _, .nan .. => none
  | .infinite n₁, .infinite n₂ => some (compare n₂.toNat n₁.toNat)
  | .infinite n, _ => some (if n then .lt else .gt)
  | _, .infinite n => some (if n then .gt else .lt)
  | .finite _ 0 _, .finite _ 0 _ => some .eq
  | .finite _ 0 _, .finite n _ _ => some (if n then .gt else .lt)
  | .finite n _ _, .finite _ 0 _ => some (if n then .lt else .gt)
  | .finite false c₁ e₁, .finite false c₂ e₂ => some (compareMagnitude c₁ e₁ c₂ e₂)
  | .finite true c₁ e₁, .finite true c₂ e₂ => some (compareMagnitude c₂ e₂ c₁ e₁)
  | .finite n _ _, .finite _ _ _ => some (if n then .lt else .gt)

/-- Equality by value. -/
def same (a b : Decimal) : Bool := compare? a b == some .eq

/-! ### Text -/

/-- A coefficient whose exponent is at most 0 and whose first digit stands no further than
six places behind the point is written positionally, any other with an exponent. -/
def text : Decimal → String
  | .infinite negative => sign negative ++ "Infinity"
  | .nan negative signaling payload =>
    sign negative ++ (if signaling then "sNaN" else "NaN") ++
      (if payload = 0 then "" else decimalText payload)
  | .finite negative coefficient exponent =>
    let ds := digits coefficient
    let left := exponent + ds.length
    let point := if exponent ≤ 0 ∧ -6 < left then left else 1
    let body :=
      if point ≤ 0 then ['0', '.'] ++ List.replicate (-point).toNat '0' ++ ds
      else
        let n := point.toNat
        if ds.length ≤ n then ds ++ List.replicate (n - ds.length) '0'
        else ds.take n ++ ['.'] ++ ds.drop n
    let power := left - point
    sign negative ++ String.ofList body ++
      (if power = 0 then "" else "E" ++ (if power < 0 then "" else "+") ++ integerText power)
where
  sign (negative : Bool) : String := if negative then "-" else ""

/-- Reads what `text` writes, in any letter case. -/
def ofText? (s : String) : Option Decimal :=
  match s.toList.map Char.toLower with
  | '-' :: cs => unsigned true cs
  | '+' :: cs => unsigned false cs
  | cs => unsigned false cs
where
  unsigned (negative : Bool) (cs : List Char) : Option Decimal :=
    if cs = "inf".toList ∨ cs = "infinity".toList then some (.infinite negative)
    else match cs with
    | 'n' :: 'a' :: 'n' :: r => payload negative false r
    | 's' :: 'n' :: 'a' :: 'n' :: r => payload negative true r
    | _ =>
      let whole := cs.takeWhile Char.isDigit
      let (fraction, rest) := match cs.dropWhile Char.isDigit with
        | '.' :: r => (r.takeWhile Char.isDigit, r.dropWhile Char.isDigit)
        | r => ([], r)
      let exponent := match rest with
        | [] => some (0 : Int)
        | 'e' :: r => ofSignedText? r
        | _ => none
      if whole.isEmpty && fraction.isEmpty then none
      else exponent.map fun e =>
        .finite negative (ofDigits (whole ++ fraction)) (e - fraction.length)
  payload (negative signaling : Bool) (cs : List Char) : Option Decimal :=
    if cs.isEmpty then some (.nan negative signaling 0)
    else (ofDecimalText? cs).map (.nan negative signaling ·)

end Decimal
end DocDelta.Number
