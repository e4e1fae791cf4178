import DocDelta.Number.Decimal

/-! Decimals in 128 bits: 34 digits and exponents from -6176 to 6111.

`fit` brings a decimal into that range without changing its value, or says why none can:
`overflow` past the largest exponent, `inexact` where a non-zero digit would be lost.
`toWord` and `ofWord` are the binary integer encoding. -/
namespace DocDelta.Number.Decimal128

/-- Why a decimal has no 128-bit form. -/
inductive Misfit
  | overflow
  | inexact
  | payload
  deriving DecidableEq, Repr

def precision : Nat := 34
def leastExponent : Int := -6176
def greatestExponent : Int := 6111

/-- The decimal of the same value with at most 34 digits and an exponent in range. Zeros
move to the nearest exponent; an exponent that is too large is folded into zeros. -/
def fit : Decimal → Except Misfit Decimal
  | .finite negative 0 exponent =>
    .ok (.finite negative 0 (min (max exponent leastExponent) greatestExponent))
  | .finite negative coefficient exponent =>
    let least := digitCount coefficient + exponent - precision
    if greatestExponent < least then .error .overflow
    else
      let target := max least leastExponent
      if exponent < target then
        -- a coefficient below the dropped places cannot divide evenly
        let dropped := (target - exponent).toNat
        if digitCount coefficient ≤ dropped then .error .inexact
        else if coefficient % power 10 dropped ≠ 0 then
          if greatestExponent = target ∧
              digitCount (roundDiv coefficient (power 10 dropped)) > precision
            then .error .overflow else .error .inexact
        else .ok (.finite negative (coefficient / power 10 dropped) target)
      else if greatestExponent < exponent then
        .ok (.finite negative (coefficient * power 10 (exponent - greatestExponent).toNat)
          greatestExponent)
      else .ok (.finite negative coefficient exponent)
  | .nan negative signaling payload =>
    if payload = 0 then .ok (.nan negative signaling 0) else .error .payload
  | d => .ok d

/-- The 128-bit word: sign, biased exponent, coefficient. -/
def toWord (d : Decimal) : Except Misfit Nat := do
  match ← fit d with
  | .finite negative coefficient exponent =>
    return signBit negative ||| (exponent - leastExponent).toNat <<< 113 ||| coefficient
  | .infinite negative => return signBit negative ||| 0x78 <<< 120
  | .nan negative signaling _ =>
    return signBit negative ||| (if signaling then 0x7e else 0x7c) <<< 120
where
  signBit (negative : Bool) : Nat := if negative then 1 <<< 127 else 0

/-- The decimal of a 128-bit word. A word of the second layout, whose coefficient would
exceed 34 digits, stands for zero. -/
def ofWord (w : Nat) : Except Misfit Decimal :=
  let negative := w.testBit 127
  let top := (w >>> 120) % 128
  if top / 2 = 0x3f then .ok (.nan negative true 0)
  else if top / 4 = 0x1f then .ok (.nan negative false 0)
  else if top / 4 = 0x1e then .ok (.infinite negative)
  else if top / 32 = 3 then
    .ok (.finite negative 0 ((w >>> 111) % 16384 + leastExponent))
  else
    fit (.finite negative (w % (1 <<< 113)) ((w >>> 113) % 16384 + leastExponent))

/-- The text of a stored decimal; every NaN is written alike. -/
def text : Decimal → String
  | .nan .. => "NaN"
  | d => d.text

end DocDelta.Number.Decimal128
