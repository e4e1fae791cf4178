import DocDelta.Number.Digits

/-! Double-precision numbers, exactly.

A finite double is a whole multiple of the smallest positive one, 2⁻¹⁰⁷⁴, so it is kept
as that multiple: comparison is comparison of naturals, and no machine arithmetic enters
the logic. `ofRatio` rounds any quotient to the nearest double, a half to the even one;
`shortest` is the fewest decimal digits that round back, and of those the nearest. -/
namespace DocDelta.Number

/-- A double. The magnitude of a finite one is `units · 2⁻¹⁰⁷⁴`, where `units` has at most
53 significant bits. -/
inductive Binary64
  | nan
  | infinite (negative : Bool)
  | finite (negative : Bool) (units : Nat)
  deriving DecidableEq, Repr, Inhabited

namespace Binary64

/-- The power of two that makes every finite double whole. -/
def scale : Nat := 1074

def zero : Binary64 := .finite false 0

def isZero : Binary64 → Bool
  | .finite _ 0 => true
  | _ => false

/-- The double nearest to `num / den`. -/
def ofRatio (negative : Bool) (num den : Nat) : Binary64 :=
  let scaled := num <<< scale
  let dropped := Nat.log2 (scaled / den) - 52
  let units := roundDiv scaled (den <<< dropped) <<< dropped
  if units < 1 <<< (1024 + scale) then .finite negative units else .infinite negative

/-- The double nearest to `digits · 10 ^ exponent`. Powers beyond the range of doubles are
decided by the number of digits, so a huge exponent costs nothing. -/
def ofDecimal (negative : Bool) (digits : Nat) (exponent : Int) : Binary64 :=
  if digits = 0 then .finite negative 0
  else
    let magnitude := exponent + digitCount digits
    if 400 < magnitude then .infinite negative
    else if magnitude < -400 then .finite negative 0
    else if 0 ≤ exponent then ofRatio negative (digits * power 10 exponent.toNat) 1
    else ofRatio negative digits (power 10 (-exponent).toNat)

/-- Equality as numbers: the zeros are equal, and a NaN equals nothing. -/
def same : Binary64 → Binary64 → Bool
  | .nan, _ => false
  | _, .nan => false
  | .finite _ 0, .finite _ 0 => true
  | a, b => a = b

/-- The exact value as a quotient with the given sign, when it is finite. -/
def ratio? : Binary64 → Option (Bool × Nat × Nat)
  | .finite negative units => some (negative, units, 1 <<< scale)
  | _ => none

/-! ### Arithmetic -/

/-- The double nearest to an integer. -/
def ofInt (n : Int) : Binary64 := ofRatio (n < 0) n.natAbs 1

/-- The product of two doubles, rounded once. -/
def times : Binary64 → Binary64 → Binary64
  | .finite m a, .finite n b => ofRatio (m != n) (a * b) (1 <<< (2 * scale))
  | .nan, _ | _, .nan => .nan
  | .infinite m, .infinite n => .infinite (m != n)
  | .infinite m, .finite n b => if b = 0 then .nan else .infinite (m != n)
  | .finite m a, .infinite n => if a = 0 then .nan else .infinite (m != n)

/-- The sum of two doubles, rounded once; a zero sum is negative only if both are. -/
def plus : Binary64 → Binary64 → Binary64
  | .finite m a, .finite n b =>
    let total := signed m a + signed n b
    ofRatio (total < 0 || (total = 0 && m && n)) total.natAbs (1 <<< scale)
  | .nan, _ | _, .nan => .nan
  | .infinite m, .infinite n => if m = n then .infinite m else .nan
  | .infinite m, .finite .. => .infinite m
  | .finite .., .infinite n => .infinite n
where
  signed (negative : Bool) (units : Nat) : Int := if negative then -(units : Int) else units

/-! ### Machine words -/

/-- The double of a 64-bit word. -/
def ofWord (w : Nat) : Binary64 :=
  let negative := w.testBit 63
  let exponent := (w >>> 52) % 2048
  let fraction := w % (1 <<< 52)
  if exponent = 2047 then if fraction = 0 then .infinite negative else .nan
  else if exponent = 0 then .finite negative fraction
  else .finite negative (((1 <<< 52) + fraction) <<< (exponent - 1))

/-- The 64-bit word of a double; a NaN is the quiet one. -/
def toWord : Binary64 → Nat
  | .nan => 2047 <<< 52 ||| 1 <<< 51
  | .infinite negative => signBit negative ||| 2047 <<< 52
  | .finite negative units =>
    let top := Nat.log2 units
    if top < 52 then signBit negative ||| units
    else signBit negative ||| (top - 51) <<< 52 ||| (units >>> (top - 52)) % (1 <<< 52)
where
  signBit (negative : Bool) : Nat := if negative then 1 <<< 63 else 0

/-! ### Shortest decimal text -/

/-- Whether `10 ^ p ≤ units · 2⁻¹⁰⁷⁴`. -/
def reaches (units : Nat) (p : Int) : Bool :=
  if 0 ≤ p then power 10 p.toNat <<< scale ≤ units
  else 1 <<< scale ≤ units * power 10 (-p).toNat

/-- The exponent of the first significant decimal digit of a positive magnitude. -/
def leadingPower (units : Nat) : Int :=
  let guess := ((Nat.log2 units : Int) - scale) * 30103 / 100000
  if reaches units (guess + 1) then guess + 1
  else if reaches units guess then guess else guess - 1

/-- The value's two neighbours on the grid of multiples of `10 ^ p`, the nearer first; of
two equally near the even one is first. -/
def neighbours (units : Nat) (p : Int) : List Nat :=
  let (num, den) :=
    if 0 ≤ p then (units, power 10 p.toNat <<< scale) else (units * power 10 (-p).toNat, 1 <<< scale)
  let low := num / den
  if roundDiv num den = low then [low, low + 1] else [low + 1, low]

/-- The fewest decimal digits, with their exponent, that round to this magnitude; of the
candidates with that many digits, the nearest. -/
def shortest (units : Nat) : Nat × Int :=
  if units = 0 then (0, 0)
  else
    let top := leadingPower units
    let hit := (List.range 17).findSome? fun (n : Nat) =>
      let p := top - n
      ((neighbours units p).find? fun d => ofDecimal false d p = .finite false units).map (·, p)
    hit.getD (0, 0)

/-- Drops the trailing zeros of a digit run. -/
def trimZeros (ds : List Char) : List Char :=
  (ds.reverse.dropWhile (· = '0')).reverse

/-- How a finite double is written: whether a whole number keeps a zero after its point. -/
structure Style where
  keepsPoint : Bool

/-- A magnitude below 10¹⁶ and not below 10⁻⁴ is written positionally, any other with an
exponent of at least two digits. -/
def magnitudeText (style : Style) (units : Nat) : String :=
  if units = 0 then if style.keepsPoint then "0.0" else "0"
  else
    let (d, p) := shortest units
    let ds := digits d
    let point := p + ds.length
    let ds := trimZeros ds
    if -4 < point ∧ point ≤ 16 then
      if point ≤ 0 then
        String.ofList (['0', '.'] ++ List.replicate (-point).toNat '0' ++ ds)
      else
        let n := point.toNat
        if ds.length ≤ n then
          String.ofList (ds ++ List.replicate (n - ds.length) '0') ++
            (if style.keepsPoint then ".0" else "")
        else String.ofList (ds.take n ++ ['.'] ++ ds.drop n)
    else
      let e := point - 1
      let lead := ds.take 1 ++ (if ds.length = 1 then [] else '.' :: ds.drop 1)
      String.ofList lead ++ (if e < 0 then "e-" else "e+") ++ padded 2 e.natAbs

/-- A sign for negative values, then the magnitude, `inf` or `nan`. -/
def textWith (style : Style) : Binary64 → String
  | .nan => "nan"
  | .infinite negative => (if negative then "-" else "") ++ "inf"
  | .finite negative units => (if negative then "-" else "") ++ magnitudeText style units

/-- The text of a double on its own. -/
def text (x : Binary64) : String := x.textWith ⟨true⟩

/-- Reads a decimal text: a sign, digits with an optional point, an optional exponent, or
one of the words `inf` and `nan`. -/
def ofText? (s : String) : Option Binary64 :=
  match s.toList with
  | '-' :: cs => unsigned true cs
  | cs => unsigned false cs
where
  unsigned (negative : Bool) (cs : List Char) : Option Binary64 :=
    if cs = "inf".toList then some (.infinite negative)
    else if cs = "nan".toList then some .nan
    else
      let whole := cs.takeWhile Char.isDigit
      let (fraction, rest) := match cs.dropWhile Char.isDigit with
        | '.' :: r => (r.takeWhile Char.isDigit, r.dropWhile Char.isDigit)
        | r => ([], r)
      let exponent := match rest with
        | [] => some (0 : Int)
        | 'e' :: r => ofSignedText? r
        | 'E' :: r => ofSignedText? r
        | _ => none
      if whole.isEmpty && fraction.isEmpty then none
      else exponent.map fun e =>
        ofDecimal negative (ofDigits (whole ++ fraction)) (e - fraction.length)

end Binary64
end DocDelta.Number
