import DocDelta.Fault
import DocDelta.Value.Kind

/-! Equality of values by meaning.

Numbers of every class are equal when they denote the same number, texts when they have the
same characters, and containers when their parts are; a part also equals itself, which is
how a NaN inside a container can match. Freeform records are equal only to themselves. The
comparison descends pair by pair, so on cyclic values it may never come to an end: a descent
longer than the number of pairs repeats one, and is given up as `tooDeep`. -/
namespace DocDelta
open Number Calendar

/-! ### Numbers -/

/-- The number that a value denotes. -/
inductive Numeric
  | real (d : Decimal)
  | complex (re im : Binary64)
  deriving DecidableEq, Repr

namespace Numeric

/-- Equality of numbers. A signaling NaN cannot be compared. -/
def same : Numeric → Numeric → Except Fault Bool
  | .real a, .real b => reals a b
  | .complex re im, .real b => mixed re im b
  | .real a, .complex re im => mixed re im a
  | .complex a b, .complex c d => .ok (a.same c && b.same d)
where
  reals (a b : Decimal) : Except Fault Bool :=
    if a.isSignaling || b.isSignaling then .error .invalidOperation else .ok (a.same b)
  mixed (re im : Binary64) (b : Decimal) : Except Fault Bool :=
    if im.isZero then reals (.ofBinary64 re) b else .ok false

def isZero : Numeric → Bool
  | .real d => d.isZero
  | .complex re im => re.isZero && im.isZero

end Numeric

/-- The number a value denotes, if it is one: booleans and members of whole-number
enumerations are. -/
def Heap.numeric? (h : Heap) : Object Value → Option Numeric
  | .bool b => some (.real (.ofInt b.toNat))
  | .int _ n => some (.real (.ofInt n))
  | .float _ x => some (.real (.ofBinary64 x))
  | .complex re im => some (.complex re im)
  | .decimal d => some (.real d)
  | .member c _ v =>
    if c.isWhole then (h.view v).whole?.map fun n => .real (.ofInt n) else none
  | _ => none

/-! ### Parts -/

section Parts
variable (h : Heap) (eq : Value → Value → Except Fault Bool)

/-- Whether two parts match: the same object, or equal. -/
def matchPart (a b : Value) : Except Fault Bool :=
  if Value.isSame h a b then .ok true else eq a b

/-- Whether two lists match part by part, the shorter one deciding how far is looked. -/
def matchParts : List Value → List Value → Except Fault Bool
  | [], [] => .ok true
  | a :: as, b :: bs => do if ← matchPart h eq a b then matchParts as bs else .ok false
  | _, _ => .ok false

/-- Whether some item matches a value. -/
def hasPart (x : Value) : List Value → Except Fault Bool
  | [] => .ok false
  | y :: ys => do if ← matchPart h eq y x then .ok true else hasPart x ys

/-- The value under a key. -/
def findPart (key : Value) : List (Value × Value) → Except Fault (Option Value)
  | [] => .ok none
  | (k, v) :: es => do if ← matchPart h eq k key then .ok (some v) else findPart key es

/-- Whether every entry of one map is in another. -/
def coversEntries (other : List (Value × Value)) : List (Value × Value) → Except Fault Bool
  | [] => .ok true
  | (k, v) :: es => do
    match ← findPart h eq k other with
    | none => .ok false
    | some w => if ← matchPart h eq v w then coversEntries other es else .ok false

/-- Whether every item of one set is in another. -/
def coversItems (other : List Value) : List Value → Except Fault Bool
  | [] => .ok true
  | x :: xs => do if ← hasPart h eq x other then coversItems other xs else .ok false

end Parts

/-! ### Equality -/

namespace Heap

/-- Equality of two layers, where `eq` compares parts. -/
def sameObject (h : Heap) (eq : Value → Value → Except Fault Bool) :
    Object Value → Object Value → Except Fault Bool
  | .nil, .nil => .ok true
  | .missing, .missing => .ok true
  | .text _ a, .text _ b => .ok (a == b)
  | .bytes _ a, .bytes _ b | .bytes _ a, .buffer _ b | .buffer _ a, .bytes _ b
  | .buffer _ a, .buffer _ b => .ok (a == b)
  | .date a, .date b => .ok (a == b)
  | .time a, .time b => .ok (a.compare? b == some .eq)
  | .datetime a, .datetime b => .ok (a.compare? b == some .eq)
  | .duration a, .duration b => .ok (a == b)
  | .type a _, .type b _ => .ok (a == b)
  | .list _ as, .list _ bs =>
    if as.length = bs.length then matchParts h eq as bs else .ok false
  | .set _ as, .set _ bs | .set _ as, .frozenset _ bs | .frozenset _ as, .set _ bs
  | .frozenset _ as, .frozenset _ bs =>
    if as.length = bs.length then coversItems h eq bs as else .ok false
  | .mapView t, b => match h.entries? (h.view t), h.entries? b with
    | some as, some bs => sameEntries as bs
    | _, _ => .ok false
  | .map _ as, b => match h.entries? b with
    | some bs => sameEntries as bs
    | none => .ok false
  | a, b => match a, b with
    | .member c m _, .member d n _ =>
      if c.isWhole && d.isWhole then numbers a b else .ok (c.name == d.name && m == n)
    | .record c as, .record d bs =>
      if c.isPositional && d.isPositional then matchParts h eq (as.map (·.2)) (bs.map (·.2))
      else if c.isDeclared && c.name == d.name then
        matchParts h eq (as.map (·.2)) (bs.map (·.2))
      else .ok false
    | _, _ => match a.tupleItems?, b.tupleItems? with
      | some as, some bs => matchParts h eq as bs
      | _, _ => numbers a b
where
  sameEntries (as bs : List (Value × Value)) : Except Fault Bool :=
    if as.length = bs.length then coversEntries h eq bs as else .ok false
  numbers (a b : Object Value) : Except Fault Bool :=
    match h.numeric? a, h.numeric? b with
    | some a, some b => a.same b
    | _, _ => .ok false

/-- Equality of two values, as far as `n` layers down. -/
def sameWithin (h : Heap) : Nat → Value → Value → Except Fault Bool
  | 0, _, _ => .error .tooDeep
  | n + 1, a, b =>
    if (h.view a).isFreeform && Value.isSame h a b then .ok true
    else h.sameObject (h.sameWithin n) (h.view a) (h.view b)

/-- Equality of two values. -/
def same (h : Heap) (a b : Value) : Except Fault Bool := h.sameWithin (h.pairBound a b) a b

/-- Whether a value matches a part: the same object, or equal. -/
def matching (h : Heap) (a b : Value) : Except Fault Bool := matchPart h h.same a b

/-- The value under a key in the entries of a map. -/
def find? (h : Heap) (key : Value) (es : List (Value × Value)) : Except Fault (Option Value) :=
  findPart h h.same key es

end Heap
end DocDelta
