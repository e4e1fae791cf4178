import DocDelta.Value.Equal

/-! Order of values, sorting, and which values can be keys.

Numbers, texts, byte strings and times are ordered; lists and tuples compare by their first
difference, sets by inclusion. Whatever else is compared is refused. Sorting takes a
comparison that may refuse, and inserts each item by halving, so it also gives a definite
result where the order has gaps. -/
namespace DocDelta
open Number Calendar

/-! ### Order -/

namespace Heap

/-- Order of numbers; a NaN of decimals refuses, any other is below nothing. -/
def lessNumbers (h : Heap) (a b : Object Value) : Except Fault Bool :=
  match h.numeric? a, h.numeric? b with
  | some (.real x), some (.real y) =>
    if (isDecimal a || isDecimal b) && (x.isNaN || y.isNaN) then .error .invalidOperation
    else .ok (x.compare? y == some .lt)
  | _, _ => .error (.misuse .unordered)
where
  isDecimal : Object Value → Bool
    | .decimal _ => true
    | _ => false

/-- Order of two sequences by their first difference. -/
def lessParts (h : Heap) (less : Value → Value → Except Fault Bool) :
    List Value → List Value → Except Fault Bool
  | [], [] => .ok false
  | [], _ :: _ => .ok true
  | _ :: _, [] => .ok false
  | a :: as, b :: bs => do
    if ← h.matching a b then h.lessParts less as bs else less a b

/-- Whether an ordering is given and says less. -/
def decided : Option Ordering → Except Fault Bool
  | some o => .ok (o == .lt)
  | none => .error (.misuse .unordered)

/-- Order of two layers, where `less` compares parts. -/
def lessObject (h : Heap) (less : Value → Value → Except Fault Bool) (a b : Object Value) :
    Except Fault Bool :=
  match a, b with
  | .text _ x, .text _ y => .ok (x < y)
  | .bytes _ x, .bytes _ y | .bytes _ x, .buffer _ y | .buffer _ x, .bytes _ y
  | .buffer _ x, .buffer _ y => .ok (x < y)
  | .date x, .date y => .ok (x.dayNumber < y.dayNumber)
  | .time x, .time y => decided (x.compare? y)
  | .datetime x, .datetime y => decided (x.compare? y)
  | .duration x, .duration y => .ok (x.micros < y.micros)
  | .list _ xs, .list _ ys => h.lessParts less xs ys
  | .set _ xs, .set _ ys | .set _ xs, .frozenset _ ys | .frozenset _ xs, .set _ ys
  | .frozenset _ xs, .frozenset _ ys => do
    if xs.length < ys.length then coversItems h h.same ys xs else .ok false
  | _, _ => match a.tupleItems?, b.tupleItems? with
    | some xs, some ys => h.lessParts less xs ys
    | _, _ => h.lessNumbers a b

def lessWithin (h : Heap) : Nat → Value → Value → Except Fault Bool
  | 0, _, _ => .error .tooDeep
  | n + 1, a, b => h.lessObject (h.lessWithin n) (h.view a) (h.view b)

/-- Whether one value is below another. -/
def less (h : Heap) (a b : Value) : Except Fault Bool := h.lessWithin (h.pairBound a b) a b

/-! ### Keys -/

def hashableWithin (h : Heap) : Nat → Value → Bool
  | 0, _ => false
  | n + 1, v => match h.view v with
    | .list .. | .map .. | .mapView _ | .set .. | .buffer .. => false
    | .decimal d => !d.isSignaling
    | .tuple _ xs | .frozenset _ xs => xs.all (h.hashableWithin n)
    | .record c as => match c.shape with
      | .declared _ frozen => frozen && as.all fun a => h.hashableWithin n a.2
      | .positional _ => as.all fun a => h.hashableWithin n a.2
      | .freeform => true
    | _ => true

/-- Whether a value can be a key: it cannot change, and nor can its parts. -/
def hashable (h : Heap) (v : Value) : Bool := h.hashableWithin (h.layerBound v) v

/-- Refuses a value that cannot be a key. -/
def requireKey (h : Heap) (v : Value) : Except Fault Unit :=
  if h.hashable v then .ok () else .error (.misuse .unhashable)

end Heap

/-! ### Sorting -/

section Sorting
variable {α : Type} (less : α → α → Except Fault Bool)

/-- The place of an item in a sorted array, behind the items it is not below; found between
`low` and `low + width` by halving. -/
def insertionPoint (x : α) (sorted : Array α) : Nat → Nat → Nat → Except Fault Nat
  | 0, low, _ => .ok low
  | n + 1, low, width =>
    if width = 0 then .ok low
    else
      let middle := low + width / 2
      match sorted[middle]? with
      | none => .ok low
      | some y => do
        if ← less x y then insertionPoint x sorted n low (width / 2)
        else insertionPoint x sorted n (middle + 1) (width - width / 2 - 1)

/-- Inserts the items one after another. -/
def insertAll (sorted : Array α) : List α → Except Fault (Array α)
  | [] => .ok sorted
  | x :: xs => do
    let place ← insertionPoint less x sorted sorted.size 0 sorted.size
    insertAll ((sorted.toList.insertIdx place x).toArray) xs

/-- Splits off the longest run in which no item is below the one before it. -/
def risingRun (last : α) : List α → Except Fault (List α × List α)
  | [] => .ok ([], [])
  | x :: xs => do
    if ← less x last then .ok ([], x :: xs)
    else
      let (run, rest) ← risingRun x xs
      .ok (x :: run, rest)

/-- Splits off the longest run in which every item is below the one before it. -/
def fallingRun (last : α) : List α → Except Fault (List α × List α)
  | [] => .ok ([], [])
  | x :: xs => do
    if ← less x last then
      let (run, rest) ← fallingRun x xs
      .ok (x :: run, rest)
    else .ok ([], x :: xs)

/-- Sorts a list: the run it starts with is kept, or turned round if it falls, and the
other items are inserted into it. -/
def sortBy : List α → Except Fault (List α)
  | x :: y :: rest => do
    if ← less y x then
      let (run, rest) ← fallingRun less y rest
      return (← insertAll less (x :: y :: run).reverse.toArray rest).toList
    else
      let (run, rest) ← risingRun less y rest
      return (← insertAll less (x :: y :: run).toArray rest).toList
  | xs => .ok xs

end Sorting

/-- Sorts values by their own order. -/
def Heap.sort (h : Heap) (xs : List Value) : Except Fault (List Value) := sortBy h.less xs

end DocDelta
