import DocDelta.Value.Contents

/-! Laying one map over another.

Entries of the upper map replace those of the lower one, and a map below a key is laid over
what is there. Unless nothings are kept, an entry that is nothing removes what it covers, and
a map that ends up empty is removed with its key. -/
namespace DocDelta.Settings

/-- Removes the entry under a key. -/
def dropEntry (h : Heap) (key : Value) :
    List (Value × Value) → Except Fault (List (Value × Value))
  | [] => .ok []
  | (k, v) :: es => do
    if ← h.matching k key then .ok es else return (k, v) :: (← dropEntry h key es)

/-- The place in a list of a given length that a key means: a whole number, which counts
from the end when it is negative. -/
def place (h : Heap) (length : Nat) (key : Value) : Except Fault Nat :=
  match h.whole? key with
  | none => .error (.misuse .notIndexable)
  | some n =>
    let i := if n < 0 then n + length else n
    if 0 ≤ i ∧ i < length then .ok i.toNat else .error .noSuchItem

/-- A value with an entry put into it: maps take entries by key, lists by place. -/
def assign (h : Heap) (target key v : Value) : Except Fault Value :=
  match h.view target with
  | .map c es => return .inline (.map c (← h.putEntry key v es))
  | .list c xs => return .inline (.list c (xs.set (← place h xs.length key) v))
  | _ => .error (.misuse .notIndexable)

/-- What stands under a key, where an empty map is put if the key is absent. A list has the
keys that are among its items. -/
def below (h : Heap) (target key : Value) : Except Fault (Value × Value) :=
  match h.view target with
  | .map _ es => return (target, (← h.find? key es).getD (.map []))
  | .list _ xs => do
    let held ← hasPart h h.same key xs
    let target ← if held then .ok target else assign h target key (.map [])
    let i ← place h xs.length key
    return (target, if held then xs.getD i .nil else .map [])
  | _ => .error (.misuse .notIndexable)

/-- A value without the entry under a key. -/
def remove (h : Heap) (target key : Value) : Except Fault Value :=
  match h.view target with
  | .map c es => return .inline (.map c (← dropEntry h key es))
  | .list c xs => return .inline (.list c (xs.eraseIdx (← place h xs.length key)))
  | _ => .error (.misuse .notIndexable)

/-- A value without the entry under a key, if it has one. Collections that remove by place
or by item refuse; what cannot remove anything has no such operation. -/
def discard (h : Heap) (target key : Value) : Except Fault Value :=
  match h.view target with
  | .map .. => remove h target key
  | .list .. | .set .. | .buffer .. => .error (.misuse .notCallable)
  | _ => .error .noSuchAttribute

/-- Lays one entry over a value, where `cover` lays a map over another. -/
def layEntry (h : Heap) (keepsNil : Bool) (cover : Value → Value → Except Fault Value)
    (target key v : Value) : Except Fault Value := do
  if (h.mapEntries? v).isSome then
    let (target, lower) ← below h target key
    let merged ← cover lower v
    if !keepsNil && !h.truthy merged then remove h target key else assign h target key merged
  else if !keepsNil && (h.view v).isNil then discard h target key
  else assign h target key v

def layWithin (h : Heap) (keepsNil : Bool) : Nat → Value → Value → Except Fault Value
  | 0, _, _ => .error .tooDeep
  | n + 1, target, upper =>
    match h.entries? (h.view upper) with
    | none => .error .noSuchAttribute
    | some es =>
      es.foldlM (fun t e => layEntry h keepsNil (layWithin h keepsNil n) t e.1 e.2) target

/-- Lays a map over a value. -/
def lay (h : Heap) (keepsNil : Bool) (target upper : Value) : Except Fault Value :=
  layWithin h keepsNil (h.layerBound upper) target upper

end DocDelta.Settings
