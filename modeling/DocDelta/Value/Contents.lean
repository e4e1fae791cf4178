import DocDelta.Value.Order

/-! What a value holds: whether it counts as true, its items, and its entries by name. -/
namespace DocDelta.Heap
open Number Calendar

/-- Whether a value counts as true: nothing, zero quantities and empty collections do not. -/
def truthy (h : Heap) (v : Value) : Bool :=
  let o := h.view v
  match o with
  | .nil => false
  | .text _ s => !s.isEmpty
  | .bytes _ bs | .buffer _ bs => !bs.isEmpty
  | .set _ xs | .frozenset _ xs => !xs.isEmpty
  | .duration d => d != Duration.zero
  | _ => match o.items?, h.entries? o with
    | some xs, _ => !xs.isEmpty
    | _, some es => !es.isEmpty
    | _, _ => !(h.numeric? o).any Numeric.isZero

/-- The items a value yields when it is gone through: a map yields its keys, a text its
characters, a byte string its bytes. -/
def iterate (h : Heap) (v : Value) : Except Fault (List Value) :=
  let o := h.view v
  match o with
  | .text _ s => .ok (s.toList.map fun c => .text (String.singleton c))
  | .bytes _ bs | .buffer _ bs => .ok (bs.map fun b => .int b.toNat)
  | .set _ xs | .frozenset _ xs => .ok xs
  | _ => match o.items?, h.entries? o with
    | some xs, _ => .ok xs
    | _, some es => .ok (es.map (·.1))
    | _, _ => .error (.misuse .notIterable)

/-- Whether a value is a text with the given characters. -/
def isText (h : Heap) (s : String) (v : Value) : Bool := (h.view v).text? == some s

/-- The value of a named entry. -/
def entry? (h : Heap) (name : String) (es : List (Value × Value)) : Option Value :=
  (es.find? fun e => h.isText name e.1).map (·.2)

/-- The entries of a value that is a map itself and not a view of one. -/
def mapEntries? (h : Heap) (v : Value) : Option (List (Value × Value)) :=
  match h.view v with
  | .map _ es => some es
  | _ => none

/-- The items of a value that is a list. -/
def listItems? (h : Heap) (v : Value) : Option (List Value) :=
  match h.view v with
  | .list _ xs => some xs
  | _ => none

/-- The whole number a value is an instance of. -/
def whole? (h : Heap) (v : Value) : Option Int :=
  match h.view v with
  | .member c _ w => if c.isWhole then (h.view w).whole? else none
  | o => o.whole?

/-- Puts an entry into a map: under a key that is there already, the value is replaced and
the key stays. -/
def putEntry (h : Heap) (key value : Value) :
    List (Value × Value) → Except Fault (List (Value × Value))
  | [] => .ok [(key, value)]
  | (k, v) :: es => do
    if ← h.matching k key then .ok ((k, value) :: es)
    else return (k, v) :: (← h.putEntry key value es)

/-- The entries of a map made from another map or from pairs. -/
def toEntries (h : Heap) (v : Value) : Except Fault (List (Value × Value)) :=
  match h.entries? (h.view v) with
  | some es => .ok es
  | none => do
    let pairs ← (← h.iterate v).mapM fun p => do
      match ← h.iterate p with
      | [k, v] => h.requireKey k; return (k, v)
      | _ => throw .badArgument
    pairs.foldlM (fun es p => h.putEntry p.1 p.2 es) []

/-- The first of the members whose value equals that of the named one: a second name for a
value stands for the member that had it first. -/
def canonicalMember (h : Heap) (members : List (String × Value)) (name : String) :
    Option (String × Value) := do
  let (_, v) ← members.find? fun m => m.1 == name
  members.find? fun m => match h.same m.2 v with
    | .ok equal => equal
    | .error _ => m.1 == name

end DocDelta.Heap

namespace DocDelta.RecordClass

/-- A record of a class. Declared and positional records hold their attributes in the order
the class gives them. -/
def make (c : RecordClass) (attributes : List (String × Value)) : Object Value :=
  let pick (names : List String) : List (String × Value) :=
    names.filterMap fun n => attributes.find? fun a => a.1 == n
  .record c <| match c.shape with
    | .declared fields _ => pick (fields.map (·.1))
    | .positional fields => pick fields
    | .freeform => attributes

end DocDelta.RecordClass
