import DocDelta.Value.Equal
import DocDelta.Value.Field

/-! Zero values: which values count as empty, and the empty value of a class.

A scalar is zero when it denotes no characters, no quantity, or the first moment. A sequence
or mapping is zero when it has no entries, and a record when each of its exported fields is;
a record met again inside itself adds nothing, so the test ends on cyclic values too. -/
namespace DocDelta
open Number Calendar

/-- Whether a test holds of every item, tried in order up to the first that fails. -/
def allHold {α : Type} (f : α → Except Fault Bool) : List α → Except Fault Bool
  | [] => .ok true
  | x :: xs => do if ← f x then allHold f xs else .ok false

namespace Heap

/-- Whether a scalar is zero. Containers and records never are; a signaling NaN cannot be
compared with zero. -/
def isZeroScalar (h : Heap) : Object Value → Except Fault Bool
  | .nil => .ok true
  | .text _ s => .ok s.isEmpty
  | .bytes _ bs => .ok bs.isEmpty
  | .datetime x => .ok x.isFirst
  | .date d => .ok (d == Date.first)
  | .time t => .ok t.isMidnight
  | .duration d => .ok (d == Duration.zero)
  | .decimal d => if d.isSignaling then .error .invalidOperation else .ok d.isZero
  | o => .ok ((h.numeric? o).any Numeric.isZero)

/-- The number of entries of a sequence or mapping. -/
def entryCount (h : Heap) (o : Object Value) : Nat :=
  match o.items? with
  | some xs => xs.length
  | none => ((h.entries? o).getD []).length

/-- Whether a value is zero, where the records in `active` are being tested further up. -/
def isZeroWithin (h : Heap) : Nat → List (Option Addr) → Value → Except Fault Bool
  | 0, _, _ => .error .tooDeep
  | n + 1, active, v =>
    let o := h.view v
    match o.kind with
    | .sequence | .mapping => .ok (h.entryCount o == 0)
    | .record =>
      match v.identity h with
      | some a =>
        if active.contains a then .ok true
        else allHold (fun f => h.isZeroWithin n (a :: active) (h.fieldValue v f.name)) o.fields
      | none => allHold (fun f => h.isZeroWithin n active (h.fieldValue v f.name)) o.fields
    | _ => h.isZeroScalar o

/-- Whether a value is zero. -/
def isZero (h : Heap) (v : Value) : Except Fault Bool := h.isZeroWithin (h.layerBound v) [] v

/-- Whether a value is a zero scalar. -/
def isZeroValue (h : Heap) (v : Value) : Except Fault Bool := h.isZeroScalar (h.view v)

end Heap

namespace Object

/-- The empty value of a derived class, unless making one takes an argument. -/
def emptyOf (cls : Option Subclass) (make : Option Subclass → Object Value) :
    Option (Object Value) :=
  if cls.any (·.needsArgument) then none else some (make cls)

/-- The zero value of a value's class. Records, enumerations, sets and buffers have none. -/
def zero? {α : Type} : Object α → Option (Object Value)
  | .datetime x => some (.datetime ⟨Date.first, { Time.midnight with offset := x.time.offset }⟩)
  | .date _ => some (.date Date.first)
  | .time t => some (.time { Time.midnight with offset := t.offset })
  | .duration _ => some (.duration Duration.zero)
  | .bool _ => some (.bool false)
  | .int c _ => emptyOf c (.int · 0)
  | .float c _ => emptyOf c (.float · Binary64.zero)
  | .complex .. => some (.complex Binary64.zero Binary64.zero)
  | .decimal _ => some (.decimal (.finite false 0 0))
  | .text c _ => emptyOf c (.text · "")
  | .bytes c _ => emptyOf c (.bytes · [])
  | .list c _ => emptyOf c (.list · [])
  | .tuple c _ => emptyOf c (.tuple · [])
  | .map c _ => emptyOf c (.map · [])
  | _ => none

end Object
end DocDelta
