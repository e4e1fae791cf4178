import DocDelta.Diff.State
import DocDelta.Fault.Message
import DocDelta.Value.Field

/-! References shared by the two sides of a comparison.

Each side is walked in depth-first order, and every reference is entered once into the
side's table, at the path of its first visit. Sharing is an address in both tables; the one
reported is the first in the order of the new side. -/
namespace DocDelta.Diff
open Number

/-- Enters an object into a side's table; false if it was there already. -/
def trackMark (isOld : Bool) (path : String) (mark : Mark) : Walk Bool := do
  let s ← get
  let table := if isOld then s.old else s.new
  if table.any fun e => e.1 == mark then return false
  else
    set (if isOld then { s with old := s.old ++ [(mark, path)] }
      else { s with new := s.new ++ [(mark, path)] })
    return true

/-- The parts that are walked, each with its path. -/
def trackedParts (h : Heap) (v : Value) (path : String) : List (Value × String) :=
  let o := h.view v
  let under (name : String) : String := if path.isEmpty then name else path ++ "." ++ name
  match o.kind with
  | .record => o.fields.map fun f => (h.fieldValue v f.name, under f.external)
  | .sequence => (o.items?.getD []).zipIdx.map fun (x, i) =>
      (x, path ++ "[" ++ decimalText i ++ "]")
  | .mapping => ((h.entries? o).getD []).map fun (k, x) => (x, under (h.display k))
  | _ => []

def trackWithin (h : Heap) (isOld : Bool) : Nat → Value → String → Walk Unit
  | 0, _, _ => throw .tooDeep
  | n + 1, v, path => do
    let fresh ← if (h.view v).isReference then
        match v.identity h with
        | some mark => trackMark isOld path mark
        | none => pure true
      else pure true
    if fresh then (trackedParts h v path).forM fun (x, p) => trackWithin h isOld n x p

/-- Walks a value and enters every reference in it. Between two references no object can be
met twice unless it contains itself, which bounds the depth. -/
def track (h : Heap) (isOld : Bool) (v : Value) (path : String) : Walk Unit :=
  trackWithin h isOld ((h.size + 1) * h.layerBound v) v path

/-- Walks both sides. -/
def trackRoots (h : Heap) (old new : Value) : Walk Unit := do
  track h true old ""
  track h false new ""
  let s ← get
  log .debug ("tracked " ++ decimalText s.old.length ++ " old and " ++
    decimalText s.new.length ++ " new references")

/-- The first entry of the new table that is in the old one too, with both its paths. -/
def findShared (old new : Table) : Option (Mark × String × String) :=
  new.findSome? fun (mark, path) =>
    (old.find? fun e => e.1 == mark).map fun e => (mark, path, e.2)

/-- The failure that shared references make. -/
def sharingFault (s : State) : Option Fault :=
  (findShared s.old s.new).map fun (mark, path, oldPath) =>
    .sharedReference path (mark.getD 0) oldPath

end DocDelta.Diff
