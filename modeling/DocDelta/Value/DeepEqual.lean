import DocDelta.Value.Zero

/-! Structural equality of graphs of values.

Two values are deeply equal when they have exactly the same class and their parts are deeply
equal in turn: attributes by name and order, entries by key, items by place. Leaves are equal
by identity or by meaning. A pair of objects that is being compared further up is taken to be
equal, so cyclic values are compared in finitely many steps, and are equal exactly when no
difference can be reached in both. -/
namespace DocDelta.Heap

/-- The pairs of objects being compared further up. -/
abbrev Assumed := List (Option Addr × Option Addr)

/-- Assumes a pair while its parts are compared; values in place are never met again. -/
def assume (h : Heap) (active : Assumed) (a b : Value) : Option Assumed :=
  match a.identity h, b.identity h with
  | some x, some y => if active.contains (x, y) then none else some ((x, y) :: active)
  | _, _ => some active

/-- Whether two maps have the same keys. -/
def sameKeys (h : Heap) (as bs : List (Value × Value)) : Except Fault Bool :=
  if as.length ≠ bs.length then .ok false
  else allHold (fun e => return (← h.find? e.1 bs).isSome) as

/-- Compares the parts of two objects of one class. -/
def equalParts (h : Heap) (eq : Value → Value → Except Fault Bool) (a b : Object Value) :
    Except Fault Bool :=
  match a.kind with
  | .record =>
    if a.attributeNames? = b.attributeNames? then
      allHold (fun (name : String) => match a.attribute? name, b.attribute? name with
        | some x, some y => eq x y
        | _, _ => .ok true) (a.attributeNames?.getD [])
    else .ok false
  | .mapping =>
    let as := (h.entries? a).getD []
    let bs := (h.entries? b).getD []
    do
      if ← h.sameKeys as bs then
        allHold (fun e => do
          match ← h.find? e.1 bs with
          | some w => eq e.2 w
          | none => .ok false) as
      else .ok false
  | _ =>
    let as := a.items?.getD []
    let bs := b.items?.getD []
    if as.length = bs.length then allHold (fun p => eq p.1 p.2) (as.zip bs) else .ok false

def deepEqualWithin (h : Heap) : Nat → Assumed → Value → Value → Except Fault Bool
  | 0, _, _, _ => .error .tooDeep
  | n + 1, active, a, b =>
    let x := h.view a
    let y := h.view b
    if x.cls ≠ y.cls then .ok false
    else match x.kind with
      | .nil | .time | .scalar => h.matching a b
      | _ =>
        if Value.isSame h a b then .ok true
        else match h.assume active a b with
          | none => .ok true
          | some active => h.equalParts (h.deepEqualWithin n active) x y

/-- Deep equality of two values. -/
def deepEqual (h : Heap) (a b : Value) : Except Fault Bool :=
  h.deepEqualWithin (h.pairBound a b) [] a b

end DocDelta.Heap
