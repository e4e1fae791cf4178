import DocDelta.Value.Basic

/-! Giving every part of a value an address.

A value written out in place has no identity. `Heap.intern` stores it, parts first, so that
each part becomes one object of the heap; parts that are in the heap already stay where they
are. `Heap.tie` fills cells that were set aside, which is how cyclic values are made. -/
namespace DocDelta.Heap

mutual

/-- Stores a value and gives its address. -/
def intern : Value → StateM Heap Addr
  | .ref a => pure a
  | .inline o => do
    let o ← internObject o
    modifyGet fun h => let (h, a) := h.push o; (a, h)

/-- Stores the children of a layer. -/
def internObject : Object Value → StateM Heap (Object Addr)
  | .nil => pure .nil
  | .missing => pure .missing
  | .bool b => pure (.bool b)
  | .int c n => pure (.int c n)
  | .float c x => pure (.float c x)
  | .complex re im => pure (.complex re im)
  | .decimal d => pure (.decimal d)
  | .text c s => pure (.text c s)
  | .bytes c bs => pure (.bytes c bs)
  | .buffer c bs => pure (.buffer c bs)
  | .date d => pure (.date d)
  | .time t => pure (.time t)
  | .datetime x => pure (.datetime x)
  | .duration d => pure (.duration d)
  | .member c n v => return .member c n (← intern v)
  | .type n e => pure (.type n e)
  | .list c xs => return .list c (← internList xs)
  | .tuple c xs => return .tuple c (← internList xs)
  | .set c xs => return .set c (← internList xs)
  | .frozenset c xs => return .frozenset c (← internList xs)
  | .map c es => return .map c (← internEntries es)
  | .mapView t => return .mapView (← intern t)
  | .record c as => return .record c (← internAttributes as)

def internList : List Value → StateM Heap (List Addr)
  | [] => pure []
  | x :: xs => do
    let a ← intern x
    return a :: (← internList xs)

def internEntries : List (Value × Value) → StateM Heap (List (Addr × Addr))
  | [] => pure []
  | e :: es => do
    let a ← internEntry e
    return a :: (← internEntries es)

def internEntry : Value × Value → StateM Heap (Addr × Addr)
  | (k, v) => do
    let a ← intern k
    return (a, ← intern v)

def internAttributes : List (String × Value) → StateM Heap (List (String × Addr))
  | [] => pure []
  | a :: as => do
    let b ← internAttribute a
    return b :: (← internAttributes as)

def internAttribute : String × Value → StateM Heap (String × Addr)
  | (name, v) => return (name, ← intern v)

end

/-- A heap with a number of cells set aside. -/
def reserve (count : Nat) : Heap := ⟨Array.replicate count .nil⟩

/-- Puts a value into a cell that was set aside. -/
def tie (a : Addr) : Value → StateM Heap Unit
  | .ref b => modify fun h => ⟨h.cells.setIfInBounds (a - 1) (h.object b)⟩
  | .inline o => do
    let o ← internObject o
    modify fun h => ⟨h.cells.setIfInBounds (a - 1) o⟩

end DocDelta.Heap
