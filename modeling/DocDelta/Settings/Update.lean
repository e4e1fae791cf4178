import DocDelta.Settings.Layer
import DocDelta.Value.Intern

/-! Laying a map over an object of the heap.

An object is changed where it stands, so whatever else refers to it shows the change too, and a map
that is laid over it can itself change on the way where the two have objects in common. A map
cannot be gone through while entries come and go. -/
namespace DocDelta.Settings

/-- Changes of a heap. -/
abbrev Updating := StateT Heap (Except Fault)

/-- The address of a value. -/
def address (v : Value) : Updating Addr := modifyGet fun h => (Heap.intern v).run h

/-- Gives an object the contents of a value. -/
def become (a : Addr) (v : Value) : Updating Unit := modifyGet fun h => (Heap.tie a v).run h

/-- Whether there is something under a key. A list has the keys that are among its items. -/
def holds (h : Heap) (target key : Value) : Except Fault Bool :=
  match h.view target with
  | .map _ es => return (← h.find? key es).isSome
  | .list _ xs => hasPart h h.same key xs
  | _ => .error (.misuse .notIndexable)

/-- What stands under a key. -/
def item (h : Heap) (target key : Value) : Except Fault Value :=
  match h.view target with
  | .map _ es => do
    match ← h.find? key es with
    | some v => return v
    | none => throw .noSuchKey
  | .list _ xs => return xs.getD (← place h xs.length key) .nil
  | _ => .error (.misuse .notIndexable)

/-- Lays a map over what stands under a key, where `cover` lays it over an object. What ends up
empty is removed with its key, unless nothings are kept. -/
def updateUnder (keepsNil : Bool) (cover : Addr → Value → Updating Unit) (a : Addr)
    (key v : Value) : Updating Unit := do
  cover (← address (← item (← get) (.ref a) key)) v
  if !keepsNil then
    let h ← get
    if !h.truthy (← item h (.ref a) key) then become a (← remove h (.ref a) key)

/-- Lays one entry over an object. An empty map is put where the key is absent, before anything is
laid over it. -/
def updateEntry (keepsNil : Bool) (cover : Addr → Value → Updating Unit) (a : Addr)
    (key v : Value) : Updating Unit := do
  let h ← get
  if (h.mapEntries? v).isSome then
    if !(← holds h (.ref a) key) then become a (← assign h (.ref a) key (.map []))
    updateUnder keepsNil cover a key v
  else if !keepsNil && (h.view v).isNil then become a (← discard h (.ref a) key)
  else become a (← assign h (.ref a) key v)

/-- The entries of a map that is gone through, of which there have to be as many as at first. -/
def entriesOf (upper : Value) (count : Nat) : Updating (List (Value × Value)) := do
  let h ← get
  match h.entries? (h.view upper) with
  | none => throw .noSuchAttribute
  | some es => if es.length = count then return es else throw .changedMeanwhile

/-- Goes through the last of the entries of a map, each as it is when its turn comes. -/
def forEntries (upper : Value) (count : Nat) (act : Value → Value → Updating Unit) :
    Nat → Updating Unit
  | 0 => do let _ ← entriesOf upper count
  | n + 1 => do
    let es ← entriesOf upper count
    let e := es.getD (count - (n + 1)) (.nil, .nil)
    act e.1 e.2
    forEntries upper count act n

def updateWithin (keepsNil : Bool) : Nat → Addr → Value → Updating Unit
  | 0, _, _ => throw .tooDeep
  | n + 1, a, upper => do
    let h ← get
    match h.entries? (h.view upper) with
    | none => throw .noSuchAttribute
    | some es =>
      forEntries upper es.length (updateEntry keepsNil (updateWithin keepsNil n) a) es.length

/-- Lays a map over an object, and gives the heap that this leaves. -/
def update (h : Heap) (keepsNil : Bool) (a : Addr) (upper : Value) : Except Fault Heap := do
  let (_, h) ← (updateWithin keepsNil (h.pairBound (.ref a) upper) a upper).run h
  return h

end DocDelta.Settings
