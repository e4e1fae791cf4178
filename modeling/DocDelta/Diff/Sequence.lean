import DocDelta.Diff.State
import DocDelta.Value.DeepEqual
import DocDelta.Value.Field

/-! Reconciling sequences.

One strategy serves every sequence of a comparison. `replace` sets the whole new sequence and
is what the others fall back on; `append` pushes a new tail; `smart` also updates changed
items in place while the length stays; `merge` pairs items by an identifying field instead of
by place. No strategy records a whole-sequence operation and a positional one together. -/
namespace DocDelta.Diff
open Number
variable (h : Heap)

/-- The items of a sequence, as far as a value has a length and places. -/
def itemsOf (v : Value) : Except Fault (List Value) :=
  let o := h.view v
  match o with
  | .text .. | .bytes .. | .buffer .. => h.iterate v
  | _ => match o.items? with
    | some xs => .ok xs
    | none => .error (.misuse .unsized)

/-- Runs a comparison unless the values are deeply equal. -/
def unlessEqual (old new : Value) (body : Walk Unit) : Walk Unit := do
  if ← ask (h.deepEqual old new) then return () else body

def replaceSequence (old new : Value) (path : Label) : Walk Unit :=
  unlessEqual h old new (onPatch (·.set path new))

/-- Replaces the sequence, for a reason that is logged. -/
def fallBack (reason : String) (old new : Value) (path : Label) : Walk Unit := do
  let shown := if path.text.isEmpty then "<root>" else path.text
  log .debug ("falling back to replace for " ++ shown ++ ": " ++ reason)
  replaceSequence h old new path

/-- Sets one item by its place, through a new placeholder. -/
def setAt (index : Nat) (v : Value) (path : Label) : Walk Unit := do
  let name ← nextLabel
  onPatch (·.addFilter (.table [(name ++ "._index", .int index)]))
  onPatch (·.set (joinPath path (.plain ("$[" ++ name ++ "]"))) v)

/-- The places at which the common parts of two lists differ. -/
def changedPlaces : Nat → List Value → List Value → Except Fault (List Nat)
  | i, x :: xs, y :: ys => do
    let equal ← h.deepEqual x y
    let rest ← changedPlaces (i + 1) xs ys
    return if equal then rest else i :: rest
  | _, _, _ => .ok []

/-- The first place at which two lists differ. -/
def firstChange : Nat → List Value → List Value → Except Fault (Option Nat)
  | i, x :: xs, y :: ys => do
    if ← h.deepEqual x y then firstChange (i + 1) xs ys else return some i
  | _, _, _ => .ok none

/-- Pushes the items behind a common start. -/
def appendSequence (old new : Value) (path : Label) : Walk Unit :=
  unlessEqual h old new do
    let xs ← ask (itemsOf h old)
    let ys ← ask (itemsOf h new)
    if ys.length < xs.length then fallBack h "sequence shrank" old new path
    else match ← ask (firstChange h 0 xs ys) with
      | some i => fallBack h ("item " ++ decimalText i ++ " changed") old new path
      | none => onPatch (·.push path (ys.drop xs.length))

/-- Whether the first item, if there is one, is primitive. -/
def startsPrimitive (xs : List Value) : Bool :=
  (xs.head?.map fun x => (h.view x).isPrimitive).getD false

/-- Updates changed items in place, or pushes appended ones. -/
def smartSequence (old new : Value) (path : Label) : Walk Unit :=
  unlessEqual h old new do
    let xs ← ask (itemsOf h old)
    let ys ← ask (itemsOf h new)
    let n := xs.length
    let m := ys.length
    if n = 0 || m = 0 || max n m / 2 < max n m - min n m then
      fallBack h "length changed too much" old new path
    else if startsPrimitive h xs then fallBack h "primitive items" old new path
    else
      let changed ← ask (changedPlaces h 0 xs ys)
      if changed ≠ [] ∧ n ≠ m then fallBack h "items and length changed" old new path
      else if changed ≠ [] then
        changed.forM fun i => setAt i ((ys[i]?).getD .nil) path
      else if n < m then onPatch (·.push path (ys.drop n))
      else fallBack h "items removed" old new path

/-! ### Pairing by identity -/

/-- The fields that identify an item, the decisive first. -/
def identifiers : List String :=
  ["ID", "Id", "id", "Key", "key", "Name", "name", "UUID", "Uuid", "uuid"]

/-- The value of an identifying field or key; one that holds the marker of a missing value
is not set. -/
def identifier? (item : Value) (name : String) : Option Value :=
  let o := h.view item
  let found := match h.entries? o with
    | some es => h.entry? name es
    | none => o.attribute? name
  found.filter fun v => match h.view v with
    | .missing => false
    | _ => true

/-- The first identifier that is set on the new item and present on the old one decides;
items without one are similar only when they are deeply equal. -/
def decideByIdentifier (old new : Value) : List String → Except Fault Bool
  | [] => h.deepEqual old new
  | name :: names =>
    match identifier? h new name with
    | none => decideByIdentifier old new names
    | some y => do
      if ← h.isZeroValue y then decideByIdentifier old new names
      else match identifier? h old name with
        | none => decideByIdentifier old new names
        | some x => h.deepEqual x y

/-- Whether two items stand for the same thing. -/
def areSimilar (old new : Value) : Except Fault Bool :=
  let o := h.view new
  if h.classOf old = o.cls ∧ (o.isRecord ∨ o.kind = .mapping) then
    decideByIdentifier h old new identifiers
  else h.deepEqual old new

/-- The first unused old item that is similar to a new one, with its place. -/
def findSimilar (item : Value) :
    List (Nat × Value) → Except Fault (Option (Nat × Value))
  | [] => .ok none
  | (j, candidate) :: rest => do
    if ← areSimilar h candidate item then return some (j, candidate)
    else findSimilar item rest

/-- How the items of a new sequence were paired with those of an old one. -/
structure Pairing where
  unused : List (Nat × Value)
  updates : List (Nat × Value)
  additions : List Value

/-- Pairs one more new item. -/
def Pairing.add (p : Pairing) (item : Value) : Except Fault Pairing := do
  match ← findSimilar h item p.unused with
  | none => return { p with additions := p.additions ++ [item] }
  | some (j, candidate) =>
    let p := { p with unused := p.unused.filter fun e => e.1 != j }
    if ← h.deepEqual candidate item then return p
    else return { p with updates := p.updates ++ [(j, item)] }

/-- Pairs each new item with the first unused old item that is similar. -/
def pairUp (xs ys : List Value) : Except Fault Pairing :=
  ys.foldlM (fun p y => p.add h y) ⟨xs.zipIdx.map fun (x, i) => (i, x), [], []⟩

/-- Pairs the items and updates or pushes them; the sequence is replaced when old items are
left over, or when some items were updated and others added. -/
def mergeSequence (old new : Value) (path : Label) : Walk Unit :=
  unlessEqual h old new do
    let xs ← ask (itemsOf h old)
    if xs.isEmpty then onPatch (·.set path new)
    else
      let ys ← ask (itemsOf h new)
      if ys.isEmpty then onPatch (·.unset path)
      else if startsPrimitive h xs then fallBack h "primitive items" old new path
      else
        let p ← ask (pairUp h xs ys)
        if !p.unused.isEmpty then
          fallBack h (decimalText p.unused.length ++ " items removed") old new path
        else if !p.updates.isEmpty && !p.additions.isEmpty then
          fallBack h "items updated and added" old new path
        else if !p.additions.isEmpty then onPatch (·.push path p.additions)
        else p.updates.forM fun (i, item) => setAt i item path

/-- Compares two sequences with a strategy. -/
def diffSequences (strategy : Strategy) (old new : Value) (path : Label) : Walk Unit :=
  unlessEqual h old new <| match strategy with
    | .replace => replaceSequence h old new path
    | .append => appendSequence h old new path
    | .smart => smartSequence h old new path
    | .merge => mergeSequence h old new path

end DocDelta.Diff
