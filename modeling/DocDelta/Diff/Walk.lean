import DocDelta.Diff.Sequence
import DocDelta.Diff.Tracker

/-! Comparing two values and recording the changes.

Values of one class are compared by their kind: records by exported field, mappings by key,
sequences by the chosen strategy, scalars by equality. Nothing on one side means that the
other is added or removed: a record is then walked field by field, an added field against
the zero of its class and a removed one by whether it was zero. The walks descend into each
pair of objects at most once on a branch, which bounds the steps `diffValues` may take. -/
namespace DocDelta.Diff
variable (h : Heap) (o : Options)

/-- The exported fields of records that are not ignored, each with its path. -/
def activeFields (old new : Value) (path : Label) : Except Fault (List (Field × Label)) :=
  match (h.view old).fields? [h.view new] with
  | none => .error (.misuse .noAttributes)
  | some fields => .ok <|
    (fields.map fun f => (f, joinPath path (.plain f.external))).filter fun (f, subpath) =>
      !o.ignores h [f.name, f.external, subpath.text]

/-- The path of a key, or nothing if the key is ignored. -/
def keyPath (path : Label) (key : Value) : Except Fault (Option Label) :=
  match (h.view key).label? with
  | none => .error (.unsupportedKey path key)
  | some l =>
    let subpath := joinPath path l
    .ok (if o.ignores h [l.text, subpath.text] then none else some subpath)

/-- Records the change of a scalar, as the zero policy says where it becomes zero. -/
def diffScalars (old new : Value) (path : Label) : Walk Unit :=
  unlessEqual h old new do
    if ← ask (h.isZeroValue new) then
      match o.zeros with
      | .unset => onPatch (·.unset path)
      | .ignore => log .debug ("ignoring zero value at " ++ path.text)
      | .set => onPatch (·.set path new)
    else onPatch (·.set path new)

/-- The keys of two mappings, those of the old one first. -/
def unionKeys (as bs : List (Value × Value)) : Except Fault (List Value) := do
  let added ← bs.filterM fun e => return (← h.find? e.1 as).isNone
  return as.map (·.1) ++ added.map (·.1)

/-- The entries of a mapping. -/
def entriesOf (v : Value) : Except Fault (List (Value × Value)) :=
  match h.entries? (h.view v) with
  | some es => .ok es
  | none => .error .noSuchAttribute

/-- The value under a key, nothing where it is absent. -/
def valueUnder (key : Value) (es : List (Value × Value)) : Except Fault Value :=
  return (← h.find? key es).getD .nil

mutual

/-- Compares two values of any kind. -/
def diffValues : Nat → Value → Value → Label → Walk Unit
  | 0, _, _, _ => throw .tooDeep
  | n + 1, old, new, path =>
    let x := h.view old
    let y := h.view new
    if x.isNil || y.isNil then diffPointers n old new path
    else if x.cls ≠ y.cls then throw (.classMismatch path x.cls y.cls)
    else match x.kind with
      | .record => visiting h old new path (diffStructs n old new path)
      | .sequence => visiting h old new path (diffSequences h o.strategy old new path)
      | .mapping => visiting h old new path (diffMappings n old new path)
      | _ => diffScalars h o old new path

/-- Compares two values either of which may be nothing. -/
def diffPointers : Nat → Value → Value → Label → Walk Unit
  | 0, _, _, _ => throw .tooDeep
  | n + 1, old, new, path =>
    let x := h.view old
    let y := h.view new
    if x.isNil && y.isNil then return ()
    else if x.isNil then
      if y.isRecord then addStructFields n new path else onPatch (·.set path new)
    else if y.isNil then
      if x.isRecord then unsetStructFields n old path else onPatch (·.unset path)
    else diffValues n old new path

/-- Compares two records field by field. -/
def diffStructs : Nat → Value → Value → Label → Walk Unit
  | 0, _, _, _ => throw .tooDeep
  | n + 1, old, new, path => do
    (← ask (activeFields h o old new path)).forM fun (f, subpath) =>
      diffValues n (h.fieldValue old f.name) (h.fieldValue new f.name) subpath

/-- Compares two mappings key by key. -/
def diffMappings : Nat → Value → Value → Label → Walk Unit
  | 0, _, _, _ => throw .tooDeep
  | n + 1, old, new, path => do
    let as ← ask (entriesOf h old)
    let bs ← ask (entriesOf h new)
    (← ask (unionKeys h as bs)).forM fun key => do
      match ← ask (keyPath h o path key) with
      | none => return ()
      | some subpath =>
        let x ← ask (valueUnder h key as)
        let y ← ask (valueUnder h key bs)
        diffValues n x y subpath

/-- Records every field of an added record. -/
def addStructFields : Nat → Value → Label → Walk Unit
  | 0, _, _ => throw .tooDeep
  | n + 1, new, path => visiting h new .nil path do
    (← ask (activeFields h o new .nil path)).forM fun (f, subpath) =>
      diffAdded n (h.fieldValue new f.name) subpath

/-- Records an added value, compared with the zero of its class where there is one. -/
def diffAdded : Nat → Value → Label → Walk Unit
  | 0, _, _ => throw .tooDeep
  | n + 1, v, path =>
    let x := h.view v
    if x.isNil then return ()
    else if x.isRecord then addStructFields n v path
    else match x.zero? with
      | none => onPatch (·.set path v)
      | some zero => diffValues n (.inline zero) v path

/-- Removes every field of a removed record that is not zero. -/
def unsetStructFields : Nat → Value → Label → Walk Unit
  | 0, _, _ => throw .tooDeep
  | n + 1, old, path => visiting h old .nil path do
    (← ask (activeFields h o old .nil path)).forM fun (f, subpath) =>
      diffRemoved n (h.fieldValue old f.name) subpath

/-- Removes a value unless it was zero; a mapping entry by entry. -/
def diffRemoved : Nat → Value → Label → Walk Unit
  | 0, _, _ => throw .tooDeep
  | n + 1, v, path => do
    if ← ask (h.isZero v) then return ()
    else if (h.view v).isRecord then unsetStructFields n v path
    else match h.entries? (h.view v) with
      | some es => es.forM fun (key, item) => do
        match ← ask (keyPath h o path key) with
        | none => return ()
        | some subpath => diffValues n item .nil subpath
      | none => onPatch (·.unset path)

end

/-- Enough steps for any two values: at most six between one pair of objects and the next,
and no pair twice on a branch. -/
def stepBound (old new : Value) : Nat := 8 * (h.pairBound old new + 2 * h.size + 2)

/-- Compares two values on a fresh branch. -/
def compare (old new : Value) (path : Label) : Walk Unit :=
  diffValues h o (stepBound h old new) old new path

/-- The comparison of two whole values: it refuses two nothings and two classes, looks for
shared references if asked to, and checks the patch that comes out. -/
def diffWalk (old new : Value) : Walk Patch := do
  let x := h.view old
  let y := h.view new
  if x.isNil && y.isNil then throw .nothingToCompare
  if !x.isNil && !y.isNil && x.cls ≠ y.cls then throw (.classMismatch (.plain "") x.cls y.cls)
  if o.detectsSharing then trackRoots h old new
  compare h o old new (.plain "")
  if o.detectsSharing then
    if let some fault := sharingFault (← get) then
      log .warning ((fault.message? h).getD "")
      throw fault
  let patch := (← get).patch
  ask (Patch.check h patch.toMap)
  return patch

/-- The patch that turns one value into another, with the messages logged on the way. -/
def diff (old new : Value) : Except Fault Patch × List Message :=
  let (answer, s) := (diffWalk h o old new).run .start
  (answer, s.log)

end DocDelta.Diff
