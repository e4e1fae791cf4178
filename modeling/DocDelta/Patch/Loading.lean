import DocDelta.Patch.Basic
import DocDelta.Value.Contents

/-! Patches from maps.

`check` says whether a value has the shape of a patch: known operators, each over a non-empty
map of text paths, no path twice, filters that are maps, and metadata of the right classes.
`ofMap` rebuilds the patch that `Patch.toMap` wrote, and refuses exactly what `check` does. -/
namespace DocDelta.Patch

/-- Fails with a flaw unless a condition holds. -/
def need (condition : Bool) (flaw : PatchFlaw) : Except Fault Unit :=
  if condition then .ok () else .error (.badPatch flaw)

/-- The named entry, or a value in its place when it is absent. -/
def entryOr (h : Heap) (name : String) (es : List (Value × Value)) (absent : Value) : Value :=
  (h.entry? name es).getD absent

/-- Checks the paths of one group against those met before, and adds them. -/
def checkPaths (h : Heap) (operator : Value) :
    List (String × Value) → List (Value × Value) → Except Fault (List (String × Value))
  | seen, [] => .ok seen
  | seen, (path, _) :: rest =>
    match (h.view path).text? with
    | none => .error (.badPatch (.pathNotText path))
    | some s =>
      match seen.find? fun e => e.1 == s with
      | some (_, first) => .error (.badPatch (.pathTwice path first operator))
      | none => checkPaths h operator (seen ++ [(s, operator)]) rest

/-- The operator that a key names. -/
def operatorOf? (h : Heap) (key : Value) : Option Operator :=
  (h.view key).text?.bind Operator.ofText?

/-- Checks the groups in turn. -/
def checkGroups (h : Heap) :
    List (String × Value) → List (Value × Value) → Except Fault Unit
  | _, [] => .ok ()
  | seen, (operator, fields) :: rest => do
    need (operatorOf? h operator).isSome (.unknownOperator operator)
    match h.mapEntries? fields with
    | none | some [] => .error (.badPatch (.badGroup operator))
    | some es => checkGroups h (← checkPaths h operator seen es) rest

/-- Checks that a value, unless it counts as empty, is a list of maps. -/
def checkFilters (h : Heap) (v : Value) : Bool :=
  !h.truthy v ||
    ((h.listItems? v).map fun xs => xs.all fun x => (h.mapEntries? x).isSome).getD false

/-- Checks that a value has the shape of a patch. -/
def check (h : Heap) (v : Value) : Except Fault Unit := do
  match h.mapEntries? v with
  | none => .error (.badPatch (.notAMap (h.classOf v)))
  | some es =>
    match h.entry? "operations" es, h.entry? "metadata" es with
    | none, _ => .error (.badPatch (.missingEntry "operations"))
    | _, none => .error (.badPatch (.missingEntry "metadata"))
    | some operations, some metadata =>
      match h.mapEntries? operations with
      | none => .error (.badPatch .operationsNotAMap)
      | some groups =>
        checkGroups h [] groups
        need (checkFilters h (entryOr h "arrayFilters" es .nil)) .badFilters
        match h.mapEntries? metadata with
        | none => .error (.badPatch .metadataNotAMap)
        | some ms =>
          need (h.whole? (entryOr h "totalChanges" ms (.int 0))).isSome .badTotal
          let fields := entryOr h "fieldsChanged" ms .nil
          need (!h.truthy fields || (h.listItems? fields).isSome) .badFields
          let types := entryOr h "operationTypes" ms .nil
          need (!h.truthy types || (h.mapEntries? types).isSome) .badTypes

/-- A metadata entry for a value. -/
def markOf (h : Heap) (v : Value) : Mark :=
  match (h.view v).label? with
  | some l => .label l
  | none => .other v

/-- A total for a value; only plain whole numbers count on as they are. -/
def totalOf (h : Heap) (v : Value) : Total :=
  match h.view v with
  | .int none n => .counted n
  | _ => .given v ((h.whole? v).getD 0)

/-- Metadata from a list of paths, a map of operators and a total. -/
def metadataOf (h : Heap) (fields : List Value) (types : List (Value × Value)) (total : Value) :
    Metadata :=
  ⟨fields.map (markOf h), types.map fun e => (markOf h e.1, markOf h e.2), totalOf h total⟩

/-- The group of one operator, from the entries of its map. -/
def groupOf? (h : Heap) (operator : Value) (fields : List (Value × Value)) : Option Group := do
  let label ← (h.view operator).label?
  let op ← Operator.ofText? label.text
  let fields ← fields.mapM fun e => ((h.view e.1).label?).map fun l => (l, e.2)
  return ⟨op, label.cls, fields⟩

/-- The patch that a map describes. -/
def ofMap (h : Heap) (v : Value) : Except Fault Patch := do
  check h v
  let entries (name : String) (es : List (Value × Value)) : List (Value × Value) :=
    ((h.entry? name es).bind h.mapEntries?).getD []
  let items (name : String) (es : List (Value × Value)) : List Value :=
    ((h.entry? name es).bind h.listItems?).getD []
  let es := (h.mapEntries? v).getD []
  let ms := entries "metadata" es
  return {
    groups := (entries "operations" es).filterMap fun (operator, fields) =>
      groupOf? h operator ((h.mapEntries? fields).getD [])
    filters := items "arrayFilters" es
    metadata := metadataOf h (items "fieldsChanged" ms) (entries "operationTypes" ms)
      (entryOr h "totalChanges" ms (.int 0)) }

/-! ### Operations as they are given -/

/-- A change of a patch; one that is refused keeps the patch as far as it was changed. -/
abbrev Edit := ExceptT Fault (StateM Patch)

/-- Records an operation under an operator that is given as a value. -/
def addGiven (h : Heap) (operator : Value) (path : Label) (v : Value) : Edit Unit := do
  match operatorOf? h operator with
  | none => throw (.badPatch (.unknownOperator operator))
  | some o => modify (·.addOperation o path v)

/-- Pushes what a value holds; one that holds a single item has to give it by its place. -/
def pushFrom (h : Heap) (p : Patch) (path : Label) (v : Value) : Except Fault Patch := do
  let o := h.view v
  match o, h.entries? o with
  | .set _ [_], _ | .frozenset _ [_], _ => throw (.misuse .notIndexable)
  | .int .., _ | .float .., _ | .nil, _ => throw (.misuse .unsized)
  | _, some [_] =>
    match ← h.find? (.int 0) ((h.entries? o).getD []) with
    | some x => return p.push path [x]
    | none => throw .noSuchKey
  | _, _ => match h.iterate v with
    | .ok xs => return p.push path xs
    | .error _ => throw (.misuse .unsized)

/-! ### Equality -/

/-- Equality of patches by their operations, filters and metadata. -/
def same (h : Heap) (p q : Patch) : Except Fault Bool := do
  if ← h.same p.operations q.operations then
    if ← h.same (.list p.filters) (.list q.filters) then
      h.same p.metadata.toMap q.metadata.toMap
    else return false
  else return false

/-- Metadata from any values that can be gone through; an empty one stands for nothing. -/
def metadataFrom (h : Heap) (fields types total : Value) : Except Fault Metadata := do
  let fields ← if h.truthy fields then h.iterate fields else .ok []
  let types ← if h.truthy types then h.toEntries types else .ok []
  return metadataOf h fields types total

end DocDelta.Patch
