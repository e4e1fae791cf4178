import DocDelta.Value.Basic

/-! Patches: the update operations that turn one document into another.

Operations are grouped by operator and then by path, both in the order they were first used;
`Patch.addOperation` keeps every path under one operator only and drops a group that has
become empty. The metadata runs beside the operations: each touched path once, the operator
that last touched it, and how many operations were recorded. -/
namespace DocDelta

/-- The update operators. -/
inductive Operator
  | set
  | unset
  | push
  deriving DecidableEq, Repr

namespace Operator

def text : Operator → String
  | .set => "$set"
  | .unset => "$unset"
  | .push => "$push"

def all : List Operator := [.set, .unset, .push]

def ofText? (s : String) : Option Operator := all.find? fun o => o.text == s

/-- The name under which several pushed items are listed. -/
def each : String := "$each"

end Operator

/-- An entry of the metadata: a path or an operator, or any other value it was given. -/
inductive Mark
  | label (l : Label)
  | other (v : Value)
  deriving Inhabited

namespace Mark

def value : Mark → Value
  | .label l => l.value
  | .other v => v

def isText (s : String) : Mark → Bool
  | .label l => l.text == s
  | .other _ => false

end Mark

/-- A count of changes, as it was given or as it was counted. -/
inductive Total
  | counted (n : Int)
  | given (v : Value) (n : Int)
  deriving Inhabited

namespace Total

def count : Total → Int
  | .counted n => n
  | .given _ n => n

def value : Total → Value
  | .counted n => .int n
  | .given v _ => v

end Total

/-- The record of what a patch changes. -/
structure Metadata where
  fieldsChanged : List Mark
  operationTypes : List (Mark × Mark)
  totalChanges : Total
  deriving Inhabited

namespace Metadata

def empty : Metadata := ⟨[], [], .counted 0⟩

def hasType (m : Metadata) (path : String) : Bool :=
  m.operationTypes.any fun e => e.1.isText path

/-- Notes that an operator touched a path. -/
def record (m : Metadata) (path : Label) (operator : String) : Metadata :=
  let mark := Mark.label (.plain operator)
  { fieldsChanged :=
      if m.hasType path.text then m.fieldsChanged else m.fieldsChanged ++ [.label path]
    operationTypes :=
      if m.hasType path.text then
        m.operationTypes.map fun e => if e.1.isText path.text then (e.1, mark) else e
      else m.operationTypes ++ [(.label path, mark)]
    totalChanges := .counted (m.totalChanges.count + 1) }

/-- The metadata as a map. -/
def toMap (m : Metadata) : Value :=
  .table [("fieldsChanged", .list (m.fieldsChanged.map (·.value))),
    ("operationTypes", .map (m.operationTypes.map fun e => (e.1.value, e.2.value))),
    ("totalChanges", m.totalChanges.value)]

end Metadata

/-! ### Groups of operations -/

/-- The operations of one operator, by path; the operator remembers its class. -/
structure Group where
  operator : Operator
  cls : Option Subclass
  fields : List (Label × Value)

namespace Group

def has (g : Group) (path : String) : Bool := g.fields.any fun f => f.1.text == path

def find? (g : Group) (path : String) : Option Value :=
  (g.fields.find? fun f => f.1.text == path).map (·.2)

/-- Puts a value at a path; a path that is there already keeps its place. -/
def put (g : Group) (path : Label) (v : Value) : Group :=
  { g with fields :=
      if g.has path.text then
        g.fields.map fun f => if f.1.text == path.text then (f.1, v) else f
      else g.fields ++ [(path, v)] }

def erase (g : Group) (path : String) : Group :=
  { g with fields := g.fields.filter fun f => f.1.text != path }

def label (g : Group) : Label := ⟨g.operator.text, g.cls⟩

end Group

/-- An update document under construction, with its array filters and metadata. -/
structure Patch where
  groups : List Group
  filters : List Value
  metadata : Metadata
  deriving Inhabited

namespace Patch

def empty : Patch := ⟨[], [], .empty⟩

def isEmpty (p : Patch) : Bool := p.groups.isEmpty

def hasFilters (p : Patch) : Bool := !p.filters.isEmpty

/-- Takes a path out of the groups of all other operators, and an emptied group with it. -/
def release (operator : Operator) (path : String) (groups : List Group) : List Group :=
  groups.filterMap fun g =>
    if g.operator = operator || !g.has path then some g
    else
      let g := g.erase path
      if g.fields.isEmpty then none else some g

/-- Puts a value at a path under an operator. -/
def putUnder (operator : Operator) (path : Label) (v : Value) (groups : List Group) :
    List Group :=
  if groups.any fun g => g.operator = operator then
    groups.map fun g => if g.operator = operator then g.put path v else g
  else groups ++ [⟨operator, none, [(path, v)]⟩]

/-- Records an operation on a path, in place of any earlier one. -/
def addOperation (p : Patch) (operator : Operator) (path : Label) (v : Value) : Patch :=
  { p with
    groups := putUnder operator path v (release operator path.text p.groups)
    metadata := p.metadata.record path operator.text }

def set (p : Patch) (path : Label) (v : Value) : Patch := p.addOperation .set path v

def unset (p : Patch) (path : Label) : Patch := p.addOperation .unset path (.text "")

/-- Appends items to the array at a path: one item as itself, several as a list. -/
def push (p : Patch) (path : Label) : List Value → Patch
  | [] => p
  | [v] => p.addOperation .push path v
  | vs => p.addOperation .push path (.table [(Operator.each, .list vs)])

def addFilter (p : Patch) (filter : Value) : Patch := { p with filters := p.filters ++ [filter] }

/-- The operations as a map of maps. -/
def operations (p : Patch) : Value :=
  .map (p.groups.map fun g =>
    (g.label.value, .map (g.fields.map fun f => (f.1.value, f.2))))

/-- The whole patch as a map; the filters are left out when there are none. -/
def toMap (p : Patch) : Value :=
  .table ([("operations", p.operations)] ++
    (if p.hasFilters then [("arrayFilters", .list p.filters)] else []) ++
    [("metadata", p.metadata.toMap)])

end Patch
end DocDelta
