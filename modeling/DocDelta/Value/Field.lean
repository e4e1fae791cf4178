import DocDelta.Text.Case
import DocDelta.Value.Kind

/-! The exported fields of records and their external names.

A field whose name starts with an underscore is private. A declared field may carry a tag:
its first comma-separated part is the external name, `-` excludes the field, and the option
`omitempty` leaves the field out of documents while it is empty. Without a name in the tag
the external name is the field's name in snake case. -/
namespace DocDelta

/-- An exported field. -/
structure Field where
  name : String
  external : String
  omitsEmpty : Bool
  deriving DecidableEq, Repr

namespace Field

/-- The snake case of a name: an underscore before each upper-case letter but the first
character, and everything in lower case. -/
def snakeCase (name : String) : String :=
  match name.toList with
  | [] => ""
  | c :: cs => String.ofList (Text.lower c ++
      cs.flatMap fun c => (if Text.isUpper c then ['_'] else []) ++ Text.lower c)

/-- The external name of a field with a tag. -/
def externalName (name : String) (tag : Option String) : String :=
  match tag with
  | none => snakeCase name
  | some "-" => "-"
  | some tag => match (tag.splitOn ",").head? with
    | none | some "" => snakeCase name
    | some external => external

def isPrivate (name : String) : Bool := name.startsWith "_"

/-- The exported fields of a declared record. -/
def ofDeclared (declared : List (String × Option String)) : List Field :=
  (declared.filter fun f => !isPrivate f.1).filterMap fun (name, tag) =>
    let external := externalName name tag
    if external = "-" then none
    else some ⟨name, external, ((tag.getD "").splitOn ",").tail.contains "omitempty"⟩

/-- The exported fields among attribute names, each once and in first-seen order. -/
def ofNames (names : List String) : List Field :=
  ((names.filter fun n => !isPrivate n).eraseDups).map fun n => ⟨n, externalName n none, false⟩

end Field

namespace Object
variable {α : Type}

/-- The names of all attributes, private ones too; nothing where the value has no room for
attributes. -/
def attributeNames? : Object α → Option (List String)
  | .record _ as => some (as.map (·.1))
  | .int (some _) _ | .float (some _) _ | .text (some _) _ | .bytes (some _) _
  | .buffer (some _) _ | .list (some _) _ | .tuple (some _) _ | .set (some _) _
  | .frozenset (some _) _ | .map (some _) _ => some []
  | .nil => some []
  | .member .. => some []
  | _ => none

/-- The value of an attribute. -/
def attribute? (name : String) : Object α → Option α
  | .record _ as => (as.find? fun a => a.1 == name).map (·.2)
  | _ => none

/-- The exported fields of a record taken together with others. A declared record has the
fields it declares; other records have those that any of them holds. -/
def fields? (o : Object α) (others : List (Object α)) : Option (List Field) :=
  match o with
  | .record ⟨_, .declared declared _⟩ _ => some (Field.ofDeclared declared)
  | _ => do
    let names ← (o :: others).mapM attributeNames?
    return Field.ofNames names.flatten

/-- The exported fields of one record. -/
def fields (o : Object α) : List Field := (o.fields? []).getD []

end Object

/-- The value of a record's attribute, nothing where it is lacking. -/
def Heap.fieldValue (h : Heap) (v : Value) (name : String) : Value :=
  ((h.view v).attribute? name).getD .nil

end DocDelta
