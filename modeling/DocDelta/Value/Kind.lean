import DocDelta.Value.Basic

/-! Classification of values.

A comparison is chosen by the kind of the values. Records are the instances of record
classes, and of the number classes derived from a basic one: those have room for attributes
and hold none. Everything here looks at one layer only. -/
namespace DocDelta

/-- The kinds told apart when two values are compared. -/
inductive Kind
  | nil
  | time
  | record
  | sequence
  | mapping
  | scalar
  deriving DecidableEq, Repr

def Kind.name : Kind → String
  | .nil => "nil"
  | .time => "time"
  | .record => "struct"
  | .sequence => "sequence"
  | .mapping => "mapping"
  | .scalar => "scalar"

/-- The class named by a derived class, or else the basic one. -/
def Class.ofSubclass (basic : String) : Option Subclass → Class
  | some c => .defined c.name
  | none => .basic basic

namespace RecordClass

def isPositional (c : RecordClass) : Bool :=
  match c.shape with
  | .positional _ => true
  | _ => false

def isDeclared (c : RecordClass) : Bool :=
  match c.shape with
  | .declared .. => true
  | _ => false

/-- Whether the fields of an instance cannot be assigned. -/
def isFrozen (c : RecordClass) : Bool :=
  match c.shape with
  | .declared _ frozen => frozen
  | .positional _ => true
  | .freeform => false

end RecordClass

namespace Object
variable {α : Type}

def cls : Object α → Class
  | .nil => .basic "NoneType"
  | .missing => .basic "object"
  | .bool _ => .basic "bool"
  | .int c _ => .ofSubclass "int" c
  | .float c _ => .ofSubclass "float" c
  | .complex .. => .basic "complex"
  | .decimal _ => .basic "Decimal"
  | .text c _ => .ofSubclass "str" c
  | .bytes c _ => .ofSubclass "bytes" c
  | .buffer c _ => .ofSubclass "bytearray" c
  | .date _ => .basic "date"
  | .time _ => .basic "time"
  | .datetime _ => .basic "datetime"
  | .duration _ => .basic "timedelta"
  | .member c .. => .defined c.name
  | .type _ isEnum => .basic (if isEnum then "EnumType" else "type")
  | .list c _ => .ofSubclass "list" c
  | .tuple c _ => .ofSubclass "tuple" c
  | .set c _ => .ofSubclass "set" c
  | .frozenset c _ => .ofSubclass "frozenset" c
  | .map c _ => .ofSubclass "dict" c
  | .mapView _ => .basic "mappingproxy"
  | .record c _ => .defined c.name

def isNil : Object α → Bool
  | .nil => true
  | _ => false

/-- Records have fields, possibly none. -/
def isRecord : Object α → Bool
  | .record .. => true
  | .int c _ => c.isSome
  | .float c _ => c.isSome
  | _ => false

def isPositional : Object α → Bool
  | .record c _ => c.isPositional
  | _ => false

def isFreeform : Object α → Bool
  | .record c _ => match c.shape with
    | .freeform => true
    | _ => false
  | _ => false

def kind : Object α → Kind
  | .nil => .nil
  | .date _ | .time _ | .datetime _ | .duration _ => .time
  | .map .. | .mapView _ => .mapping
  | .list .. | .tuple .. => .sequence
  | o => if o.isRecord then .record else .scalar

/-- The primitive scalars are booleans, numbers, texts and byte strings. -/
def isPrimitive : Object α → Bool
  | .bool _ | .int .. | .float .. | .complex .. | .text .. | .bytes .. | .decimal _ => true
  | .member c .. => c.isWhole
  | _ => false

/-- References are the objects that can change: two values that hold the same one observe
each other's changes. -/
def isReference : Object α → Bool
  | .list .. | .map .. | .set .. | .buffer .. => true
  | .record c _ => !c.isFrozen
  | .int c _ => c.isSome
  | .float c _ => c.isSome
  | _ => false

/-- The text of a text object. -/
def text? : Object α → Option String
  | .text _ s => some s
  | _ => none

def label? : Object α → Option Label
  | .text c s => some ⟨s, c⟩
  | _ => none

/-- The items of a list or tuple. -/
def items? : Object α → Option (List α)
  | .list _ xs | .tuple _ xs => some xs
  | .record c as => if c.isPositional then some (as.map (·.2)) else none
  | _ => none

/-- The items of a tuple; positional records are tuples. -/
def tupleItems? : Object α → Option (List α)
  | .tuple _ xs => some xs
  | .record c as => if c.isPositional then some (as.map (·.2)) else none
  | _ => none

/-- The value of a whole number, where booleans count as 0 and 1. -/
def whole? : Object α → Option Int
  | .bool b => some b.toNat
  | .int _ n => some n
  | _ => none

end Object

/-- The class of a value. -/
def Heap.classOf (h : Heap) (v : Value) : Class := (h.view v).cls

def Heap.kindOf (h : Heap) (v : Value) : Kind := (h.view v).kind

/-- The entries of a map, or of the map behind a view of one. Views of views are followed
as long as there are addresses left to visit. -/
def Heap.entriesFrom (h : Heap) : Nat → Object Value → Option (List (Value × Value))
  | _, .map _ es => some es
  | n + 1, .mapView t => h.entriesFrom n (h.view t)
  | _, _ => none

/-- The entries of a mapping in their order. -/
def Heap.entries? (h : Heap) (o : Object Value) : Option (List (Value × Value)) :=
  h.entriesFrom (h.size + match o with | .mapView t => t.depth | _ => 0) o

end DocDelta
