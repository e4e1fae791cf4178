import DocDelta.Number.Decimal
import DocDelta.Calendar

/-! The values that are compared: scalars, containers and records, in a heap.

A heap maps addresses to objects whose children are addresses, so values may share parts
and refer back to themselves. A `Value` is an object of the heap or an object written out
in place; only objects of the heap have an identity. `Heap.view` opens either kind one
layer, and everything else in the library looks at values through it. -/
namespace DocDelta
open Number Calendar

/-! ### Classes -/

/-- A class derived from a basic one. One that needs an argument has no empty value. -/
structure Subclass where
  name : String
  needsArgument : Bool
  deriving DecidableEq, Repr, Inhabited

/-- The class of an enumeration's members; members of a whole-number enumeration are
integers as well. -/
structure EnumClass where
  name : String
  isWhole : Bool
  deriving DecidableEq, Repr, Inhabited

/-- What a class of records says about its fields: `declared` fields carry optional tags,
`positional` records are tuples too, and a `freeform` record holds whatever it was given. -/
inductive RecordShape
  | declared (fields : List (String × Option String)) (frozen : Bool)
  | positional (fields : List String)
  | freeform
  deriving DecidableEq, Repr, Inhabited

structure RecordClass where
  name : String
  shape : RecordShape
  deriving DecidableEq, Repr, Inhabited

/-- The class of a value, by name. Defined classes have distinct names. -/
inductive Class
  | basic (name : String)
  | defined (name : String)
  deriving DecidableEq, Repr, Inhabited

def Class.name : Class → String
  | .basic name => name
  | .defined name => name

/-! ### Objects -/

/-- One layer of a value, with children of type `α`. -/
inductive Object (α : Type)
  | nil
  | missing
  | bool (b : Bool)
  | int (cls : Option Subclass) (n : Int)
  | float (cls : Option Subclass) (x : Binary64)
  | complex (re im : Binary64)
  | decimal (d : Decimal)
  | text (cls : Option Subclass) (s : String)
  | bytes (cls : Option Subclass) (bs : List UInt8)
  | buffer (cls : Option Subclass) (bs : List UInt8)
  | date (d : Date)
  | time (t : Time)
  | datetime (x : DateTime)
  | duration (d : Duration)
  | member (cls : EnumClass) (name : String) (value : α)
  | type (name : String) (isEnum : Bool)
  | list (cls : Option Subclass) (items : List α)
  | tuple (cls : Option Subclass) (items : List α)
  | set (cls : Option Subclass) (items : List α)
  | frozenset (cls : Option Subclass) (items : List α)
  | map (cls : Option Subclass) (entries : List (α × α))
  | mapView (target : α)
  | record (cls : RecordClass) (attributes : List (String × α))
  deriving Inhabited

namespace Object
variable {α β : Type}

/-- The same layer over other children. -/
def mapChildren (f : α → β) : Object α → Object β
  | .nil => .nil
  | .missing => .missing
  | .bool b => .bool b
  | .int c n => .int c n
  | .float c x => .float c x
  | .complex re im => .complex re im
  | .decimal d => .decimal d
  | .text c s => .text c s
  | .bytes c bs => .bytes c bs
  | .buffer c bs => .buffer c bs
  | .date d => .date d
  | .time t => .time t
  | .datetime x => .datetime x
  | .duration d => .duration d
  | .member c n v => .member c n (f v)
  | .type n e => .type n e
  | .list c xs => .list c (xs.map f)
  | .tuple c xs => .tuple c (xs.map f)
  | .set c xs => .set c (xs.map f)
  | .frozenset c xs => .frozenset c (xs.map f)
  | .map c es => .map c (es.map fun e => (f e.1, f e.2))
  | .mapView t => .mapView (f t)
  | .record c as => .record c (as.map fun a => (a.1, f a.2))

/-- The children of a layer, in order. -/
def children : Object α → List α
  | .member _ _ v => [v]
  | .list _ xs | .tuple _ xs | .set _ xs | .frozenset _ xs => xs
  | .map _ es => es.flatMap fun e => [e.1, e.2]
  | .mapView t => [t]
  | .record _ as => as.map (·.2)
  | _ => []

end Object

/-! ### Values and heaps -/

abbrev Addr := Nat

/-- An object of the heap, or an object in place. -/
inductive Value
  | ref (a : Addr)
  | inline (o : Object Value)

instance : Inhabited Value := ⟨.inline .nil⟩

/-- The objects of the heap, numbered from 1. Address 0 is no cell: it is the one NaN that
every `NaN` of a number notation denotes. -/
structure Heap where
  cells : Array (Object Addr)
  deriving Inhabited

namespace Heap

def empty : Heap := ⟨#[]⟩

/-- The object at an address; an address outside the heap holds nothing. -/
def object (h : Heap) : Addr → Object Addr
  | 0 => .float none .nan
  | a + 1 => (h.cells[a]?).getD .nil

/-- One layer of a value. -/
def view (h : Heap) : Value → Object Value
  | .ref a => (h.object a).mapChildren .ref
  | .inline o => o

/-- Adds an object and gives its address. -/
def push (h : Heap) (o : Object Addr) : Heap × Addr := (⟨h.cells.push o⟩, h.cells.size + 1)

/-- How many addresses there are. -/
def size (h : Heap) : Nat := h.cells.size + 1

end Heap

namespace Value

def nil : Value := .inline .nil
def missing : Value := .inline .missing
def bool (b : Bool) : Value := .inline (.bool b)
def int (n : Int) : Value := .inline (.int none n)
def float (x : Binary64) : Value := .inline (.float none x)
def text (s : String) : Value := .inline (.text none s)
def list (xs : List Value) : Value := .inline (.list none xs)
def tuple (xs : List Value) : Value := .inline (.tuple none xs)
def map (es : List (Value × Value)) : Value := .inline (.map none es)

/-- A map from texts. -/
def table (es : List (String × Value)) : Value := map (es.map fun e => (text e.1, e.2))

mutual

/-- How many layers of a value stand in place above the heap. -/
def depth : Value → Nat
  | .ref _ => 0
  | .inline o => objectDepth o + 1

def objectDepth : Object Value → Nat
  | .member _ _ v => depth v
  | .list _ xs | .tuple _ xs | .set _ xs | .frozenset _ xs => listDepth xs
  | .map _ es => entriesDepth es
  | .mapView t => depth t
  | .record _ as => attributesDepth as
  | _ => 0

def listDepth : List Value → Nat
  | [] => 0
  | x :: xs => max (depth x) (listDepth xs)

def entriesDepth : List (Value × Value) → Nat
  | [] => 0
  | e :: es => max (entryDepth e) (entriesDepth es)

def entryDepth : Value × Value → Nat
  | (k, v) => max (depth k) (depth v)

def attributesDepth : List (String × Value) → Nat
  | [] => 0
  | a :: as => max (attributeDepth a) (attributesDepth as)

def attributeDepth : String × Value → Nat
  | (_, v) => depth v

end

/-- What two values have in common when they are one object: all nothings are one, an
object of the heap is its address, and any other value in place is only itself. -/
def identity (h : Heap) : Value → Option (Option Addr)
  | .ref a => match h.object a with
    | .nil => some none
    | _ => some (some a)
  | .inline .nil => some none
  | .inline _ => none

/-- Whether two values are one object. -/
def isSame (h : Heap) (a b : Value) : Bool :=
  match a.identity h, b.identity h with
  | some x, some y => x == y
  | _, _ => false

end Value

namespace Heap

/-- More layers than a value can have without meeting an object twice. -/
def layerBound (h : Heap) (v : Value) : Nat := h.size + v.depth + 1

/-- More layers than two values can have without repeating a pair of objects. -/
def pairBound (h : Heap) (a b : Value) : Nat := a.depth + b.depth + h.size * h.size + 1

end Heap

/-- A text together with the class it was given in, if that is a derived one. Paths are
labels: one that consists of a single map key keeps the key's class. -/
structure Label where
  text : String
  cls : Option Subclass
  deriving DecidableEq, Repr, Inhabited

namespace Label

def plain (s : String) : Label := ⟨s, none⟩

def value (l : Label) : Value := .inline (.text l.cls l.text)

end Label
end DocDelta
