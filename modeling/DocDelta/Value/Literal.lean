import DocDelta.Text.Quoted
import DocDelta.Value.Contents

/-! The written forms of values.

`literal` is how a value is written inside other values and in messages: quoted texts,
bracketed containers, records with their attributes. A container met again inside itself is
cut to dots. `display` is how a value is written on its own, where texts stand unquoted. -/
namespace DocDelta
open Number Calendar Text

/-! ### Scalars -/

/-- The complex number as a sum, or as its imaginary part alone where the real part is a
positive zero. -/
def complexText (re im : Binary64) : String :=
  let part := Binary64.textWith ⟨false⟩
  if re = Binary64.zero then part im ++ "j"
  else "(" ++ part re ++ (if (part im).startsWith "-" then "" else "+") ++ part im ++ "j)"

private def call (name : String) (arguments : List String) : String :=
  name ++ "(" ++ ", ".intercalate arguments ++ ")"

def durationLiteral (d : Duration) : String :=
  let named (name : String) (n : Int) : List String :=
    if n = 0 then [] else [name ++ "=" ++ integerText n]
  let parts := named "days" d.days ++ named "seconds" d.seconds ++
    named "microseconds" d.microseconds
  call "datetime.timedelta" (if parts.isEmpty then ["0"] else parts)

/-- The zone of an offset, as a named argument. -/
def zoneLiteral : Option Int → List String
  | none => []
  | some 0 => ["tzinfo=datetime.timezone.utc"]
  | some o => ["tzinfo=" ++ call "datetime.timezone" [durationLiteral (Duration.ofSeconds o)]]

/-- Hours and minutes, and seconds and microseconds as far as they are needed. -/
def clockLiteral (t : Time) : List String :=
  let used := if t.microsecond ≠ 0 then 4 else if t.second ≠ 0 then 3 else 2
  (([t.hour, t.minute, t.second, t.microsecond].take used).map decimalText)

def dateLiteral (d : Date) : List String := [d.year, d.month, d.day].map decimalText

/-- The literal of an object without parts. -/
def scalarLiteral {α : Type} : Object α → String
  | .nil => "None"
  | .bool b => if b then "True" else "False"
  | .int _ n => integerText n
  | .float _ x => x.text
  | .complex re im => complexText re im
  | .decimal d => call "Decimal" [quoted d.text]
  | .text _ s => quoted s
  | .bytes _ bs => quotedBytes bs
  | .buffer c bs => call (Class.ofSubclass "bytearray" c).name [quotedBuffer bs]
  | .date d => call "datetime.date" (dateLiteral d)
  | .time t => call "datetime.time" (clockLiteral t ++ zoneLiteral t.offset)
  | .datetime x =>
    call "datetime.datetime"
      (dateLiteral x.date ++ clockLiteral x.time ++ zoneLiteral x.time.offset)
  | .duration d => durationLiteral d
  | .type name isEnum => if isEnum then "<enum " ++ quoted name ++ ">"
    else "<class " ++ quoted ("__main__." ++ name) ++ ">"
  | .record c _ => "<__main__." ++ c.name ++ " object at 0xADDR>"
  | _ => "<object object at 0xADDR>"

/-! ### Containers -/

/-- How a container met again inside itself is written. -/
def cutLiteral {α : Type} : Object α → String
  | .list .. => "[...]"
  | .tuple .. => "(...)"
  | .map .. => "\x7b...\x7d"
  | .set c _ => (Class.ofSubclass "set" c).name ++ "(...)"
  | .frozenset c _ => (Class.ofSubclass "frozenset" c).name ++ "(...)"
  | _ => "..."

private def braced (items : List String) : String := "\x7b" ++ ", ".intercalate items ++ "\x7d"

def setLiteral (name : String) (plain : Bool) (items : List String) : String :=
  if items.isEmpty then name ++ "()"
  else if plain then braced items else name ++ "(" ++ braced items ++ ")"

/-- The literal of one layer, where `part` writes the parts. -/
def layerLiteral {α : Type} (part : α → String) : Object α → String
  | .member c name v => "<" ++ c.name ++ "." ++ name ++ ": " ++ part v ++ ">"
  | .list _ xs => "[" ++ ", ".intercalate (xs.map part) ++ "]"
  | .tuple _ [x] => "(" ++ part x ++ ",)"
  | .tuple _ xs => "(" ++ ", ".intercalate (xs.map part) ++ ")"
  | .set c xs => setLiteral (Class.ofSubclass "set" c).name c.isNone (xs.map part)
  | .frozenset c xs => setLiteral (Class.ofSubclass "frozenset" c).name false (xs.map part)
  | .map _ es => braced (es.map fun e => part e.1 ++ ": " ++ part e.2)
  | .mapView t => call "mappingproxy" [part t]
  | .record c as =>
    match c.shape with
    | .freeform => scalarLiteral (.record c as)
    | _ => call c.name (as.map fun a => a.1 ++ "=" ++ part a.2)
  | o => scalarLiteral o

namespace Heap

/-- Whether an object is cut when it is met inside itself. -/
def isCut {α : Type} : Object α → Bool
  | .list .. | .tuple .. | .map .. | .set .. | .frozenset .. => true
  | .record c _ => c.isDeclared
  | _ => false

def literalWithin (h : Heap) : Nat → List (Option Addr) → Value → String
  | 0, _, _ => "..."
  | n + 1, active, v =>
    let o := h.view v
    match v.identity h with
    | some a =>
      if !isCut o then layerLiteral (h.literalWithin n active) o
      else if active.contains a then cutLiteral o
      else layerLiteral (h.literalWithin n (a :: active)) o
    | none => layerLiteral (h.literalWithin n active) o

/-- The literal of a value. -/
def literal (h : Heap) (v : Value) : String :=
  h.literalWithin (h.size * h.layerBound v + 1) [] v

/-- The text of a value on its own. -/
def display (h : Heap) (v : Value) : String :=
  match h.view v with
  | .text _ s => s
  | .decimal d => d.text
  | .date d => d.text
  | .time t => t.text
  | .datetime x => x.textWith " "
  | .duration d => d.text
  | .member c name w => if c.isWhole then h.literal w else c.name ++ "." ++ name
  | _ => h.literal v

end Heap
end DocDelta
