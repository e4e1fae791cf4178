import DocDelta.Text.Space
import DocDelta.Value.Literal

/-! Values laid out on lines of 80 columns.

A value that fits what is left of its line is written on one line, like its literal but with
the entries of maps in the order of their keys. One that does not fit is broken: containers
put each part on a line of its own, long texts are cut between words and at line breaks, and
byte strings after every fourth byte. `Room` says where a value starts, how much of its last
line has to stay free, and whether it stands alone. -/
namespace DocDelta
open Number Text

namespace Layout

def pageWidth : Int := 80

/-- Where a value stands: the columns before it, the columns kept free behind it, and how
many containers are around it. -/
structure Room where
  indent : Nat
  kept : Nat
  level : Nat

def Room.width (r : Room) : Int := pageWidth - r.indent - r.kept

def newline (indent : Nat) : String := "\n" ++ String.ofList (List.replicate indent ' ')

/-! ### Order of keys that need not be comparable -/

/-- The full name of a class, by which values of classes that cannot be compared are put in
order. -/
def className {α : Type} (o : Object α) : String :=
  match o with
  | .member c .. => "<enum " ++ quoted c.name ++ ">"
  | .decimal _ => "<class 'decimal.Decimal'>"
  | .date _ | .time _ | .datetime _ | .duration _ =>
    "<class " ++ quoted ("datetime." ++ o.cls.name) ++ ">"
  | .type _ isEnum => if isEnum then "<class 'enum.EnumType'>" else "<class 'type'>"
  | _ => match o.cls with
    | .basic name => "<class " ++ quoted name ++ ">"
    | .defined name => "<class " ++ quoted ("__main__." ++ name) ++ ">"

/-- The values' own order, or that of their classes where they have none. -/
def lessOrClass (h : Heap) (a b : Value) : Except Fault Bool :=
  match h.less a b with
  | .error (.misuse _) => .ok (className (h.view a) < className (h.view b))
  | answer => answer

def sortedItems (h : Heap) (xs : List Value) : Except Fault (List Value) :=
  sortBy (lessOrClass h) xs

def sortedEntries (h : Heap) (es : List (Value × Value)) : Except Fault (List (Value × Value)) :=
  sortBy (fun a b => lessOrClass h a.1 b.1) es

/-! ### One line -/

/-- What is written for an object met inside itself. -/
def recursionText {α : Type} (o : Object α) : String :=
  "<Recursion on " ++ o.cls.name ++ " with id=0>"

/-- A value on one line. Maps, lists and tuples are gone into; whatever else is a literal. -/
def lineWithin (h : Heap) : Nat → List (Option Addr) → Value → Except Fault String
  | 0, _, _ => .error .tooDeep
  | n + 1, active, v =>
    let o := h.view v
    let enter (body : List (Option Addr) → Except Fault String) : Except Fault String :=
      match v.identity h with
      | none => body active
      | some a => if active.contains a then .ok (recursionText o) else body (a :: active)
    match o with
    | .map _ [] => .ok "\x7b\x7d"
    | .map _ es => enter fun active => do
      let parts ← (← sortedEntries h es).mapM fun (k, x) => do
        let key ← lineWithin h n active k
        return key ++ ": " ++ (← lineWithin h n active x)
      return "\x7b" ++ ", ".intercalate parts ++ "\x7d"
    | .list _ [] => .ok "[]"
    | .list _ xs => enter fun active => do
      return "[" ++ ", ".intercalate (← xs.mapM (lineWithin h n active)) ++ "]"
    | .tuple _ [] => .ok "()"
    | .tuple _ xs => enter fun active => do
      let parts ← xs.mapM (lineWithin h n active)
      return "(" ++ ", ".intercalate parts ++ (if parts.length = 1 then ",)" else ")")
    | _ => .ok (h.literal v)

/-! ### Long texts and byte strings -/

/-- A line cut behind each run of blanks. -/
def words (cs : List Char) : List (List Char) := go [] false cs
where
  go (word : List Char) (inBlanks : Bool) : List Char → List (List Char)
    | [] => if word.isEmpty then [] else [word.reverse]
    | c :: cs =>
      if isSpace c then go (c :: word) true cs
      else if inBlanks then word.reverse :: go [c] false cs
      else go (c :: word) false cs

/-- Fills lines with words as long as their literals fit; the last line has to leave some
columns free. -/
def fillWords (width : Int) (kept : Nat) : List Char → List (List Char) → List (List Char)
  | current, [] => if current.isEmpty then [] else [current]
  | current, word :: rest =>
    let candidate := current ++ word
    let width := if rest.isEmpty then width - kept else width
    if width < (quotedChars candidate).length then
      (if current.isEmpty then [] else [current]) ++ fillWords width kept word rest
    else fillWords width kept candidate rest

/-- The pieces of a text, one for each line of the layout. -/
def textPieces (width : Int) (kept : Nat) : List (List Char) → List (List Char)
  | [] => []
  | line :: rest =>
    let last := rest.isEmpty
    let fits := (quotedChars line).length ≤ (if last then width - kept else width)
    (if fits then [line] else fillWords width (if last then kept else 0) [] (words line)) ++
      textPieces width kept rest

/-- A text over several lines; one that stands alone is put into parentheses. -/
def textLayout (r : Room) (s : String) : String :=
  let alone := r.level = 1
  let indent := if alone then r.indent + 1 else r.indent
  let kept := if alone then r.kept + 1 else r.kept
  match textPieces (pageWidth - indent) kept (linesKeeping s.toList) with
  | [] => quoted s
  | [piece] => quotedChars piece
  | pieces =>
    let body := (newline indent).intercalate (pieces.map quotedChars)
    if alone then "(" ++ body ++ ")" else body

/-- Fills lines with groups of four bytes. -/
def fillBytes (width : Int) (kept : Nat) : Nat → List UInt8 → List UInt8 → List (List UInt8)
  | 0, current, _ => if current.isEmpty then [] else [current]
  | _, current, [] => if current.isEmpty then [] else [current]
  | n + 1, current, rest =>
    let part := rest.take 4
    let candidate := current ++ part
    let width := if rest.length < 4 then width - kept else width
    if width < (quotedBytes candidate).length then
      (if current.isEmpty then [] else [current]) ++ fillBytes width kept n part (rest.drop 4)
    else fillBytes width kept n candidate (rest.drop 4)

/-- A byte string over several lines. -/
def bytesLayout (r : Room) (bs : List UInt8) : String :=
  if bs.length ≤ 4 then quotedBytes bs
  else
    let alone := r.level = 1
    let indent := if alone then r.indent + 1 else r.indent
    let kept := if alone then r.kept + 1 else r.kept
    let pieces := fillBytes (pageWidth - indent) kept bs.length [] bs
    let body := (newline indent).intercalate (pieces.map quotedBytes)
    if alone then "(" ++ body ++ ")" else body

/-! ### Broken containers -/

/-- Each part on a line of its own; the last one leaves columns free, the others one for the
comma. -/
def stack {α : Type} (indent kept : Nat) (part : α → Nat → Except Fault String) :
    List α → Except Fault (List String)
  | [] => .ok []
  | [x] => return [← part x kept]
  | x :: xs => do
    let s ← part x 1
    return s :: (← stack indent kept part xs)

def stacked {α : Type} (indent kept : Nat) (part : α → Nat → Except Fault String)
    (xs : List α) : Except Fault String := do
  return ("," ++ newline indent).intercalate (← stack indent kept part xs)

/-- Whether values of a class can be broken. -/
def isBreakable {α : Type} : Object α → Bool
  | .map .. | .list .. | .tuple .. | .set .. | .frozenset .. | .text .. | .bytes ..
  | .buffer .. | .mapView _ => true
  | .record c _ => c.isDeclared
  | _ => false

/-- One layer broken over several lines, where `part` lays out what is inside. -/
def breakObject (h : Heap) (active : List (Option Addr))
    (line : Value → Except Fault String) (part : Room → Value → Except Fault String)
    (r : Room) (o : Object Value) : Except Fault String := do
  let items (indent kept : Nat) (xs : List Value) : Except Fault String :=
    stacked (indent + 1) kept (fun x k => part ⟨indent + 1, k, r.level⟩ x) xs
  let setItems (name : String) (plain : Bool) (xs : List Value) : Except Fault String := do
    if xs.isEmpty then return name ++ "()"
    else
      let xs ← sortedItems h xs
      if plain then return "\x7b" ++ (← items r.indent (r.kept + 1) xs) ++ "\x7d"
      else
        return name ++ "(\x7b" ++ (← items (r.indent + name.length + 1) (r.kept + 2) xs) ++
          "\x7d)"
  let entries (indent kept : Nat) (es : List (Value × Value)) : Except Fault String := do
    let body ← stacked (indent + 1) (kept + 1) (fun e k => do
      let key ← line e.1
      return key ++ ": " ++ (← part ⟨indent + 1 + key.length + 2, k, r.level⟩ e.2))
      (← sortedEntries h es)
    return "\x7b" ++ body ++ "\x7d"
  match o with
  | .map _ es => entries r.indent r.kept es
  | .list _ xs => return "[" ++ (← items r.indent (r.kept + 1) xs) ++ "]"
  | .tuple _ xs =>
    let closing := if xs.length = 1 then ",)" else ")"
    return "(" ++ (← items r.indent (r.kept + closing.length) xs) ++ closing
  | .set c xs => setItems o.cls.name c.isNone xs
  | .frozenset _ xs => setItems o.cls.name false xs
  | .text _ s => return textLayout r s
  | .bytes _ bs => return bytesLayout r bs
  | .buffer _ bs =>
    return "bytearray(" ++ bytesLayout ⟨r.indent + 10, r.kept + 1, r.level + 1⟩ bs ++ ")"
  | .mapView t =>
    let copy := Value.map ((h.entries? (h.view t)).getD [])
    return "mappingproxy(" ++ (← part ⟨r.indent + 13, r.kept + 1, r.level⟩ copy) ++ ")"
  | .record c as =>
    let indent := r.indent + c.name.length + 1
    let body ← stacked indent r.kept (fun a k => do
      let inside := match a.2.identity h with
        | some mark => active.contains mark
        | none => false
      if inside then return a.1 ++ "=..."
      else return a.1 ++ "=" ++ (← part ⟨indent + a.1.length + 1, k, r.level⟩ a.2)) as
    return c.name ++ "(" ++ body ++ ")"
  | _ => .ok ""

def layoutWithin (h : Heap) : Nat → List (Option Addr) → Room → Value → Except Fault String
  | 0, _, _, _ => .error .tooDeep
  | n + 1, active, r, v => do
    let o := h.view v
    let mark := v.identity h
    if (mark.map active.contains).getD false then return recursionText o
    let line ← lineWithin h (n + 1) active v
    if r.width < line.length && isBreakable o then
      let active := match mark with
        | some a => a :: active
        | none => active
      breakObject h active (lineWithin h (n + 1) active) (layoutWithin h n active)
        { r with level := r.level + 1 } o
    else return line

end Layout

/-- A value laid out from the first column. -/
def Heap.layout (h : Heap) (v : Value) : Except Fault String :=
  Layout.layoutWithin h (h.size * h.layerBound v + 2) [] ⟨0, 0, 0⟩ v

end DocDelta
