import DocDelta.Document
import DocDelta.Value.Layout

/-! Reports: patches written for readers.

Every line of a value stands behind a lead, so a line that belongs to a value can be told
from one that does not. Maps are written entry by entry in the order of their keys, lists in
one line where they fit and item by item where they do not, texts line by line. A report
keeps what was written before a failure. -/
namespace DocDelta.Report
open Number Text

/-- Text written so far, with failures. -/
abbrev Page := ExceptT Fault (StateM String)

def write (s : String) : Page Unit := modify (· ++ s)

/-- Goes on with the answer of a test. -/
def ask {α : Type} (answer : Except Fault α) : Page α := ExceptT.mk (pure answer)

/-- The leads of kept, removed and added lines and of headings, and what ends a colour. -/
structure Palette where
  keep : String
  remove : String
  add : String
  info : String
  reset : String

def Palette.plain : Palette := ⟨"   ", "-  ", "+  ", "## ", ""⟩

/-- The same leads in colours. -/
def Palette.coloured : Palette :=
  ⟨"   ", "\x1b[31m-  ", "\x1b[32m+  ", "\x1b[34m\x1b[1m## ", "\x1b[0m"⟩

/-- The palette for a colour setting: a setting that equals neither yes nor no has none. -/
def Palette.choose (h : Heap) (v : Value) : Except Fault Palette := do
  h.requireKey v
  if ← h.same v (.bool true) then return .coloured
  else if ← h.same v (.bool false) then return .plain
  else throw .noSuchKey

/-- What is put before the lead of parts. -/
def step : String := "  "

/-- Lists shorter than this, with their lead, stand on one line. -/
def lineWidth : Nat := 78

section Values
variable (h : Heap)

/-- A simple value: a text as it is, anything else laid out. -/
def formatted (v : Value) : Except Fault String :=
  match (h.view v).text? with
  | some s => .ok s
  | none => h.layout v

/-- A text line by line behind a lead, with a line feed at the end. -/
def writeLines (s lead : String) : Page Unit := do
  for line in linesKeeping s.toList do
    write (lead ++ String.ofList line)
  if !s.endsWith "\n" then write "\n"

/-- A value that has to be a text, line by line. -/
def writeMultiline (v : Value) (lead : String) : Page Unit :=
  match (h.view v).text? with
  | some s => writeLines s lead
  | none => throw .notText

def writeKey (key : Value) (lead : String) : Page Unit :=
  write (lead ++ h.display key ++ ":\n")

def writeKeyValue (key value : Value) (lead : String) : Page Unit :=
  write (lead ++ h.display key ++ ": " ++ h.display value ++ "\n")

/-- A list on one line, where it fits: behind its lead, and without line feeds inside. -/
def inlineList? (xs : Value) (lead : String) : Except Fault (Option String) := do
  let s ← h.layout xs
  let hasBreak := (s.splitOn "\\n").length > 1
  return if s.length + lead.length < lineWidth && !hasBreak then some s else none

mutual

/-- A named value: a container below its name, a short value behind it. -/
def writeItemWithin : Nat → Value → Value → String → Page Unit
  | 0, _, _, _ => throw .tooDeep
  | n + 1, key, v, lead =>
    match h.view v with
    | .map .. => do
      writeKey h key lead
      writeMapWithin n v [] (lead ++ step)
    | .list .. => do
      writeKey h key lead
      writeListWithin n v (lead ++ step)
    | _ => do
      let s ← ask (formatted h v)
      if s.toList.contains '\n' then do
        writeKey h key lead
        for line in lines s.toList do
          write (lead ++ step ++ String.ofList line ++ "\n")
      else writeKeyValue h key (.text s) lead

/-- A list, in one line or item by item. -/
def writeListWithin : Nat → Value → String → Page Unit
  | 0, _, _ => throw .tooDeep
  | n + 1, v, lead => do
    match ← ask (inlineList? h v lead) with
    | some s => write (lead ++ s ++ "\n")
    | none =>
      let xs ← ask (h.iterate v)
      for (x, i) in xs.zipIdx do
        writeItemWithin n (.text ("item[" ++ decimalText i ++ "]")) x lead

/-- A map entry by entry, but for the excluded keys. -/
def writeMapWithin : Nat → Value → List Value → String → Page Unit
  | 0, _, _, _ => throw .tooDeep
  | n + 1, v, excluded, lead => do
    let keys ← ask (h.iterate v)
    keys.forM fun k => ask (h.requireKey k)
    excluded.forM fun k => ask (h.requireKey k)
    let kept ← ask (keys.filterM fun k => return !(← hasPart h h.same k excluded))
    let es := h.entries? (h.view v)
    for k in ← ask (h.sort kept) do
      match es with
      | none => throw (.misuse .notIndexable)
      | some es => writeItemWithin n k ((← ask (h.find? k es)).getD .nil) lead

end

def bound (v : Value) : Nat := 2 * h.layerBound v + 2

def writeItem (key v : Value) (lead : String) : Page Unit :=
  writeItemWithin h (bound h v) key v lead

def writeList (v : Value) (lead : String) : Page Unit := writeListWithin h (bound h v) v lead

def writeMap (v : Value) (excluded : List Value) (lead : String) : Page Unit :=
  writeMapWithin h (bound h v) v excluded lead

/-- Any value with all its lines behind a lead. -/
def writeValue (v : Value) (lead : String) : Page Unit :=
  match h.view v with
  | .map .. => writeMap h v [] lead
  | .list _ (_ :: _) => writeList h v lead
  | _ => do
    let s ← ask (formatted h v)
    writeLines s lead

end Values

/-! ### Operations -/

section Operations
variable (h : Heap) (palette : Except Fault Palette)

/-- The heading of an operation. -/
def writeAction (message : Value) (path : Value) : Page Unit := do
  let p ← ask palette
  write (p.info ++ h.display message ++ " " ++ h.display path ++ ":" ++ p.reset ++ "\n")

/-- The items that a pushed value lists: one behind `$each`, otherwise the value alone. -/
def pushedItems (v : Value) : Value :=
  match (h.mapEntries? v).bind (h.entry? Operator.each) with
  | some items => items
  | none => .list [v]

/-- The end of an entry. -/
def writeEnd : Page Unit := do
  let p ← ask palette
  write ("\n" ++ p.reset)

/-- An operation on a path with its value. -/
def writeOperation (operator : String) (path v : Value) : Page Unit := do
  match Operator.ofText? operator with
  | some .set =>
    writeAction h palette (.text "set") path
    writeValue h (← ask (h.document v)) (← ask palette).add
  | some .unset => writeAction h palette (.text "unset") path
  | some .push =>
    let items := pushedItems h v
    let xs ← ask (h.iterate items)
    let count := decimalText xs.length ++ (if xs.length = 1 then " item to" else " items to")
    writeAction h palette (.text ("pushed " ++ count)) path
    for x in xs do
      writeValue h (← ask (h.document x)) (← ask palette).add
  | none => throw (.badPatch (.unprintableOperator operator))
  writeEnd palette

/-- The names of the two documents and when they were last changed. -/
structure Header where
  old : String
  new : String
  oldTime : String
  newTime : String

/-- What stands for the time of a file that is not there. -/
def noTime : String := "(no timestamp)"

def writeHeader (header : Header) : Page Unit :=
  write ("patch " ++ header.old ++ " " ++ header.new ++ "\n--- " ++ header.old ++ "  " ++
    header.oldTime ++ "\n+++ " ++ header.new ++ "  " ++ header.newTime ++ "\n")

/-- The paths in the order they were first changed, then those the metadata does not know. -/
def orderedPaths (p : Patch) : List Mark :=
  p.metadata.fieldsChanged ++ p.groups.flatMap fun g =>
    (g.fields.filter fun f => !p.metadata.hasType f.1.text).map fun f => .label f.1

/-- The operations on a path that were not printed yet. -/
def entriesAt (p : Patch) (printed : List (Operator × String)) :
    Mark → List (Operator × Label × Value)
  | .other _ => []
  | .label l => p.groups.filterMap fun g =>
    if printed.contains (g.operator, l.text) then none
    else (g.find? l.text).map fun v => (g.operator, l, v)

/-- Goes through the ordered paths and writes each operation once. -/
def writeEntries (p : Patch) : List (Operator × String) → List Mark → Page Unit
  | _, [] => pure ()
  | printed, mark :: rest => do
    ask (h.requireKey mark.value)
    let here := entriesAt p printed mark
    here.forM fun (operator, l, v) => writeOperation h palette operator.text l.value v
    writeEntries p (printed ++ here.map fun (operator, l, _) => (operator, l.text)) rest

/-- A filter with the names it binds. -/
def writeFilter (filter : Value) : Page Unit := do
  let keys ← ask (h.sort (← ask (h.iterate filter)))
  let names ← ask (keys.mapM fun k => match (h.view k).text? with
    | some s => .ok s
    | none => .error (.misuse .notConvertible))
  writeAction h palette (.text "array filter") (.text (", ".intercalate names))
  writeMap h (← ask (h.document filter)) [] (← ask palette).keep
  writeEnd palette

/-- A whole patch; an empty one leaves the page as it is. -/
def writePatch (p : Patch) (header : Option Header) : Page Unit := do
  if p.isEmpty then return ()
  if let some header := header then writeHeader header
  writeEntries h palette p [] (orderedPaths p)
  p.filters.forM (writeFilter h palette)

end Operations

/-- The text of a page, unless it failed. -/
def text (page : Page Unit) : Except Fault String :=
  match page.run "" with
  | (.ok (), s) => .ok s
  | (.error f, _) => .error f

end DocDelta.Report
