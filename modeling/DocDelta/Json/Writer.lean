import DocDelta.Document
import DocDelta.Value.Literal

/-! Writing values in the JSON notation.

Maps, lists, tuples, texts, numbers and booleans have a form of their own; any other value is
first replaced by what a `Fallback` gives for it. Keys that are numbers, booleans or nothing
are written as texts. `Style` holds what the notation leaves open. -/
namespace DocDelta.Json
open Number

/-- The choices of a writer. With an indent, every item stands on a line of its own. -/
structure Style where
  indent : Option String
  itemSeparator : String
  keySeparator : String
  sortsKeys : Bool
  asciiOnly : Bool
  skipsKeys : Bool
  allowsNaN : Bool

/-- One line, a blank behind commas and colons, and only ASCII characters. -/
def Style.plain : Style := ⟨none, ", ", ": ", false, true, false, true⟩

/-- What stands for a value that has no form of its own. -/
abbrev Fallback := Value → Except Fault Value

/-! ### Texts -/

def codeEscape (n : Nat) : String := "\\u" ++ hexText 4 n

/-- One character of a quoted text. Characters above the first plane take two escapes. -/
def escaped (asciiOnly : Bool) (c : Char) : String :=
  let n := c.toNat
  if c = '"' then "\\\""
  else if c = '\\' then "\\\\"
  else if c = '\n' then "\\n"
  else if c = '\r' then "\\r"
  else if c = '\t' then "\\t"
  else if n = 0x8 then "\\b"
  else if n = 0xc then "\\f"
  else if n < 0x20 || (asciiOnly && 0x7e < n) then
    if n < 0x10000 then codeEscape n
    else codeEscape (0xd800 + (n - 0x10000) / 0x400) ++ codeEscape (0xdc00 + (n - 0x10000) % 0x400)
  else String.singleton c

def quoted (asciiOnly : Bool) (s : String) : String :=
  "\"" ++ String.join (s.toList.map (escaped asciiOnly)) ++ "\""

/-! ### Values -/

/-- A double; a NaN or an infinity only where the style allows them. -/
def numberText (style : Style) (x : Binary64) : Except Fault String :=
  match x with
  | .finite .. => .ok x.text
  | .nan => if style.allowsNaN then .ok "NaN" else .error .notANumber
  | .infinite negative =>
    if style.allowsNaN then .ok (if negative then "-Infinity" else "Infinity")
    else .error .notANumber

/-- The text of a key; nothing for a key that is left out. -/
def keyText (h : Heap) (style : Style) (key : Value) : Except Fault (Option String) :=
  match h.view key with
  | .text _ s => .ok (some s)
  | .float _ x => return some (← numberText style x)
  | .bool b => .ok (some (if b then "true" else "false"))
  | .nil => .ok (some "null")
  | _ => match h.whole? key with
    | some n => .ok (some (integerText n))
    | none => if style.skipsKeys then .ok none else .error (.misuse .notConvertible)

/-- Writes items between brackets. `empty` tells a collection without entries from one whose
entries were all left out. -/
def bracketed (style : Style) (level : Nat) (opening closing : String) (empty : Bool)
    (items : List String) : String :=
  if empty then opening ++ closing
  else match style.indent with
    | none => opening ++ style.itemSeparator.intercalate items ++ closing
    | some unit =>
      let line (k : Nat) : String := "\n" ++ String.join (List.replicate k unit)
      opening ++ line (level + 1) ++
        (style.itemSeparator ++ line (level + 1)).intercalate items ++ line level ++ closing

/-- The entries of a map in the order they are written. -/
def orderedEntries (h : Heap) (style : Style) (es : List (Value × Value)) :
    Except Fault (List (Value × Value)) :=
  if style.sortsKeys then sortBy (fun a b => h.less a.1 b.1) es else .ok es

def writeWithin (h : Heap) (style : Style) (fallback : Fallback) :
    Nat → Nat → Value → Except Fault String
  | 0, _, _ => .error .circular
  | n + 1, level, v =>
    let o := h.view v
    match o with
    | .nil => .ok "null"
    | .bool b => .ok (if b then "true" else "false")
    | .text _ s => .ok (quoted style.asciiOnly s)
    | .float _ x => numberText style x
    | .map _ es => do
      let items ← (← orderedEntries h style es).filterMapM fun (k, x) => do
        match ← keyText h style k with
        | none => return none
        | some s =>
          return some (quoted style.asciiOnly s ++ style.keySeparator ++
            (← writeWithin h style fallback n (level + 1) x))
      return bracketed style level "\x7b" "\x7d" es.isEmpty items
    | _ => match h.whole? v, o.items? with
      | some k, _ => .ok (integerText k)
      | _, some xs => do
        let items ← xs.mapM (writeWithin h style fallback n (level + 1))
        return bracketed style level "[" "]" xs.isEmpty items
      | _, _ => do writeWithin h style fallback n level (← fallback v)

/-- Writes a value. A fallback may put one more layer under each. -/
def write (h : Heap) (style : Style) (fallback : Fallback) (v : Value) : Except Fault String :=
  writeWithin h style fallback (2 * h.layerBound v) 0 v

/-! ### Patches -/

/-- Times are written by their texts, durations in seconds, decimals by their digits, sets in
order, and byte strings character by character. -/
def scalarFallback (h : Heap) : Fallback := fun v =>
  match h.view v with
  | .date d => .ok (.text d.text)
  | .time t => .ok (.text t.text)
  | .datetime x => .ok (.text (x.textWith "T"))
  | .duration d =>
    let n := d.micros
    .ok (.float (.ofRatio (n < 0) n.natAbs 1000000))
  | .decimal d => .ok (.text d.text)
  | .set _ xs | .frozenset _ xs => return .list (← h.sort xs)
  | .bytes _ bs => .ok (.text (String.ofList (bs.map fun b => Char.ofNat b.toNat)))
  | o => .error (.notSerializable o.cls)

/-- The map that is written for a patch: its operations and filters as documents. -/
def patchMap (h : Heap) (p : Patch) : Except Fault Value := do
  let operations ← p.document h
  let filters ← h.document (.list p.filters)
  return .table ([("operations", operations)] ++
    (if p.hasFilters then [("arrayFilters", filters)] else []) ++
    [("metadata", p.metadata.toMap)])

/-- Writes a patch. -/
def writePatch (h : Heap) (style : Style) (p : Patch) : Except Fault String := do
  write h style (scalarFallback h) (← patchMap h p)

end DocDelta.Json
