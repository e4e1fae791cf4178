import DocDelta.Document
import DocDelta.Fault

/-! Reading values in the JSON notation.

A `Cursor` is the rest of a text and its place. Every reader either takes what it reads off
the cursor or fails at a place; the first place that cannot go on is the one reported. A name
that occurs twice in a map keeps its first position and its last value. Beside the numbers
of the notation, `NaN`, `Infinity` and `-Infinity` are read, and all that read `NaN` read the
same object. -/
namespace DocDelta.Json
open Number

/-- What is left of a text, and how many characters are behind. -/
structure Cursor where
  place : Nat
  rest : List Char

/-- How a number without fraction and exponent is read. -/
inductive Integers
  | whole
  | double
  deriving DecidableEq, Repr

/-- A flaw and the place it was met at. -/
structure Stop where
  flaw : JsonFlaw
  place : Nat

abbrev Scan (α : Type) := Cursor → Except Stop (α × Cursor)

namespace Cursor

def step (c : Cursor) : Cursor := ⟨c.place + 1, c.rest.tail⟩

def skip (c : Cursor) (n : Nat) : Cursor := ⟨c.place + n, c.rest.drop n⟩

/-- Skips what stands blank between tokens. -/
def blank (c : Cursor) : Cursor :=
  c.skip (c.rest.takeWhile fun x => x = ' ' || x = '\t' || x = '\n' || x = '\r').length

/-- Whether the rest starts with a text. -/
def startsWith (c : Cursor) (s : String) : Bool := s.toList.isPrefixOf c.rest

end Cursor

/-! ### Texts -/

def hexValue? (c : Char) : Option Nat :=
  if c.isDigit then some (c.toNat - 48)
  else if 'a' ≤ c ∧ c ≤ 'f' then some (c.toNat - 87)
  else if 'A' ≤ c ∧ c ≤ 'F' then some (c.toNat - 55)
  else none

/-- Four hexadecimal digits at the start of a list. -/
def hexCode? (cs : List Char) : Option Nat :=
  if cs.length < 4 then none
  else (cs.take 4).foldl (fun n c => do return 16 * (← n) + (← hexValue? c)) (some 0)

/-- The character of a one-letter escape. -/
def escapeOf? : Char → Option Char
  | '"' => some '"'
  | '\\' => some '\\'
  | '/' => some '/'
  | 'b' => some '\x08'
  | 'f' => some '\x0c'
  | 'n' => some '\n'
  | 'r' => some '\r'
  | 't' => some '\t'
  | _ => none

/-- The character of a code escape whose digits start the cursor, and how many characters it
takes: a high surrogate is joined with a low one that is escaped behind it. A fifth character
has to follow, as the text is not closed yet. -/
def readCodeEscape (c : Cursor) : Except Stop (Char × Nat) :=
  if c.rest.length < 5 then .error ⟨.badCodeEscape, c.place - 1⟩
  else match hexCode? c.rest with
    | none => .error ⟨.badCodeEscape, c.place - 1⟩
    | some n =>
      let isHigh := 0xd800 ≤ n ∧ n < 0xdc00
      if isHigh ∧ 10 < c.rest.length ∧ (c.skip 4).startsWith "\\u" then
        match hexCode? (c.skip 6).rest with
        | none => .error ⟨.badCodeEscape, c.place + 5⟩
        | some m =>
          if 0xdc00 ≤ m ∧ m < 0xe000 then
            .ok (Char.ofNat (0x10000 + (n - 0xd800) * 0x400 + (m - 0xdc00)), 10)
          else .ok (Char.ofNat n, 4)
      else .ok (Char.ofNat n, 4)

/-- The characters of a text up to its closing quote; `start` is where it was opened. -/
def textWithin (start : Nat) : Nat → List Char → Scan (List Char)
  | 0, _, _ => .error ⟨.unterminatedText, start⟩
  | n + 1, read, c =>
    match c.rest with
    | [] => .error ⟨.unterminatedText, start⟩
    | '"' :: _ => .ok (read.reverse, c.step)
    | '\\' :: [] => .error ⟨.unterminatedText, start⟩
    | '\\' :: 'u' :: _ => do
      let (x, length) ← readCodeEscape (c.skip 2)
      textWithin start n (x :: read) (c.skip (2 + length))
    | '\\' :: e :: _ =>
      match escapeOf? e with
      | some x => textWithin start n (x :: read) (c.skip 2)
      | none => .error ⟨.badEscape, c.place⟩
    | x :: _ =>
      if x.toNat < 0x20 then .error ⟨.controlCharacter, c.place⟩
      else textWithin start n (x :: read) c.step

/-- A text whose opening quote has been read. -/
def text : Scan String := fun c => do
  let (cs, c) ← textWithin (c.place - 1) (c.rest.length + 1) [] c
  return (String.ofList cs, c)

/-! ### Numbers -/

/-- The digits of a number behind its sign: whole part, fraction and exponent. A point or an
exponent mark without digits behind it does not belong to the number. -/
def numberParts (cs : List Char) : Option (List Char × Option (List Char) × Option (List Char)) :=
  let whole := match cs with
    | '0' :: _ => ['0']
    | _ => cs.takeWhile Char.isDigit
  if whole.isEmpty then none
  else
    let rest := cs.drop whole.length
    let fraction := match rest with
      | '.' :: r =>
        let ds := r.takeWhile Char.isDigit
        if ds.isEmpty then none else some ds
      | _ => none
    let rest := rest.drop ((fraction.map fun ds => ds.length + 1).getD 0)
    let exponent := match rest with
      | e :: r =>
        if e = 'e' || e = 'E' then
          let sign := match r with
            | '-' :: _ => ['-']
            | '+' :: _ => ['+']
            | _ => []
          let ds := (r.drop sign.length).takeWhile Char.isDigit
          if ds.isEmpty then none else some (sign ++ ds)
        else none
      | [] => none
    some (whole, fraction, exponent)

/-- A number. -/
def number (integers : Integers) : Scan Value := fun c =>
  let (negative, cs) := match c.rest with
    | '-' :: cs => (true, cs)
    | cs => (false, cs)
  match numberParts cs with
  | none => .error ⟨.expectedValue, c.place⟩
  | some (whole, fraction, exponent) =>
    let length := negative.toNat + whole.length +
      (fraction.map fun ds => ds.length + 1).getD 0 + (exponent.map fun ds => ds.length + 1).getD 0
    let isWhole := fraction.isNone && exponent.isNone
    let v : Value :=
      if isWhole && integers = .whole then
        .int (if negative then -(ofDigits whole : Int) else ofDigits whole)
      else
        let ds := fraction.getD []
        let power := ((exponent.bind ofSignedText?).getD 0) - ds.length
        .float (.ofDecimal negative (ofDigits (whole ++ ds)) power)
    .ok (v, c.skip length)

/-! ### Values -/

/-- The words of the notation and what they denote. -/
def words : List (String × Value) :=
  [("null", .nil), ("true", .bool true), ("false", .bool false), ("NaN", .ref 0),
    ("Infinity", .float (.infinite false)), ("-Infinity", .float (.infinite true))]

mutual

/-- A value at the cursor. -/
def valueWithin (integers : Integers) : Nat → Scan Value
  | 0, c => .error ⟨.expectedValue, c.place⟩
  | n + 1, c =>
    match c.rest with
    | '"' :: _ => do
      let (s, c) ← text c.step
      return (.text s, c)
    | '{' :: _ =>
      let c := c.step.blank
      if c.startsWith "\x7d" then .ok (.map [], c.step)
      else do
        let (es, c) ← membersWithin integers n [] c
        return (.table es, c)
    | '[' :: _ =>
      let c := c.step.blank
      if c.startsWith "]" then .ok (.list [], c.step)
      else do
        let (xs, c) ← itemsWithin integers n c
        return (.list xs, c)
    | _ =>
      match words.find? fun w => c.startsWith w.1 with
      | some (w, v) => .ok (v, c.skip w.length)
      | none => number integers c

/-- The members of a map up to its closing brace, behind those that were read. -/
def membersWithin (integers : Integers) :
    Nat → List (String × Value) → Scan (List (String × Value))
  | 0, _, c => .error ⟨.expectedName, c.place⟩
  | n + 1, es, c =>
    if !c.startsWith "\"" then .error ⟨.expectedName, c.place⟩
    else do
      let (name, c) ← text c.step
      let c := c.blank
      if !c.startsWith ":" then .error ⟨.expectedColon, c.place⟩
      else do
        let (v, c) ← valueWithin integers n c.step.blank
        let c := c.blank
        let es := putNamed name v es
        if c.startsWith "\x7d" then .ok (es, c.step)
        else if c.startsWith "," then membersWithin integers n es c.step.blank
        else .error ⟨.expectedComma, c.place⟩

/-- The items of a list up to its closing bracket. -/
def itemsWithin (integers : Integers) : Nat → Scan (List Value)
  | 0, c => .error ⟨.expectedValue, c.place⟩
  | n + 1, c => do
    let (v, c) ← valueWithin integers n c
    let c := c.blank
    if c.startsWith "]" then .ok ([v], c.step)
    else if c.startsWith "," then do
      let (vs, c) ← itemsWithin integers n c.step.blank
      .ok (v :: vs, c)
    else .error ⟨.expectedComma, c.place⟩

end

/-- A flaw with its line and column in the text. -/
def Stop.inText (s : Stop) (cs : List Char) : JsonError :=
  let before := cs.take s.place
  let line := before.count '\n' + 1
  let column := (before.reverse.takeWhile (· ≠ '\n')).length + 1
  ⟨s.flaw, line, column, s.place⟩

/-- Reads a whole text. Each step takes a character or opens what the last one announced. -/
def read (integers : Integers) (s : String) : Except JsonError Value :=
  let cs := s.toList
  let answer : Except Stop Value :=
    if cs.head? = some '\ufeff' then .error ⟨.byteOrderMark, 0⟩
    else do
      let (v, c) ← valueWithin integers (2 * cs.length + 2) (Cursor.blank ⟨0, cs⟩)
      let c := c.blank
      if c.rest.isEmpty then .ok v else .error ⟨.extraData, c.place⟩
  answer.mapError (·.inText cs)

end DocDelta.Json
