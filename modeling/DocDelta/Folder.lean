import DocDelta.Calendar
import DocDelta.Fault

/-! The files that a command sees.

A `Folder` knows files and folders by their paths, which are relative to it unless they start
with a slash. Reading and writing change nothing else, so what a command did to its files is
the difference of two folders. The null device is a file that is always there, always empty,
and takes whatever is written. -/
namespace DocDelta
open Calendar Number

/-- What a file holds: what was written as text, or bytes. -/
inductive Content
  | text (s : String)
  | bytes (bs : List UInt8)
  deriving DecidableEq, Repr, Inhabited

/-- Content with the time of its last change, in nanoseconds since the epoch. -/
structure File where
  content : Content
  modified : Int
  deriving DecidableEq, Repr, Inhabited

/-- A path: whether it starts at the root, the names on the way, and whether it can only be
a folder. -/
structure Path where
  absolute : Bool
  names : List String
  folderOnly : Bool
  deriving DecidableEq, Repr, Inhabited

namespace Path

/-- The path of a text; empty names and single dots lead nowhere. -/
def ofText (s : String) : Path :=
  let parts := s.splitOn "/"
  let last := parts.getLastD ""
  ⟨s.startsWith "/", parts.filter fun p => p ≠ "" && p ≠ ".", last = "" || last = "."⟩

/-- The folder a path leads through last. -/
def parent (p : Path) : Path := ⟨p.absolute, p.names.dropLast, true⟩

/-- The null device, which stands for a document that is missing on purpose. -/
def nullDevice : String := "/dev/null"

def isNull (p : Path) : Bool := p == ofText nullDevice

/-- Whether two paths lead to the same place. -/
def sameAs (p q : Path) : Bool := p.absolute == q.absolute && p.names == q.names

end Path

/-- Files and folders by path. -/
structure Folder where
  files : List (Path × File)
  folders : List Path
  deriving Repr, Inhabited

namespace Content

/-- Every line break as a line feed. -/
def plainBreaks : List Char → List Char
  | [] => []
  | '\r' :: '\n' :: cs => '\n' :: plainBreaks cs
  | '\r' :: cs => '\n' :: plainBreaks cs
  | c :: cs => c :: plainBreaks cs

/-- The content as text, with plain line breaks. -/
def readText : Content → Except Fault String
  | .text s => .ok (String.ofList (plainBreaks s.toList))
  | .bytes bs => match String.fromUTF8? bs.toByteArray with
    | some s => .ok (String.ofList (plainBreaks s.toList))
    | none => .error .notUnicode

end Content

namespace Folder

def empty : Folder := ⟨[], []⟩

def file? (d : Folder) (p : Path) : Option File :=
  (d.files.find? fun e => e.1.sameAs p).map (·.2)

def isFolder (d : Folder) (p : Path) : Bool :=
  p.names.isEmpty || d.folders.any p.sameAs

/-- Whether there is a file or folder at a path. -/
def holds (d : Folder) (s : String) : Bool :=
  let p := Path.ofText s
  s ≠ "" && (p.isNull || d.isFolder p || ((d.file? p).isSome && !p.folderOnly))

/-- The text of a file. -/
def readText (d : Folder) (s : String) : Except Fault String :=
  let p := Path.ofText s
  if s = "" then .error .missingFile
  else if p.isNull then .ok ""
  else if d.isFolder p then .error .isDirectory
  else match d.file? p with
    | none => .error .missingFile
    | some f => if p.folderOnly then .error .notADirectory else f.content.readText

/-- Puts a file in the place of what was there; a new file comes last. -/
def put (d : Folder) (p : Path) (f : File) : Folder :=
  if (d.file? p).isSome then
    { d with files := d.files.map fun e => if e.1.sameAs p then (e.1, f) else e }
  else { d with files := d.files ++ [(p, f)] }

/-- Why a path cannot be written to. -/
def refusal (d : Folder) (s : String) : Option Fault :=
  let p := Path.ofText s
  if s = "" then some .missingFile
  else if s.toList.contains (Char.ofNat 0) then some .badArgument
  else if p.isNull then none
  else if d.isFolder p then some .isDirectory
  else if (d.file? p.parent).isSome then some .notADirectory
  else if !d.isFolder p.parent then some .missingFile
  else if !p.folderOnly then none
  else if (d.file? p).isSome then some .notADirectory
  else some .isDirectory

/-- Writes a file at a moment. -/
def write (d : Folder) (s : String) (content : Content) (now : Int) : Except Fault Folder :=
  let p := Path.ofText s
  match d.refusal s with
  | some f => .error f
  | none => .ok (if p.isNull then d else d.put p ⟨content, now⟩)

/-- The files that another folder lacks or has with other content. -/
def changedSince (d before : Folder) : List (Path × File) :=
  d.files.filter fun e => (before.file? e.1).map (·.content) != some e.2.content

end Folder

/-! ### Times of files -/

/-- The UTC instant of a number of nanoseconds since the epoch, as a file's time is shown:
the time in seconds is a double, of which the fraction is rounded to microseconds. -/
def fileTime? (nanoseconds : Int) : Option DateTime :=
  let seconds := nanoseconds / 1000000000
  let unit := Binary64.ofRatio false 1 1000000000
  let part := unit.times (Binary64.ofInt (nanoseconds % 1000000000))
  match (Binary64.ofInt seconds).plus part with
  | .finite negative units =>
    let whole := units >>> Binary64.scale
    let rest := Binary64.finite negative (units % (1 <<< Binary64.scale))
    let micros := match rest.times (Binary64.ofInt 1000000) with
      | .finite _ m => roundDiv m (1 <<< Binary64.scale)
      | _ => 0
    let total : Int := whole * 1000000 + micros
    DateTime.ofEpoch? (if negative then -total else total) none
  | _ => none

end DocDelta
