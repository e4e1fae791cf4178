import DocDelta.Json.Patch
import DocDelta.Json.Writer
import DocDelta.Settings.Layer

/-! Settings of the commands, read from layers of files.

A settings file is a map of sections. A command inherits from a line of sections, from the
most general to its own; each section has built-in options, over which the section of that
name in the files is laid before the next section is. Files are laid over each other in
rising priority first. -/
namespace DocDelta.Settings

/-! ### Sections -/

/-- A section with its built-in options. -/
structure Section where
  name : String
  options : List (String × Value)

def Section.common : Section := ⟨"DiffitConfigurable", []⟩
def Section.logging : Section := ⟨"Global", [("log_level", .text "INFO")]⟩
def Section.printing : Section := ⟨"_Printing", [("use_color", .bool true)]⟩

def Section.comparing : Section :=
  ⟨"Diff", [("array_strategy", .text "replace"), ("detect_pointer_sharing", .bool false),
    ("ignore", .list []), ("zero_values", .text "set")]⟩

def Section.showing : Section := ⟨"Show", []⟩

/-- The commands that read settings. -/
inductive EntryPoint
  | comparing
  | showing
  deriving DecidableEq, Repr, Inhabited

namespace EntryPoint

def all : List EntryPoint := [.comparing, .showing]

/-- The name a command is called by. -/
def name : EntryPoint → String
  | .comparing => "diffit-diff"
  | .showing => "diffit-show"

/-- The name of a command's own section. -/
def title : EntryPoint → String
  | .comparing => "DiffitDiff"
  | .showing => "DiffitShow"

def ofName? (s : String) : Option EntryPoint := all.find? fun e => e.name == s

/-- The sections a command inherits from, the most general first. -/
def sections (e : EntryPoint) : List Section :=
  [.common, .logging, .printing,
    match e with
    | .comparing => .comparing
    | .showing => .showing,
    ⟨e.title, []⟩]

end EntryPoint

/-! ### Files -/

/-- The name of every settings file. -/
def fileName : String := "diffit_config.json"

/-- Whether a key could name a section: it is a text, or counts as nothing. -/
def isSectionKey (h : Heap) (key : Value) : Bool :=
  (h.view key).text?.isSome || !h.truthy key

/-- The map that a document of a settings file stands for. A format version is taken out and
has to be 1; a list of pairs is a map as well. -/
def sectionsOf (h : Heap) (v : Value) : Except Fault (List (Value × Value)) := do
  match h.view v with
  | .map _ es =>
    match h.entry? "version" es with
    | none => return es
    | some version =>
      if ← h.same version (.int 1) then return es.filter fun e => !h.isText "version" e.1
      else throw .badArgument
  | .list _ xs =>
    if xs.any (h.isText "version") then throw (.misuse .notCallable)
    let es ← h.toEntries v
    if es.all fun e => isSectionKey h e.1 then return es else throw (.misuse .notIndexable)
  | .text _ s =>
    if s.isEmpty then return []
    else if (s.splitOn "version").length > 1 then throw .noSuchAttribute
    else throw .badArgument
  | _ => throw (.misuse .notIterable)

/-- The sections of a settings file. -/
def read (h : Heap) (text : String) : Except Fault Value := do
  return .map (← sectionsOf h (← Json.readDocument .whole text))

/-- The sections of several files, laid over each other in rising priority. -/
def readAll (h : Heap) (keepsNil : Bool) (texts : List (Except Fault String)) :
    Except Fault Value :=
  texts.foldlM (fun sections text => do lay h keepsNil sections (← read h (← text))) (.map [])

/-- Whether a failure says that settings cannot be read, and not that they do not fit. -/
def isUnreadable : Fault → Bool
  | .badJson _ | .badArgument | .notUnicode | .unknownEntryPoint _ => true
  | _ => false

/-! ### Options -/

/-- Lays a section over the options gathered so far: its built-in options, then those in
the files. -/
def laySection (h : Heap) (keepsNil : Bool) (files : Value) (options : Value) (s : Section) :
    Except Fault Value := do
  let options ← lay h keepsNil options (.table s.options)
  match ((h.mapEntries? files).bind (h.entry? s.name)) with
  | none => return options
  | some given => lay h keepsNil options given

/-- The options of a command. -/
def options (h : Heap) (keepsNil : Bool) (e : EntryPoint) (texts : List (Except Fault String)) :
    Except Fault Value := do
  let files ← readAll h keepsNil texts
  e.sections.foldlM (laySection h keepsNil files) (.map [])

/-- The options of the command of a name. -/
def optionsOf (h : Heap) (keepsNil : Bool) (name : String) (texts : List (Except Fault String)) :
    Except Fault Value :=
  match EntryPoint.ofName? name with
  | none => .error (.unknownEntryPoint name)
  | some e => options h keepsNil e texts

/-! ### Listings -/

def listingWithin (h : Heap) : Nat → Value → Except Fault Value
  | 0, _ => .error .tooDeep
  | n + 1, v =>
    match h.entries? (h.view v) with
    | none => .error .noSuchAttribute
    | some es => return .map (← es.mapM fun (k, x) => do
      if (h.mapEntries? x).isSome then
        let inner ← listingWithin h n x
        return (k, if h.truthy inner then inner else .text "\x7b\x7d")
      else
        let refuse : Json.Fallback := fun w => .error (.notSerializable (h.classOf w))
        return (k, .text (← Json.write h .plain refuse x)))

/-- Options with every value in the JSON notation, for reading. -/
def listing (h : Heap) (v : Value) : Except Fault Value := listingWithin h (h.layerBound v) v

end DocDelta.Settings
