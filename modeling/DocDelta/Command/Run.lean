import DocDelta.Bson.Writer
import DocDelta.Command.Arguments
import DocDelta.Diff.Walk
import DocDelta.Fault.Message
import DocDelta.Folder
import DocDelta.Json.Patch
import DocDelta.Value.Intern

/-! The commands.

A command is a function on a `Console`: the folder it works in, what it has printed, and its
log. It changes nothing else, and how it ends is a value, so that everything a run did can be
read off the console afterwards. What was printed or written before a failure stays. -/
namespace DocDelta.Command
open Calendar

/-- How a run ends: with a status, with a status in the middle of reading its words, with a
message, or with a failure that nothing handles. -/
inductive Exit
  | status (n : Nat)
  | quit (n : Nat)
  | message (s : String)
  | fault (f : Fault)

structure Console where
  folder : Folder
  /-- Settings files outside the folder, in rising priority. -/
  outer : List (Except Fault String)
  now : Int
  level : Level
  out : String
  err : String
  log : List Message

/-- A console before a run. -/
def Console.start (folder : Folder) (outer : List (Except Fault String)) (now : Int) : Console :=
  ⟨folder, outer, now, .info, "", "", []⟩

/-- A computation that may end the run and keeps what it did. -/
abbrev Run := ExceptT Exit (StateM Console)

/-- Goes on with an answer; a failure ends the run. -/
def demand {α : Type} (answer : Except Fault α) : Run α :=
  ExceptT.mk (pure (answer.mapError .fault))

def print (s : String) : Run Unit := modify fun c => { c with out := c.out ++ s }

def printError (s : String) : Run Unit := modify fun c => { c with err := c.err ++ s }

/-- Logs a message, if its level is high enough. -/
def note (m : Message) : Run Unit :=
  modify fun c => if c.level.rank ≤ m.level.rank then { c with log := c.log ++ [m] } else c

/-- Prints a page as far as it comes. -/
def printPage (page : Report.Page Unit) : Run Unit := do
  let (answer, s) := page.run ""
  print s
  demand answer

/-- Writes a file. -/
def writeFile (name : String) (content : Content) : Run Unit := do
  let c ← get
  let folder ← demand (c.folder.write name content c.now)
  set { c with folder }

/-- Writes a file whose content may fail to be made; the file is opened first. -/
def createFile (name : String) (content : Except Fault Content) : Run Unit := do
  writeFile name (.text "")
  writeFile name (← demand content)

/-- The settings files a run reads, in rising priority. -/
def settingsFiles (c : Console) : List (Except Fault String) :=
  c.outer ++ (c.folder.file? (.ofText Settings.fileName)).toList.map fun f => f.content.readText

/-- The arguments of a command; from here on its log level holds. -/
def arguments (e : Settings.EntryPoint) (words : List String) : Run Arguments := do
  let setting : Setting := ⟨e.name, settingsFiles (← get)⟩
  match readLine .empty (.ofEntryPoint e) setting words with
  | .ok a =>
    modify fun c => { c with level := a.level }
    return a
  | .error (.exit n out err) =>
    print out
    printError err
    throw (.quit n)
  | .error (.usage flaw) =>
    printError (e.name ++ ": error: " ++ flaw.text ++ "\n")
    throw (.quit 2)
  | .error (.fault f) => throw (.fault f)

/-- The name of a file in the arguments. -/
def fileName (h : Heap) (v : Value) : Run String :=
  match (h.view v).text? with
  | some s => return s
  | none => throw (.fault (.misuse .notConvertible))

/-- Ends the run unless there is a file. -/
def requireFile (name : String) : Run Unit := do
  if !(← get).folder.holds name then
    print ("Missing file " ++ name ++ "\n")
    throw (.status 1)

/-! ### Comparing two files -/

/-- The document in a file, where whole numbers are read as doubles. -/
def readDocument (name : String) : Run Value := do
  if name = Path.nullDevice then demand (Json.absentDocument .empty (.text "none"))
  else
    let text ← demand ((← get).folder.readText name)
    demand (Json.readDocument .double text)

/-- When a file was last changed. -/
def timeText (d : Folder) (name : String) : Except Fault String :=
  match d.file? (.ofText name) with
  | none => .ok Report.noTime
  | some f => match fileTime? f.modified with
    | some x => .ok (x.textWith " ")
    | none => .error .badArgument

/-- Compares two documents in one heap. -/
def compareDocuments (a : Arguments) (old new : Value) : Run (Heap × Patch × List Message) := do
  let ((x, y), h) := (do return (← Heap.intern old, ← Heap.intern new) : StateM Heap _).run .empty
  let options ← demand (a.options h)
  match Diff.diff h options (.ref x) (.ref y) with
  | (.ok p, log) => return (h, p, log)
  | (.error f, log) =>
    log.forM note
    let name (which : String) : String := h.display (a.get which)
    match f.isForeseen, f.message? h with
    | true, some text =>
      note ⟨.error, "Could not diff " ++ name "old" ++ " and " ++ name "new" ++ ": " ++ text⟩
      throw (.status 2)
    | _, _ => throw (.fault f)

/-- How a patch is written to a file. -/
def fileStyle : Json.Style := { Json.Style.plain with indent := some "  ", itemSeparator := "," }

/-- Compares two files, and writes the patch to the files that are named for it, or prints
it where none is. -/
def runDiff (a : Arguments) : Run Unit := do
  let old ← fileName .empty (a.get "old")
  requireFile old
  let new ← fileName .empty (a.get "new")
  requireFile new
  let (h, p, log) ← compareDocuments a (← readDocument old) (← readDocument new)
  log.forM note
  let wantsOut := h.truthy (a.get "out")
  let wantsBson := h.truthy (a.get "bson")
  if wantsOut then
    createFile (← fileName h (a.get "out")) ((Json.writePatch h fileStyle p).map .text)
  if wantsBson then
    let name ← fileName h (a.get "bson")
    if p.isEmpty then
      note ⟨.info, "Nothing to write to " ++ name ++ ", the documents are equal"⟩
    else createFile name ((Bson.writePatch h p).map .bytes)
  if !wantsOut && !wantsBson && !p.isEmpty then
    let d := (← get).folder
    let header : Report.Header :=
      ⟨old, new, ← demand (timeText d old), ← demand (timeText d new)⟩
    printPage (Report.writePatch h (Report.Palette.choose h (a.get "use_color")) p header)

/-! ### Showing a patch -/

/-- Prints the patch in a file. -/
def runShow (a : Arguments) : Run Unit := do
  let h := Heap.empty
  let name ← fileName h (a.get "patch")
  requireFile name
  let text ← demand ((← get).folder.readText name)
  match Json.readPatch h text with
  | .error f =>
    match f.isForeseen, f.message? h with
    | true, some text =>
      note ⟨.error, "Could not read patch " ++ name ++ ": " ++ text⟩
      throw (.status 2)
    | _, _ => throw (.fault f)
  | .ok p =>
    if p.isEmpty then print ("Patch " ++ name ++ " is empty\n")
    else printPage (Report.writePatch h (Report.Palette.choose h (a.get "use_color")) p none)

/-- Carries out a command. -/
def carryOut (e : Settings.EntryPoint) (words : List String) : Run Unit := do
  let a ← arguments e words
  match e with
  | .comparing => runDiff a
  | .showing => runShow a

/-! ### Choosing a command -/

def helpText : String :=
  "Usage: diffit [OPTIONS]\n\n" ++
  "OPTIONS: -h, --version, --config, COMMANDS\x7bdiff, show\x7d\n\n" ++
  "Examples: diffit --version\n" ++
  "          diffit diff old.json new.json\n" ++
  "          diffit diff -a merge --out patch.json old.json new.json\n" ++
  "          diffit show patch.json"

/-- Prints the effective options of every command. -/
def listAll : Run Unit := do
  printError "All available config options, and their current values:\n\n"
  for e in Settings.EntryPoint.all do
    printError (← demand (listingText .empty e (settingsFiles (← get))))
    printError "\n"
  throw (.quit 1)

/-- Carries out the command that the first word names. -/
def dispatch : List String → Run Unit
  | [] => throw (.message ("Option missing.\n\n" ++ helpText))
  | "diff" :: words => carryOut .comparing words
  | "show" :: words => carryOut .showing words
  | "--version" :: _ => throw (.message Release.current.text)
  | "-h" :: _ | "--help" :: _ => throw (.message helpText)
  | "--config" :: _ => listAll
  | s :: _ => throw (.message ("Unrecognized command '" ++ s ++ "'\n\n" ++ helpText ++ "."))

/-- Runs a command to its end. -/
def runWith (run : Run Unit) (c : Console) : Exit × Console :=
  match run.run c with
  | (.ok (), c) => (.status 0, c)
  | (.error e, c) => (e, c)

end DocDelta.Command
