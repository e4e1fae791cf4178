import DocDelta.Diff.State
import DocDelta.Release
import DocDelta.Report
import DocDelta.Settings
import DocDelta.Text.Space

/-! The words of a command line.

Each word is first told apart by its looks: an operand, the divider behind which everything
is an operand, or an option, by its full name, by the start of one that fits no other, or by
a letter with its value behind it. The words are then taken from left to right; options act
as they are met, and operands fill the places the command has for them. What an option is
when it is not given comes from the settings. -/
namespace DocDelta.Command
open Text

/-! ### Options -/

/-- What giving an option does. -/
inductive Effect
  | help
  | version
  | listing
  | logLevel
  | store (choices : Option (List String))
  | append
  | turn (on : Bool)
  deriving DecidableEq, Repr, Inhabited

/-- An option: the words that give it, the name its value is kept under, and what it is when
neither the words nor the settings give it. -/
structure Switch where
  flags : List String
  name : String
  effect : Effect
  absent : Option Value

def Switch.takesValue (o : Switch) : Bool :=
  match o.effect with
  | .logLevel | .store _ | .append => true
  | _ => false

/-- The log levels as they are given. -/
def levelNames : List (String × Level) :=
  [("DEBUG", .debug), ("INFO", .info), ("WARN", .warning), ("ERROR", .error),
    ("CRITICAL", .critical)]

/-- The values an option can be given; any, where there are no choices. -/
def Switch.choices (o : Switch) : Option (List String) :=
  match o.effect with
  | .logLevel => some (levelNames.map (·.1))
  | .store choices => choices
  | _ => none

/-- What a command accepts. -/
structure Grammar where
  switches : List Switch
  operands : List String

namespace Grammar

def general : List Switch :=
  [⟨["-h", "--help"], "help", .help, none⟩,
    ⟨["--version"], "version", .version, none⟩,
    ⟨["--config"], "config", .listing, some .nil⟩,
    ⟨["--log-level"], "log_level", .logLevel, some (.text "INFO")⟩]

def comparing : List Switch :=
  [⟨["-a", "--array-strategy"], "array_strategy",
      .store (some (Diff.Strategy.all.map (·.name))), some (.text "replace")⟩,
    ⟨["-z", "--zero-values"], "zero_values",
      .store (some (Diff.ZeroPolicy.all.map (·.name))), some (.text "set")⟩,
    ⟨["-i", "--ignore"], "ignore", .append, some (.list [])⟩,
    ⟨["--detect-pointer-sharing"], "detect_pointer_sharing", .turn true, some (.bool false)⟩]

def printing : List Switch := [⟨["--no-color"], "use_color", .turn false, some (.bool true)⟩]

def writing : List Switch :=
  [⟨["--out"], "out", .store none, some .nil⟩, ⟨["--bson"], "bson", .store none, some .nil⟩]

def forDiff : Grammar := ⟨general ++ comparing ++ printing ++ writing, ["old", "new"]⟩

def forShow : Grammar := ⟨general ++ printing, ["patch"]⟩

def ofEntryPoint : Settings.EntryPoint → Grammar
  | .comparing => .forDiff
  | .showing => .forShow

end Grammar

/-! ### Flaws -/

/-- What is wrong with a command line. -/
inductive UsageFlaw
  | ambiguous (word : String)
  | missingValue (flag : String)
  | unwantedValue (flag value : String)
  | badChoice (flag value : String)
  | missingOperands (names : List String)
  | leftOver (words : List String)
  deriving DecidableEq, Repr, Inhabited

def UsageFlaw.text : UsageFlaw → String
  | .ambiguous word => "ambiguous option: " ++ word
  | .missingValue flag => "argument " ++ flag ++ ": expected one argument"
  | .unwantedValue flag value =>
    "argument " ++ flag ++ ": ignored explicit argument " ++ quoted value
  | .badChoice flag value => "argument " ++ flag ++ ": invalid choice: " ++ quoted value
  | .missingOperands names =>
    "the following arguments are required: " ++ ", ".intercalate names
  | .leftOver words => "unrecognized arguments: " ++ " ".intercalate words

/-- Why a command line is not carried out: it asks for something else, with a status and
what is printed, or it is flawed, or something fails. -/
inductive Stop
  | exit (status : Nat) (out err : String)
  | usage (flaw : UsageFlaw)
  | fault (f : Fault)

/-! ### Words -/

/-- A value in the same word as its option. -/
inductive Attached
  | none
  | equals (value : List Char)
  | glued (value : List Char)
  deriving DecidableEq, Repr, Inhabited

/-- A word by its looks. -/
inductive Word
  | operand (s : String)
  | divider
  | switch (o : Switch) (attached : Attached)
  | unknown (s : String)

def findSwitch (switches : List Switch) (flag : String) : Option Switch :=
  switches.find? fun o => o.flags.contains flag

/-- Cuts a word at its first equals sign. -/
def cutAtEquals (cs : List Char) : String × Attached :=
  (String.ofList (cs.takeWhile (· ≠ '=')),
    match cs.dropWhile (· ≠ '=') with
    | [] => .none
    | _ :: value => .equals value)

/-- Whether a word behind its hyphen is a number: digits, or digits around one point. -/
def isNumeral (cs : List Char) : Bool :=
  let cs := if cs.getLast? = some '\n' then cs.dropLast else cs
  match cs.dropWhile isDecimal with
  | [] => !cs.isEmpty
  | '.' :: fraction => !fraction.isEmpty && fraction.all isDecimal
  | _ => false

/-- A word that begins with a hyphen and names no option. -/
def unnamed (s : String) (cs : List Char) : Word :=
  if isNumeral cs || cs.contains ' ' then .operand s else .unknown s

/-- Tells a word that begins with a hyphen. -/
def tellFlag (switches : List Switch) (s : String) (cs : List Char) : Except UsageFlaw Word :=
  let (lead, attached) := cutAtEquals s.toList
  match findSwitch switches s, findSwitch switches lead with
  | some o, _ => .ok (.switch o .none)
  | none, some o => .ok (.switch o attached)
  | none, none =>
    match cs with
    | '-' :: _ =>
      match switches.flatMap fun o => (o.flags.filter (·.startsWith lead)).map fun _ => o with
      | [] => .ok (unnamed s cs)
      | [o] => .ok (.switch o attached)
      | _ => .error (.ambiguous s)
    | c :: value =>
      match findSwitch switches (String.ofList ['-', c]) with
      | some o => .ok (.switch o (.glued value))
      | none => .ok (unnamed s cs)
    | [] => .ok (.operand s)

/-- Tells the words of a line apart. -/
def tellWords (switches : List Switch) : List String → Except UsageFlaw (List Word)
  | [] => .ok []
  | s :: rest =>
    if s = "--" then .ok (.divider :: rest.map .operand)
    else do
      let word ← match s.toList with
        | '-' :: cs => tellFlag switches s cs
        | _ => .ok (.operand s)
      return word :: (← tellWords switches rest)

/-! ### Taking words -/

/-- The value of the next operand and the words behind it. The divider goes with the operand
next to it; behind the operand before it, a second divider stands for no value at all. -/
def takeOperand : (words : List Word) →
    Option (Value × { rest : List Word // rest.length < words.length })
  | .operand s :: .divider :: ws => some (.text s, ⟨ws, by simp only [List.length_cons]; omega⟩)
  | .operand s :: ws => some (if s = "--" then .list [] else .text s, ⟨ws, by simp⟩)
  | .divider :: .operand s :: ws => some (.text s, ⟨ws, by simp only [List.length_cons]; omega⟩)
  | _ => none

/-- What one word gives: options with their values in order, a tail that gives nothing, and
the words that are left. -/
structure Given (ws : List Word) where
  uses : List (Switch × String)
  tail : List String
  rest : { rest : List Word // rest.length ≤ ws.length }

/-- How an option is called in messages. -/
def Switch.label (o : Switch) : String := "/".intercalate o.flags

/-- An option without a value in its word takes the next operand where it needs one. -/
def takeBare (ws : List Word) (o : Switch) : Except UsageFlaw (Given ws) :=
  if !o.takesValue then .ok ⟨[(o, "")], [], ⟨ws, Nat.le_refl _⟩⟩
  else match ws with
    | .operand v :: rest => .ok ⟨[(o, v)], [], ⟨rest, by simp⟩⟩
    | _ => .error (.missingValue o.label)

/-- An option with a value in its word. -/
def takeValued (ws : List Word) (o : Switch) (value : List Char) : Except UsageFlaw (Given ws) :=
  if o.takesValue then .ok ⟨[(o, String.ofList value)], [], ⟨ws, Nat.le_refl _⟩⟩
  else .error (.unwantedValue o.label (String.ofList value))

/-- A letter with characters behind it: its value, or further letters. -/
def takeGlued (switches : List Switch) (ws : List Word) :
    Switch → List Char → Except UsageFlaw (Given ws)
  | o, [] => takeBare ws o
  | o, c :: cs =>
    if o.takesValue || c = '-' then takeValued ws o (c :: cs)
    else match findSwitch switches (String.ofList ['-', c]) with
      | none => .ok ⟨[(o, "")], [String.ofList ('-' :: c :: cs)], ⟨ws, Nat.le_refl _⟩⟩
      | some next => do
        let given ← match cs with
          | '=' :: value => takeValued ws next value
          | cs => takeGlued switches ws next cs
        return { given with uses := (o, "") :: given.uses }

def takeSwitch (switches : List Switch) (ws : List Word) (o : Switch) :
    Attached → Except UsageFlaw (Given ws)
  | .none => takeBare ws o
  | .equals value => takeValued ws o value
  | .glued value => takeGlued switches ws o value

/-! ### Reading a line -/

/-- Sets the value under a name. -/
def setNamed (name : String) (v : Value) : List (String × Value) → List (String × Value)
  | [] => [(name, v)]
  | e :: es => if e.1 = name then (name, v) :: es else e :: setNamed name v es

/-- What a command is called by, and the texts of its settings files in rising priority. -/
structure Setting where
  program : String
  files : List (Except Fault String)

/-- What a line has given so far: values by name, the log level, the operands to come, and
words that fit nothing. -/
structure Reading where
  values : List (String × Value)
  level : Level
  waiting : List String
  extras : List String

/-- The effective options of a command, for reading. -/
def listingText (h : Heap) (e : Settings.EntryPoint) (files : List (Except Fault String)) :
    Except Fault String := do
  let options ← Settings.options h true e files
  let listed ← Settings.listing h options
  Report.text (Report.writeMap h (.table [(e.title, listed)]) [] "")

/-- A line that says how a command is called. -/
def usageText (g : Grammar) (program : String) : String :=
  "usage: " ++ program ++
    String.join (g.switches.map fun o => " [" ++ o.label ++ "]") ++
    String.join (g.operands.map fun name => " " ++ name) ++ "\n"

/-- The items of a value that can be appended to. -/
def appendable (h : Heap) (v : Value) : Except Fault (List Value) :=
  match h.view v with
  | .nil => .ok []
  | .list _ xs => .ok xs
  | _ => .error .noSuchAttribute

/-- Carries out what an option does. -/
def use (h : Heap) (g : Grammar) (c : Setting) (r : Reading) (o : Switch) (value : String) :
    Except Stop Reading := do
  if let some choices := o.choices then
    if !choices.contains value then throw (.usage (.badChoice o.label value))
  let set (v : Value) : Reading := { r with values := setNamed o.name v r.values }
  match o.effect with
  | .help => throw (.exit 0 (usageText g c.program) "")
  | .version => throw (.exit 0 (c.program ++ " " ++ Release.current.text ++ "\n") "")
  | .listing =>
    match Settings.EntryPoint.ofName? c.program with
    | none => throw (.fault .noSuchKey)
    | some e => match listingText h e c.files with
      | .ok s => throw (.exit 1 "" s)
      | .error f => throw (.fault f)
  | .logLevel =>
    return { set (.text value) with level := (levelNames.lookup value).getD r.level }
  | .store _ => return set (.text value)
  | .turn on => return set (.bool on)
  | .append =>
    match appendable h ((r.values.lookup o.name).getD .nil) with
    | .ok xs => return set (.list (xs ++ [.text value]))
    | .error f => throw (.fault f)

/-- Takes the words one after another. -/
def takeWords (h : Heap) (g : Grammar) (c : Setting) (r : Reading) :
    List Word → Except Stop Reading
  | [] => .ok r
  | .unknown s :: ws => takeWords h g c { r with extras := r.extras ++ [s] } ws
  | .switch o attached :: ws =>
    match takeSwitch g.switches ws o attached with
    | .error flaw => .error (.usage flaw)
    | .ok given =>
      match given.uses.foldlM (fun r u => use h g c r u.1 u.2) r with
      | .error stop => .error stop
      | .ok r => takeWords h g c { r with extras := r.extras ++ given.tail } given.rest.1
  | w :: ws =>
    match r.waiting, takeOperand (w :: ws) with
    | name :: waiting, some (v, rest) =>
      takeWords h g c { r with values := setNamed name v r.values, waiting } rest.1
    | _, _ => takeWords h g c { r with extras := r.extras ++ [text w] } ws
termination_by words => words.length
decreasing_by
  · simp
  · have := given.rest.2
    simp
    omega
  · exact rest.2
  · simp
where
  text : Word → String
    | .operand s | .unknown s => s
    | _ => "--"

/-- The values that settings give to options. Settings that cannot be read give none. -/
def settingsOf (h : Heap) (c : Setting) : Except Fault (List (String × Value)) :=
  let name := ((c.program.splitOn " ").head?).getD ""
  match Settings.optionsOf h false name c.files with
  | .error f => if Settings.isUnreadable f then .ok [] else .error f
  | .ok v => ((h.mapEntries? v).getD []).mapM fun e =>
    match (h.view e.1).text? with
    | some s => if s = "self" then .error (.misuse .notCallable) else .ok (s, e.2)
    | none => .error (.misuse .notCallable)

/-- What is given before the first word: what options are when they are absent, and the
settings over that. -/
def start (g : Grammar) (settings : List (String × Value)) : Reading :=
  let absent := (g.switches.filterMap fun o => o.absent.map fun v => (o.name, v)) ++
    g.operands.map fun name => (name, .nil)
  ⟨settings.foldl (fun values e => setNamed e.1 e.2 values) absent, .info, g.operands, []⟩

/-- What a command line gives. -/
structure Arguments where
  values : List (String × Value)
  level : Level

def Arguments.get (a : Arguments) (name : String) : Value := (a.values.lookup name).getD .nil

/-- Reads a command line. -/
def readLine (h : Heap) (g : Grammar) (c : Setting) (words : List String) :
    Except Stop Arguments := do
  let settings ← (settingsOf h c).mapError Stop.fault
  let told ← (tellWords g.switches words).mapError Stop.usage
  let r ← takeWords h g c (start g settings) told
  if !r.waiting.isEmpty then throw (.usage (.missingOperands r.waiting))
  if !r.extras.isEmpty then throw (.usage (.leftOver r.extras))
  return ⟨r.values, r.level⟩

/-- The options of a comparison that a command line gives. -/
def Arguments.options (h : Heap) (a : Arguments) : Except Fault Diff.Options :=
  Diff.Options.check h ⟨some (a.get "ignore"), some (a.get "array_strategy"),
    some (a.get "zero_values"), some (a.get "detect_pointer_sharing"), []⟩

end DocDelta.Command
