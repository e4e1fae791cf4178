import DocDelta.Diff.Options
import DocDelta.Patch.Loading

/-! What one comparison accumulates: the patch, the pairs under comparison, the references
met on either side, the labels handed out and the messages logged.

A `Walk` keeps its state when it fails, so what was recorded before a failure stays. Every
pair of objects is entered through `visiting`, which refuses a pair that is being compared
further up and takes its pair out again, whether the comparison inside succeeds or fails. -/
namespace DocDelta

/-- How serious a message is. -/
inductive Level
  | debug
  | info
  | warning
  | error
  | critical
  deriving DecidableEq, Repr, Inhabited

namespace Level

def name : Level → String
  | .debug => "DEBUG"
  | .info => "INFO"
  | .warning => "WARNING"
  | .error => "ERROR"
  | .critical => "CRITICAL"

def rank : Level → Nat
  | .debug => 10
  | .info => 20
  | .warning => 30
  | .error => 40
  | .critical => 50

end Level

/-- A logged message. -/
structure Message where
  level : Level
  text : String
  deriving DecidableEq, Repr, Inhabited

namespace Diff

/-- An object as it is remembered: by its address, or as nothing. -/
abbrev Mark := Option Addr

/-- The references met on one side, each with the path it was first met at. -/
abbrev Table := List (Mark × String)

structure State where
  patch : Patch
  active : List (Mark × Mark)
  old : Table
  new : Table
  labels : Nat
  log : List Message

def State.start : State := ⟨.empty, [], [], [], 0, []⟩

/-- A computation on the state that may fail and then keeps what it did. -/
abbrev Walk := ExceptT Fault (StateM State)

/-- Goes on with the answer of a test that does not touch the state. -/
def ask {α : Type} (answer : Except Fault α) : Walk α := ExceptT.mk (pure answer)

def log (level : Level) (text : String) : Walk Unit :=
  modify fun s => { s with log := s.log ++ [⟨level, text⟩] }

/-- Changes the patch. -/
def onPatch (f : Patch → Patch) : Walk Unit := modify fun s => { s with patch := f s.patch }

/-- A path extended by one more name. -/
def joinPath (base name : Label) : Label :=
  if base.text.isEmpty then name else .plain (base.text ++ "." ++ name.text)

/-- The placeholder with a number, unique within one comparison. -/
def placeholder (lead : String) (n : Nat) : String := lead ++ Number.decimalText n

/-- Hands out the next placeholder. -/
def nextLabel : Walk String :=
  modifyGet fun s => (placeholder "elem" s.labels, { s with labels := s.labels + 1 })

/-- The pair of two objects, when both can be met again. -/
def pairOf (h : Heap) (old new : Value) : Option (Mark × Mark) := do
  return (← old.identity h, ← new.identity h)

/-- Compares a pair unless it is being compared further up. -/
def visiting (h : Heap) (old new : Value) (path : Label) (body : Walk Unit) : Walk Unit :=
  ExceptT.mk fun s =>
    match pairOf h old new with
    | none => body s
    | some pair =>
      if s.active.contains pair then (.error (.cycle path), s)
      else
        let (answer, t) := body { s with active := pair :: s.active }
        (answer, { t with active := t.active.erase pair })

end Diff
end DocDelta
