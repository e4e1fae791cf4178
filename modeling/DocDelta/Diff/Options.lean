import DocDelta.Fault
import DocDelta.Value.Literal

/-! The options of a comparison.

Options are given as values by name and checked once, here: the strategy for sequences and
the policy for zero values are among fixed words, ignored names are collected into a set,
and anything may say whether shared references are looked for. -/
namespace DocDelta.Diff

/-- How sequences are reconciled. -/
inductive Strategy
  | replace
  | append
  | smart
  | merge
  deriving DecidableEq, Repr, Inhabited

namespace Strategy

def name : Strategy → String
  | .replace => "replace"
  | .append => "append"
  | .smart => "smart"
  | .merge => "merge"

def all : List Strategy := [.replace, .smart, .append, .merge]

def ofName? (s : String) : Option Strategy := all.find? fun x => x.name == s

end Strategy

/-- What is recorded when a scalar becomes the zero of its class. -/
inductive ZeroPolicy
  | unset
  | set
  | ignore
  deriving DecidableEq, Repr, Inhabited

namespace ZeroPolicy

def name : ZeroPolicy → String
  | .unset => "unset"
  | .set => "set"
  | .ignore => "ignore"

def all : List ZeroPolicy := [.unset, .set, .ignore]

def ofName? (s : String) : Option ZeroPolicy := all.find? fun x => x.name == s

end ZeroPolicy

/-- The options of one comparison; ignored names are distinct. Comparers are kept by path
and are not consulted. -/
structure Options where
  ignored : List Value
  strategy : Strategy
  zeros : ZeroPolicy
  detectsSharing : Bool
  comparers : List Value
  deriving Inhabited

namespace Options

/-- Sequences are replaced, zeros are set, and nothing is ignored. -/
def default : Options := ⟨[], .replace, .set, false, []⟩

/-- Whether one of the names is ignored. -/
def ignores (o : Options) (h : Heap) (names : List String) : Bool :=
  names.any fun s => o.ignored.any (h.isText s)

/-- Whether one of the values is ignored; each has to be one that could be. -/
def ignoresAny (o : Options) (h : Heap) : List Value → Except Fault Bool
  | [] => .ok false
  | v :: vs => do
    h.requireKey v
    if ← hasPart h h.same v o.ignored then return true else o.ignoresAny h vs

/-- A comparer to be kept for a path: one that is fit for it, or any other value. -/
inductive Comparer
  | fit
  | unfit (v : Value)

/-- Keeps a comparer for a path, in place of an earlier one. -/
def withComparer (o : Options) (h : Heap) (path : Value) : Comparer → Except Fault Options
  | .unfit v => .error (.notAComparer path v)
  | .fit => do
    h.requireKey path
    if ← hasPart h h.same path o.comparers then return o
    else return { o with comparers := o.comparers ++ [path] }

/-- Adds the items to a set. -/
def collect (h : Heap) : List Value → List Value → Except Fault (List Value)
  | seen, [] => .ok seen
  | seen, v :: vs => do
    h.requireKey v
    if ← hasPart h h.same v seen then collect h seen vs else collect h (seen ++ [v]) vs

/-- The options as they are given: nothing stands for the default. -/
structure Given where
  ignored : Option Value
  strategy : Option Value
  zeros : Option Value
  detectsSharing : Option Value
  comparers : List (Value × Comparer)

/-- Checks the options; the strategy is checked first, then the zero policy, then the
ignored names, and last the comparers. -/
def check (h : Heap) (g : Given) : Except Fault Options := do
  let strategy ← match g.strategy with
    | none => .ok Strategy.replace
    | some v => match (h.view v).text?.bind Strategy.ofName? with
      | some s => .ok s
      | none => .error (.unknownStrategy v)
  let zeros ← match g.zeros with
    | none => .ok ZeroPolicy.set
    | some v => match (h.view v).text?.bind ZeroPolicy.ofName? with
      | some z => .ok z
      | none => .error (.unknownZeroPolicy v)
  let ignored ← match g.ignored with
    | none => .ok []
    | some v =>
      if (h.view v).text?.isSome then .ok [v]
      else if h.truthy v then collect h [] (← h.iterate v)
      else .ok []
  let options : Options :=
    ⟨ignored, strategy, zeros, (g.detectsSharing.map h.truthy).getD false, []⟩
  g.comparers.foldlM (fun o c => o.withComparer h c.1 c.2) options

/-- The comparers in a value given by name: nothing that counts as empty, or a map. -/
def comparersOf (h : Heap) (v : Value) : Except Fault (List (Value × Comparer)) :=
  if !h.truthy v then .ok []
  else match h.entries? (h.view v) with
    | some es => .ok (es.map fun e => (e.1, .unfit e.2))
    | none => .error .noSuchAttribute

/-- The options on one line, the ignored names in order. -/
def text (h : Heap) (o : Options) : Except Fault String := do
  let ignored ← h.sort o.ignored
  return "DiffConfig(ignore_fields=" ++ h.literal (.list ignored) ++
    ", array_strategy=" ++ Text.quoted o.strategy.name ++
    ", zero_value_handling=" ++ Text.quoted o.zeros.name ++
    ", detect_pointer_sharing=" ++ (if o.detectsSharing then "True" else "False") ++ ")"

end Options
end DocDelta.Diff
