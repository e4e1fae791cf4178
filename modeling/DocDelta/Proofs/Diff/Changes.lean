import Mathlib.Data.List.Forall2
import DocDelta.Proofs.Diff.Steps

/-! What a comparison records, apart from how.

A comparison is a tree of tasks: to compare two values, to add one or to remove one, each at a
path. A task either ends in changes at its own place (`Settles`), turns into another task at the
same place (`Becomes`) or goes on below it (`Descends`), and `Yields` puts these rules together.
Changes are told relative to the task, so what a task yields does not depend on the state that
the comparison threads through; `replay` says what they make of a patch. -/
namespace DocDelta.Diff

/-! ### Changes -/

/-- What is done at a place. -/
inductive Action
  | set (v : Value)
  | unset
  | push (items : List Value)

/-- A change below a place: of the whole value at a path, or of one item of the sequence there. -/
inductive Change
  | whole (path : List Label) (action : Action)
  | item (path : List Label) (index : Nat) (v : Value)

namespace Change

def path : Change → List Label
  | .whole path _ => path
  | .item path _ _ => path

/-- The same change seen from one name further up. -/
def under (l : Label) : Change → Change
  | .whole path action => .whole (l :: path) action
  | .item path index v => .item (l :: path) index v

@[simp] theorem path_under (l : Label) (c : Change) : (c.under l).path = l :: c.path := by
  cases c <;> rfl

end Change

/-- A push, unless there is nothing to push. -/
def pushed (items : List Value) : List Change :=
  if items.isEmpty then [] else [.whole [] (.push items)]

/-- A path below a base. -/
def joinAll (base : Label) (path : List Label) : Label := path.foldl joinPath base

/-- The name under which a positional change is recorded. -/
def placeName (n : Nat) : Label := .plain ("$[" ++ placeholder "elem" n ++ "]")

/-- The filter that ties a placeholder to a place. -/
def placeFilter (n index : Nat) : Value :=
  .table [(placeholder "elem" n ++ "._index", .int index)]

/-- A patch and the number of labels handed out, one change later. -/
def replay (base : Label) : Patch × Nat → Change → Patch × Nat
  | (p, n), .whole path (.set v) => (p.set (joinAll base path) v, n)
  | (p, n), .whole path .unset => (p.unset (joinAll base path), n)
  | (p, n), .whole path (.push items) => (p.push (joinAll base path) items, n)
  | (p, n), .item path index v =>
    ((p.addFilter (placeFilter n index)).set (joinPath (joinAll base path) (placeName n)) v, n + 1)

def replayAll (base : Label) (cs : List Change) (s : Patch × Nat) : Patch × Nat :=
  cs.foldl (replay base) s

theorem replay_under (base l : Label) (s : Patch × Nat) (c : Change) :
    replay base s (c.under l) = replay (joinPath base l) s c := by
  cases c with
  | whole path action => cases action <;> rfl
  | item path index v => rfl

theorem replayAll_under (base l : Label) (cs : List Change) (s : Patch × Nat) :
    replayAll base (cs.map (·.under l)) s = replayAll (joinPath base l) cs s := by
  simp only [replayAll, List.foldl_map, replay_under]

theorem replayAll_append (base : Label) (cs ds : List Change) (s : Patch × Nat) :
    replayAll base (cs ++ ds) s = replayAll base ds (replayAll base cs s) :=
  List.foldl_append ..

/-! ### Tasks -/

/-- What is to be done at a place. `addFields` and `removeFields` go through the fields of a
record; `add` and `remove` treat a value inside an added or removed one. -/
inductive Task
  | compare (old new : Value)
  | add (v : Value)
  | addFields (v : Value)
  | remove (v : Value)
  | removeFields (v : Value)

section Rules
variable (h : Heap) (o : Options)

/-- The changes of a scalar that was not equal: nothing may be recorded where it became zero. -/
def scalarChanges (zero : Bool) (v : Value) : List Change :=
  if zero then
    match o.zeros with
    | .unset => [.whole [] .unset]
    | .ignore => []
    | .set => [.whole [] (.set v)]
  else [.whole [] (.set v)]

/-- The changes of a sequence that was not equal to the new one: it is replaced, or extended by
what comes after a common start, or changed item by item. -/
inductive Reconciles (old new : Value) : List Change → Prop
  | replaced : Reconciles old new [.whole [] (.set new)]
  | extended {xs ys : List Value} (hx : itemsOf h old = .ok xs) (hy : itemsOf h new = .ok ys)
      (hl : xs.length ≤ ys.length) (hs : firstChange h 0 xs ys = .ok none) :
      Reconciles old new (pushed (ys.drop xs.length))
  | updated {xs ys : List Value} {changed : List Nat} (hx : itemsOf h old = .ok xs)
      (hy : itemsOf h new = .ok ys) (hl : xs.length = ys.length)
      (hs : changedPlaces h 0 xs ys = .ok changed) :
      Reconciles old new (changed.map fun i => .item [] i ((ys[i]?).getD .nil))
  | grown {xs ys : List Value} (hx : itemsOf h old = .ok xs) (hy : itemsOf h new = .ok ys)
      (hl : xs.length < ys.length) (hs : changedPlaces h 0 xs ys = .ok []) :
      Reconciles old new (pushed (ys.drop xs.length))
  | emptied (hm : o.strategy = .merge) : Reconciles old new [.whole [] .unset]
  | merged (hm : o.strategy = .merge) {xs ys : List Value} {p : Pairing} (hx : itemsOf h old = .ok xs)
      (hy : itemsOf h new = .ok ys) (hp : pairUp h xs ys = .ok p) :
      Reconciles old new (p.updates.map fun e => .item [] e.1 e.2)
  | added (hm : o.strategy = .merge) {xs ys : List Value} {p : Pairing} (hx : itemsOf h old = .ok xs)
      (hy : itemsOf h new = .ok ys) (hp : pairUp h xs ys = .ok p) :
      Reconciles old new (pushed p.additions)

/-- Tasks that end in changes at their own place. -/
inductive Settles : Task → List Change → Prop
  | nothing {old new : Value} (ho : h.view old = .nil) (hn : h.view new = .nil) :
      Settles (.compare old new) []
  | created {old new : Value} (ho : h.view old = .nil) (hn : h.view new ≠ .nil)
      (hr : (h.view new).isRecord = false) : Settles (.compare old new) [.whole [] (.set new)]
  | dropped {old new : Value} (ho : h.view old ≠ .nil) (hn : h.view new = .nil)
      (hr : (h.view old).isRecord = false) : Settles (.compare old new) [.whole [] .unset]
  | same {old new : Value} (ho : h.view old ≠ .nil) (hn : h.view new ≠ .nil)
      (he : h.deepEqual old new = .ok true) : Settles (.compare old new) []
  | scalar {old new : Value} (ho : h.view old ≠ .nil) (hn : h.view new ≠ .nil)
      (hc : (h.view old).cls = (h.view new).cls) (hk : (h.view old).kind.isLeaf = true)
      (he : h.deepEqual old new = .ok false) {zero : Bool} (hz : h.isZeroValue new = .ok zero) :
      Settles (.compare old new) (scalarChanges o zero new)
  | sequence {old new : Value} (ho : h.view old ≠ .nil) (hn : h.view new ≠ .nil)
      (hc : (h.view old).cls = (h.view new).cls) (hk : (h.view old).kind = .sequence)
      (he : h.deepEqual old new = .ok false) {cs : List Change} (hs : Reconciles h o old new cs) :
      Settles (.compare old new) cs
  | unadded {v : Value} (hv : h.view v = .nil) : Settles (.add v) []
  | whole {v : Value} (hv : h.view v ≠ .nil) (hr : (h.view v).isRecord = false)
      (hz : (h.view v).zero? = none) : Settles (.add v) [.whole [] (.set v)]
  | unremoved {v : Value} (hz : h.isZero v = .ok true) : Settles (.remove v) []
  | removed {v : Value} (hz : h.isZero v = .ok false) (hr : (h.view v).isRecord = false)
      (he : h.entries? (h.view v) = none) : Settles (.remove v) [.whole [] .unset]

/-- Tasks that are another task at the same place. -/
inductive Becomes : Task → Task → Prop
  | added {old new : Value} (ho : h.view old = .nil) (hr : (h.view new).isRecord = true) :
      Becomes (.compare old new) (.addFields new)
  | removed {old new : Value} (hn : h.view new = .nil) (hr : (h.view old).isRecord = true) :
      Becomes (.compare old new) (.removeFields old)
  | addedFields {v : Value} (hr : (h.view v).isRecord = true) : Becomes (.add v) (.addFields v)
  | fromZero {v : Value} {z : Object Value} (hr : (h.view v).isRecord = false)
      (hz : (h.view v).zero? = some z) : Becomes (.add v) (.compare (.inline z) v)
  | removedFields {v : Value} (hz : h.isZero v = .ok false) (hr : (h.view v).isRecord = true) :
      Becomes (.remove v) (.removeFields v)

/-- Whether a key is passed over. -/
def ignoresKey (path : Label) (key : Value) : Bool :=
  match (h.view key).label? with
  | some l => o.ignores h [l.text, (joinPath path l).text]
  | none => false

/-- The keys that are not passed over, each with the task under it. -/
def Keyed (path : Label) (task : Value → Task → Prop) (keys : List Value)
    (steps : List (Label × Task)) : Prop :=
  List.Forall₂ (fun key step => (h.view key).label? = some step.1 ∧ task key step.2)
    (keys.filter fun key => !ignoresKey h o path key) steps

/-- The fields that are gone through, each with the task under it. -/
def ByField (old new : Value) (path : Label) (task : String → Task) (steps : List (Label × Task)) :
    Prop :=
  ∃ fs, activeFields h o old new path = .ok fs ∧
    steps = fs.map fun f => (.plain f.1.external, task f.1.name)

/-- Tasks that go on below their place. -/
inductive Descends (path : Label) : Task → List (Label × Task) → Prop
  | records {old new : Value} {steps : List (Label × Task)} (hc : (h.view old).cls = (h.view new).cls)
      (hk : (h.view old).kind = .record)
      (hf : ByField h o old new path
        (fun name => .compare (h.fieldValue old name) (h.fieldValue new name)) steps) :
      Descends path (.compare old new) steps
  | mappings {old new : Value} {steps : List (Label × Task)} {as bs : List (Value × Value)}
      {keys : List Value} (hc : (h.view old).cls = (h.view new).cls)
      (hk : (h.view old).kind = .mapping)
      (ha : h.entries? (h.view old) = some as) (hb : h.entries? (h.view new) = some bs)
      (hu : unionKeys h as bs = .ok keys)
      (hs : Keyed h o path (fun key task => ∃ x y, valueUnder h key as = .ok x ∧
        valueUnder h key bs = .ok y ∧ task = .compare x y) keys steps) :
      Descends path (.compare old new) steps
  | added {v : Value} {steps : List (Label × Task)} (hr : (h.view v).isRecord = true)
      (hf : ByField h o v .nil path (fun name => .add (h.fieldValue v name)) steps) :
      Descends path (.addFields v) steps
  | removed {v : Value} {steps : List (Label × Task)} (hr : (h.view v).isRecord = true)
      (hf : ByField h o v .nil path (fun name => .remove (h.fieldValue v name)) steps) :
      Descends path (.removeFields v) steps
  | emptied {v : Value} {steps : List (Label × Task)} {es : List (Value × Value)}
      (hz : h.isZero v = .ok false) (hr : (h.view v).isRecord = false)
      (he : h.entries? (h.view v) = some es)
      (hs : List.Forall₂ (fun e step => (h.view e.1).label? = some step.1 ∧
        step.2 = .compare e.2 .nil) (es.filter fun e => !ignoresKey h o path e.1) steps) :
      Descends path (.remove v) steps

/-- A task below a place, with what it yields there. -/
structure Step where
  label : Label
  task : Task
  changes : List Change

def Step.all (e : Step) : List Change := e.changes.map (·.under e.label)

/-- The changes that a task at a path comes to. -/
inductive Yields : Task → Label → List Change → Prop
  | settles {task : Task} {path : Label} {cs : List Change} (hs : Settles h o task cs) :
      Yields task path cs
  | becomes {task next : Task} {path : Label} {cs : List Change} (hb : Becomes h task next)
      (hy : Yields next path cs) : Yields task path cs
  | descends {task : Task} {path : Label} (steps : List Step)
      (hd : Descends h o path task (steps.map fun e => (e.label, e.task)))
      (hy : ∀ e ∈ steps, Yields e.task (joinPath path e.label) e.changes) :
      Yields task path (steps.flatMap Step.all)

end Rules
end DocDelta.Diff
