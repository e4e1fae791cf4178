import DocDelta.Proofs.Diff.Ownership
import DocDelta.Proofs.Diff.Parallel

/-! What a comparison finds, apart from the zero policy.

A scalar that became zero is a finding of its own; every other finding is a change that no policy
touches. `Finds` are the rules of `Yields` made tight: a task that goes on is never settled, and
a scalar that became zero is never a plain change. A comparison records what its findings come to
under its policy, and under two policies it ends alike. -/
namespace DocDelta
open Relation Diff

/-! ### Values of a task -/

namespace Heap
variable (h : Heap) (K : ClassTable)

/-- A layer whose parts have names of their own and whose class is known. -/
structure Orderly (o : Object Value) : Prop where
  named : h.WellNamed o
  follows : o.Follows K

variable {h K}

theorem orderly_nil : h.Orderly K .nil := ⟨wellNamed_nil, Object.follows_nil K⟩

theorem everywhere_orderly {v : Value} (hn : h.Everywhere h.WellNamed v)
    (hf : h.Everywhere (Object.Follows K) v) : h.Everywhere (h.Orderly K) v :=
  fun w hw => ⟨hn w hw, hf w hw⟩

end Heap

namespace Diff
open Heap
variable {h : Heap} {K : ClassTable} {o : Options} {path place : Label} {task next : Task}

/-- What a task is about is orderly on either side. -/
def Ordered (h : Heap) (K : ClassTable) : Task → Prop
  | .compare x y => h.Everywhere (h.Orderly K) x ∧ h.Everywhere (h.Orderly K) y
  | .add v | .addFields v | .remove v | .removeFields v => h.Everywhere (h.Orderly K) v

theorem ordered_becomes (hb : Becomes h task next) (ht : Ordered h K task) : Ordered h K next := by
  cases hb with
  | added ho hr => exact ht.2
  | removed hn hr => exact ht.1
  | addedFields hr => exact ht
  | fromZero hr hz =>
    have hblank := Object.zero?_blank hz
    have hnamed := wellNamed_of_empty (h := h) hblank.children (hblank.isRecord.trans hr)
    exact ⟨everywhere_of_empty hblank.children ⟨hnamed.here, hblank.follows ht.here.follows⟩, ht⟩
  | removedFields hz hr => exact ht

theorem ordered_into (hi : Into h o task path next place) (ht : Ordered h K task) :
    Ordered h K next := by
  cases hi with
  | field hc hk hf hp => exact ⟨ht.1.fieldValue orderly_nil _, ht.2.fieldValue orderly_nil _⟩
  | key hc hk ha hb hu hm hl hi hx hy =>
    exact ⟨everywhere_valueUnder ht.1 orderly_nil ha hx, everywhere_valueUnder ht.2 orderly_nil hb hy⟩
  | addedField hr hf hp => exact Everywhere.fieldValue ht orderly_nil _
  | removedField hr hf hp => exact Everywhere.fieldValue ht orderly_nil _
  | removedEntry hz hr he hm hl hi =>
    exact ⟨Everywhere.of_within ht (entries?_below he hm).2.to_reflTransGen, everywhere_nil orderly_nil⟩

/-! ### Findings -/

/-- A change, or a scalar that became zero, with the value it became. -/
inductive Finding
  | change (c : Change)
  | zero (path : List Label) (v : Value)

namespace Finding

/-- The same finding seen from one name further up. -/
def under (l : Label) : Finding → Finding
  | .change c => .change (c.under l)
  | .zero path v => .zero (l :: path) v

/-- What a finding comes to under a policy. -/
def settle (policy : ZeroPolicy) : Finding → List Change
  | .change c => [c]
  | .zero path v => match policy with
    | .unset => [.whole path .unset]
    | .ignore => []
    | .set => [.whole path (.set v)]

end Finding

/-- What findings come to under a policy. -/
def settleAll (policy : ZeroPolicy) (fs : List Finding) : List Change :=
  fs.flatMap (Finding.settle policy)

theorem settleAll_changes (policy : ZeroPolicy) (cs : List Change) :
    settleAll policy (cs.map .change) = cs := by
  simp [settleAll, List.flatMap_map, Finding.settle]

theorem settleAll_under (policy : ZeroPolicy) (l : Label) (fs : List Finding) :
    settleAll policy (fs.map (·.under l)) = (settleAll policy fs).map (·.under l) := by
  rw [settleAll, settleAll, List.flatMap_map, List.map_flatMap]
  refine List.flatMap_congr fun f _ => ?_
  cases f with
  | change c => rfl
  | zero path v => cases policy <;> rfl

/-- Two scalars that differ, the new one a zero. -/
structure BecomesZero (h : Heap) (x y : Value) : Prop where
  old : h.view x ≠ .nil
  new : h.view y ≠ .nil
  oldLeaf : (h.view x).kind.isLeaf = true
  newLeaf : (h.view y).kind.isLeaf = true
  differs : h.deepEqual x y = .ok false
  zero : h.isZeroValue y = .ok true

/-- A step of a task with what is found there. -/
structure Lead where
  label : Label
  task : Task
  found : List Finding

def Lead.all (e : Lead) : List Finding := e.found.map (·.under e.label)

section Rules
variable (h o)

/-- What a task at a path finds. -/
inductive Finds : Task → Label → List Finding → Prop
  | settles {task : Task} {path : Label} {cs : List Change} (hs : Settles h o task cs)
      (hz : ∀ x y, task = .compare x y → ¬ BecomesZero h x y) (hg : ¬ GoesOn h task) :
      Finds task path (cs.map .change)
  | zero {x y : Value} {path : Label} (hz : BecomesZero h x y) : Finds (.compare x y) path [.zero [] y]
  | becomes {task next : Task} {path : Label} {fs : List Finding} (hb : Becomes h task next)
      (hf : Finds next path fs) : Finds task path fs
  | descends {task : Task} {path : Label} (es : List Lead)
      (hd : Descends h o path task (es.map fun e => (e.label, e.task)))
      (hf : ∀ e ∈ es, Finds e.task (joinPath path e.label) e.found) :
      Finds task path (es.flatMap Lead.all)

end Rules

/-! ### Two policies -/

/-- What a task finds, settled by the policy of the options and by another one. -/
def SettledBoth (h : Heap) (o : Options) (policy : ZeroPolicy) (task : Task) (path : Label)
    (cs ds : List Change) : Prop :=
  ∃ fs, Finds h o task path fs ∧ cs = settleAll o.zeros fs ∧ ds = settleAll policy fs

variable {policy : ZeroPolicy} {x y : Value}

theorem settledBoth_changes {cs : List Change} (hs : Settles h o task cs)
    (hz : ∀ x y, task = .compare x y → ¬ BecomesZero h x y) (hg : ¬ GoesOn h task) :
    SettledBoth h o policy task path cs cs :=
  ⟨_, .settles hs hz hg, (settleAll_changes _ cs).symm, (settleAll_changes _ cs).symm⟩

theorem settledBoth_descends (es : List Counterpart)
    (hd : Descends h o path task (es.map fun e => (e.label, e.task)))
    (hs : ∀ e ∈ es, SettledBoth h o policy e.task (joinPath path e.label) e.before e.after) :
    SettledBoth h o policy task path (es.flatMap Counterpart.allBefore)
      (es.flatMap Counterpart.allAfter) := by
  choose! found hfound hbefore hafter using hs
  have hall : ∀ z, settleAll z ((es.map fun e => Lead.mk e.label e.task (found e)).flatMap Lead.all) =
      es.flatMap fun e => (settleAll z (found e)).map (·.under e.label) := by
    intro z
    rw [settleAll, List.flatMap_map, List.flatMap_assoc]
    exact List.flatMap_congr fun e _ => settleAll_under z e.label (found e)
  refine ⟨_, .descends (es.map fun e => ⟨e.label, e.task, found e⟩) ?_ ?_, ?_, ?_⟩
  · rwa [List.map_map]
  · intro e he
    obtain ⟨e, hm, rfl⟩ := List.mem_map.mp he
    exact hfound e hm
  · rw [hall]
    exact List.flatMap_congr fun e he => by rw [Counterpart.allBefore, hbefore e he]
  · rw [hall]
    exact List.flatMap_congr fun e he => by rw [Counterpart.allAfter, hafter e he]

/-- Scalars under two policies: only the record of one that became zero depends on the policy. -/
theorem abreast_scalars (hx : h.view x ≠ .nil) (hy : h.view y ≠ .nil)
    (hc : (h.view x).cls = (h.view y).cls) (hk : (h.view x).kind.isLeaf = true)
    (hk' : (h.view y).kind.isLeaf = true) :
    Abreast False path (SettledBoth h o policy (.compare x y) path)
      (diffScalars h o x y path) (diffScalars h { o with zeros := policy } x y path) := by
  have hg := not_goesOn_of_leaf (y := y) hk
  refine abreast_ask (.inr rfl) fun equal equal' he he' => ?_
  obtain rfl : equal' = equal := Except.ok.inj (he'.symm.trans he)
  cases equal' with
  | true =>
    refine abreast_pure (settledBoth_changes (.same hx hy he) ?_ hg)
    rintro _ _ ⟨⟩ hz
    rw [hz.differs] at he
    cases he
  | false =>
    refine abreast_ask (.inr rfl) fun zero zero' hz hz' => ?_
    obtain rfl : zero' = zero := Except.ok.inj (hz'.symm.trans hz)
    cases zero' with
    | false =>
      have hs : Settles h o (.compare x y) [.whole [] (.set y)] := .scalar hx hy hc hk he hz
      refine abreast_onPatch (settledBoth_changes hs ?_ hg) (fun _ _ => rfl) fun _ _ => rfl
      rintro _ _ ⟨⟩ hbecomes
      rw [hbecomes.zero] at hz
      cases hz
    | true =>
      have hrun : ∀ (z : ZeroPolicy) (s : State), ∃ t, (match z with
          | .unset => onPatch (·.unset path)
          | .ignore => log .debug ("ignoring zero value at " ++ path.text)
          | .set => onPatch (·.set path y) : Walk Unit).run s = (.ok (), t) ∧
            Leaves path (Finding.settle z (.zero [] y)) s t := by
        intro z s
        cases z <;> exact ⟨_, rfl, rfl, rfl, rfl, rfl⟩
      refine abreast_of_leaves (hrun o.zeros) (hrun policy) ⟨[.zero [] y], ?_, ?_, ?_⟩
      · exact .zero ⟨hx, hy, hk, hk', he, hz⟩
      · exact (List.append_nil _).symm
      · exact (List.append_nil _).symm

/-- Two comparisons under two policies are parallel. -/
theorem parallel_policies (h : Heap) (K : ClassTable) (o : Options) (policy : ZeroPolicy) :
    Parallel False h h o { o with zeros := policy } (fun task _ => Ordered h K task)
      (SettledBoth h o policy) where
  outline _ := rfl
  identity _ := rfl
  ignores _ := rfl
  becomes ht hb := ordered_becomes hb ht
  into ht hi := ordered_into hi ht
  field _ _ _ _ _ := ⟨rfl, rfl⟩
  own _ _ _ := rfl
  entries v path := by
    cases h.entries? (h.view v) with
    | none => exact .none
    | some es => exact .some (List.forall₂_same.mpr fun _ _ => ⟨rfl, .inr rfl⟩)
  keys _ ha hb ha' hb' := by
    obtain rfl := Option.some.inj (ha.symm.trans ha')
    obtain rfl := Option.some.inj (hb.symm.trans hb')
    refine ⟨.inr rfl, fun keys keys' hu hu' => .inl ⟨?_, fun _ _ _ => ⟨rfl, rfl⟩⟩⟩
    exact Except.ok.inj (hu'.symm.trans hu)
  scalars ht hx hy hc hk := by
    have hkind := Object.kind_eq ht.1.here.follows ht.2.here.follows hc
    exact abreast_scalars hx hy hc hk (hkind ▸ hk)
  sequences ht hx hy hc hk := by
    refine Abreast.imp (does_diffSequences hx hy hc hk) ?_
    rintro cs _ ⟨rfl, hs⟩
    refine settledBoth_changes hs ?_ (not_goesOn_of_kind hk nofun nofun)
    rintro _ _ ⟨⟩ hz
    have := hz.oldLeaf
    rw [hk] at this
    cases this
  removes _ := .inl rfl
  settled _ hs hg hn := by
    refine settledBoth_changes hs (fun x y he hz => ?_) hg
    rcases hn x y he with hx | hy
    · exact hz.old hx
    · exact hz.new hy
  turned hb := by
    rintro ⟨fs, hf, hcs, hds⟩
    exact ⟨fs, .becomes hb hf, hcs, hds⟩
  descended := settledBoth_descends

/-- **Under two policies a comparison ends alike**, and records the same findings, each settled by
its own policy. -/
theorem finds_compare (policy : ZeroPolicy) {old new : Value} (ho : h.Everywhere (h.Orderly K) old)
    (hn : h.Everywhere (h.Orderly K) new) :
    Abreast False path (SettledBoth h o policy (.compare old new) path)
      (compare h o old new path) (compare h { o with zeros := policy } old new path) :=
  ((parallel_policies h K o policy).alongside _).values ⟨ho, hn⟩

end Diff
end DocDelta
