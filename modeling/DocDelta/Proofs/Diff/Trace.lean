import DocDelta.Proofs.Diff.Abreast
import DocDelta.Proofs.Diff.Ways

/-! A comparison that succeeds records the changes that its task yields, and it still succeeds
with more names ignored.

The functions of the comparison are followed once, under two options of which the second may
ignore more. `Thins` says how what the two record is related: it is the same, but for the changes
below a name that only the second ignores, which are left out. Everything about recorded paths
and values is proved of these rules, and of those of `Yields` that the first options follow. -/
namespace DocDelta.Diff
open Heap

/-! ### Ignoring more -/

/-- The second options are the first, except that they may ignore more names. -/
structure Narrows (h : Heap) (o o' : Options) : Prop where
  strategy : o'.strategy = o.strategy
  zeros : o'.zeros = o.zeros
  ignores : ∀ names, o.ignores h names = true → o'.ignores h names = true

theorem narrows_self (h : Heap) (o : Options) : Narrows h o o := ⟨rfl, rfl, fun _ hi => hi⟩

/-- A step of a task under two options, with what it yields under either. -/
structure Fork where
  label : Label
  hop : Hop
  task : Task
  before : List Change
  after : List Change

namespace Fork

/-- Whether the step is passed over. -/
def ignored (h : Heap) (o : Options) (path : Label) (e : Fork) : Bool :=
  o.ignores h (e.hop.aliases ++ [(joinPath path e.label).text])

def step (e : Fork) : Step := ⟨e.label, e.task, e.before⟩

def allBefore (e : Fork) : List Change := e.before.map (·.under e.label)

def allAfter (e : Fork) : List Change := e.after.map (·.under e.label)

end Fork

section Rules
variable (h : Heap) (o o' : Options)

/-- The changes that a task comes to under two options the second of which ignore more. -/
inductive Thins : Task → Label → List Change → List Change → Prop
  | settles {task : Task} {path : Label} {cs : List Change} (hs : Settles h o task cs) :
      Thins task path cs cs
  | becomes {task next : Task} {path : Label} {cs ds : List Change} (hb : Becomes h task next)
      (ht : Thins next path cs ds) : Thins task path cs ds
  | descends {task : Task} {path : Label} (forks : List Fork)
      (hd : Descends h o path task (forks.map fun e => (e.label, e.task)))
      (hh : ∀ e ∈ forks, e.hop.name = e.label.text ∧ Hops h task.sides e.hop e.task.sides)
      (hk : ∀ e ∈ forks, e.ignored h o path = false)
      (hi : ∀ e ∈ forks, e.ignored h o' path = true →
        e.after = [] ∧ Yields h o e.task (joinPath path e.label) e.before)
      (ht : ∀ e ∈ forks, e.ignored h o' path = false →
        Thins e.task (joinPath path e.label) e.before e.after) :
      Thins task path (forks.flatMap Fork.allBefore) (forks.flatMap Fork.allAfter)

variable {h o o'}

/-- Under the first options a task yields its changes. -/
theorem thins_yields {task : Task} {path : Label} {cs ds : List Change}
    (ht : Thins h o o' task path cs ds) : Yields h o task path cs := by
  induction ht with
  | settles hs => exact .settles hs
  | becomes hb _ ih => exact .becomes hb ih
  | @descends task path forks hd hh hk hi ht ih =>
    have hall : forks.flatMap Fork.allBefore = (forks.map Fork.step).flatMap Step.all := by
      rw [List.flatMap_map]
      rfl
    rw [hall]
    refine .descends _ ?_ fun e he => ?_
    · rw [List.map_map]
      exact hd
    · obtain ⟨e, hm, rfl⟩ := List.mem_map.mp he
      cases hig : e.ignored h o' path with
      | true => exact (hi e hm hig).2
      | false => exact ih e hm hig

/-- Where the second options ignore no more, both yield the same. -/
theorem thins_same (hs : ∀ names, o'.ignores h names = o.ignores h names) {task : Task} {path : Label}
    {cs ds : List Change} (ht : Thins h o o' task path cs ds) : ds = cs := by
  induction ht with
  | settles => rfl
  | becomes _ _ ih => exact ih
  | @descends task path forks hd hh hk hi ht ih =>
    refine List.flatMap_congr fun e he => ?_
    have hkept : e.ignored h o' path = false := by
      rw [← hk e he, Fork.ignored, Fork.ignored, hs]
    rw [Fork.allAfter, ih e he hkept, Fork.allBefore]

end Rules

/-! ### Going through steps -/

section Steps
variable {h : Heap} {o o' : Options} {n : Nat} {old new v : Value} {path : Label}

/-- What a step comes to: nothing where only the second options ignore it. -/
def Comes (h : Heap) (o o' : Options) (path : Label) (sides : Value × Value) (e : Fork) : Prop :=
  (e.hop.name = e.label.text ∧ Hops h sides e.hop e.task.sides) ∧ e.ignored h o path = false ∧
  (e.ignored h o' path = true → e.after = [] ∧ Yields h o e.task (joinPath path e.label) e.before) ∧
  (e.ignored h o' path = false → Thins h o o' e.task (joinPath path e.label) e.before e.after)

theorem thins_descends {task : Task} {forks : List Fork}
    (hd : Descends h o path task (forks.map fun e => (e.label, e.task)))
    (hc : ∀ e ∈ forks, Comes h o o' path task.sides e) :
    Thins h o o' task path (forks.flatMap Fork.allBefore) (forks.flatMap Fork.allAfter) :=
  .descends forks hd (fun e he => (hc e he).1) (fun e he => (hc e he).2.1)
    (fun e he => (hc e he).2.2.1) fun e he => (hc e he).2.2.2

/-- A step that may be passed over by the second walk. -/
theorem inStep_fork {sides : Value × Value} {label : Label} {hop : Hop} {Q : Task → Prop}
    {m m' : Walk Unit} (hname : hop.name = label.text)
    (hkept : o.ignores h (hop.aliases ++ [(joinPath path label).text]) = false)
    (hm : InStep (joinPath path label) (fun cs ds => ∃ task, Q task ∧ Hops h sides hop task.sides ∧
      Thins h o o' task (joinPath path label) cs ds) m m') :
    InStep path (fun cs ds => ∃ e : Fork, (e.label = label ∧ Q e.task ∧ Comes h o o' path sides e) ∧
      cs = e.allBefore ∧ ds = e.allAfter) m
      (if o'.ignores h (hop.aliases ++ [(joinPath path label).text]) then pure () else m') := by
  split
  · rename_i hi
    refine hm.skip.under.imp ?_
    rintro _ _ ⟨cs, _, ⟨rfl, ds, task, hq, hhop, ht⟩, rfl, rfl⟩
    refine ⟨⟨label, hop, task, cs, []⟩, ⟨rfl, hq, ⟨hname, hhop⟩, hkept,
      fun _ => ⟨rfl, thins_yields ht⟩, fun hn => ?_⟩, rfl, rfl⟩
    exact absurd hi (Bool.eq_false_iff.mp hn)
  · rename_i hi
    refine hm.under.imp ?_
    rintro _ _ ⟨cs, ds, ⟨task, hq, hhop, ht⟩, rfl, rfl⟩
    exact ⟨⟨label, hop, task, cs, ds⟩, ⟨rfl, hq, ⟨hname, hhop⟩, hkept,
      fun hy => absurd hy hi, fun _ => ht⟩, rfl, rfl⟩

theorem forM_filter {α : Type} (drop : α → Bool) (f : α → Walk Unit) (xs : List α) :
    (xs.filter fun x => !drop x).forM f = xs.forM fun x => if drop x then pure () else f x := by
  induction xs with
  | nil => rfl
  | cons x xs ih =>
    rw [forM_cons, ← ih]
    cases hd : drop x with
    | true =>
      rw [List.filter_cons_of_neg (by rw [hd]; decide), if_pos rfl]
      rfl
    | false => rw [List.filter_cons_of_pos (by rw [hd]; decide), forM_cons, if_neg (by decide)]

theorem activeFields_narrows (hn : Narrows h o o') {fs : List (Field × Label)}
    (hf : activeFields h o old new path = .ok fs) :
    activeFields h o' old new path =
      .ok (fs.filter fun p => !o'.ignores h [p.1.name, p.1.external, p.2.text]) := by
  unfold activeFields at hf ⊢
  split at hf
  · cases hf
  · cases hf
    rw [List.filter_filter]
    congr 1
    refine List.filter_congr fun ⟨f, subpath⟩ _ => ?_
    show (!o'.ignores h [f.name, f.external, subpath.text]) =
      (!o'.ignores h [f.name, f.external, subpath.text] &&
        !o.ignores h [f.name, f.external, subpath.text])
    cases hi : o.ignores h [f.name, f.external, subpath.text] with
    | true =>
      rw [hn.ignores _ hi]
      rfl
    | false => exact (Bool.and_true _).symm

theorem forall₂_eq_map {α β : Type} {f : α → β} {xs : List α} {ys : List β}
    (hr : List.Forall₂ (fun x y => y = f x) xs ys) : ys = xs.map f := by
  induction hr with
  | nil => rfl
  | cons hxy _ ih => rw [hxy, ih, List.map_cons]

/-- Going through the fields of records. -/
theorem inStep_fields (hn : Narrows h o o') {root : Task} {task : String → Task}
    {body body' : Field × Label → Walk Unit}
    (hd : ∀ steps, ByField h o old new path task steps → Descends h o path root steps)
    (hhops : ∀ fs, activeFields h o old new path = .ok fs → ∀ p ∈ fs,
      Hops h root.sides (.ofField p.1) (task p.1.name).sides)
    (hbody : ∀ f, InStep (joinPath path (.plain f.external))
      (Thins h o o' (task f.name) (joinPath path (.plain f.external)))
      (body (f, joinPath path (.plain f.external))) (body' (f, joinPath path (.plain f.external)))) :
    InStep path (Thins h o o' root path) (ask (activeFields h o old new path) >>= (·.forM body))
      (ask (activeFields h o' old new path) >>= (·.forM body')) := by
  refine inStep_ask fun fs hfs => ⟨_, activeFields_narrows hn hfs, ?_⟩
  rw [forM_filter]
  refine (inStep_forM (fun _ => false) (fun (p : Field × Label) (e : Fork) =>
    (e.label, e.task) = (.plain p.1.external, task p.1.name) ∧ Comes h o o' path root.sides e)
    Fork.allBefore Fork.allAfter nofun ?_).imp ?_
  · rintro ⟨f, subpath⟩ hp _
    obtain ⟨_, _, _, hsub, hkept⟩ := mem_activeFields hfs hp
    dsimp only at hsub hkept
    subst hsub
    have htask := (hbody f).imp (S := fun cs ds => ∃ t, t = task f.name ∧
      Hops h root.sides (.ofField f) t.sides ∧
        Thins h o o' t (joinPath path (.plain f.external)) cs ds)
      fun _ _ ht => ⟨_, rfl, hhops fs hfs _ hp, ht⟩
    refine (inStep_fork rfl hkept htask).imp ?_
    rintro _ _ ⟨e, ⟨hlabel, htask, hcomes⟩, rfl, rfl⟩
    exact ⟨e, ⟨by rw [hlabel, htask], hcomes⟩, rfl, rfl⟩
  · rintro _ _ ⟨forks, hforks, rfl, rfl⟩
    have hall : (fs.filter fun _ => !false) = fs := List.filter_eq_self.mpr fun _ _ => rfl
    rw [hall] at hforks
    have hsteps : forks.map (fun e => (e.label, e.task)) =
        fs.map fun p => (.plain p.1.external, task p.1.name) :=
      forall₂_eq_map (List.forall₂_map_right_iff.mpr (hforks.imp fun _ _ hq => hq.1))
    refine thins_descends (hd _ ⟨fs, hfs, hsteps⟩) fun e he => ?_
    obtain ⟨_, _, _, hcomes⟩ := forall₂_right hforks he
    exact hcomes

theorem keyPath_label {key : Value} {l : Label} (hl : (h.view key).label? = some l) :
    keyPath h o path key = .ok (if ignoresKey h o path key then none else some (joinPath path l)) := by
  rw [keyPath, ignoresKey, hl]

theorem ignoresKey_narrows (hn : Narrows h o o') {key : Value}
    (hi : ignoresKey h o path key = true) : ignoresKey h o' path key = true := by
  unfold ignoresKey at hi ⊢
  split at hi
  · exact hn.ignores _ hi
  · cases hi

/-- Going through keys that may be passed over. -/
theorem inStep_keys (hn : Narrows h o o') {α : Type} {root : Task} (key : α → Value)
    (Q : α → Task → Prop) {xs : List α} {body body' : α → Label → Walk Unit}
    (hd : ∀ steps, List.Forall₂ (fun x step => (h.view (key x)).label? = some step.1 ∧ Q x step.2)
      (xs.filter fun x => !ignoresKey h o path (key x)) steps → Descends h o path root steps)
    (hbody : ∀ x ∈ xs, ∀ l, (h.view (key x)).label? = some l →
      InStep (joinPath path l) (fun cs ds => ∃ task, Q x task ∧
        Hops h root.sides (.ofKey l.text) task.sides ∧ Thins h o o' task (joinPath path l) cs ds)
        (body x (joinPath path l)) (body' x (joinPath path l))) :
    InStep path (Thins h o o' root path)
      (xs.forM fun x => do
        match ← ask (keyPath h o path (key x)) with
        | none => return ()
        | some subpath => body x subpath)
      (xs.forM fun x => do
        match ← ask (keyPath h o' path (key x)) with
        | none => return ()
        | some subpath => body' x subpath) := by
  refine (inStep_forM (fun x => ignoresKey h o path (key x)) (fun x (e : Fork) =>
    ((h.view (key x)).label? = some e.label ∧ Q x e.task) ∧ Comes h o o' path root.sides e)
    Fork.allBefore Fork.allAfter ?_ ?_).imp ?_
  · intro x _ hs
    cases hl : (h.view (key x)).label? with
    | none =>
      rw [ignoresKey, hl] at hs
      cases hs
    | some l =>
      rw [keyPath_label hl, keyPath_label hl, hs, ignoresKey_narrows hn hs]
      exact inStep_ask fun _ ha => ⟨none, rfl, by cases ha; exact inStep_pure ⟨rfl, rfl⟩⟩
  · intro x hx hs
    cases hl : (h.view (key x)).label? with
    | none =>
      refine inStep_ask fun _ ha => ?_
      rw [keyPath, hl] at ha
      cases ha
    | some l =>
      rw [keyPath_label hl, keyPath_label hl, hs]
      refine inStep_ask fun _ ha => ⟨_, rfl, ?_⟩
      cases ha
      have hignores : ∀ o, ignoresKey h o path (key x) =
          o.ignores h ((Hop.ofKey l.text).aliases ++ [(joinPath path l).text]) := fun o => by
        rw [ignoresKey, hl]
        rfl
      have hfork := (inStep_fork rfl ((hignores o).symm.trans hs) (hbody x hx l hl)).imp
        (S := fun cs ds => ∃ e : Fork,
          ((some l = some e.label ∧ Q x e.task) ∧ Comes h o o' path root.sides e) ∧
            cs = e.allBefore ∧ ds = e.allAfter) (by
        rintro _ _ ⟨e, ⟨rfl, hq, hcomes⟩, rfl, rfl⟩
        exact ⟨e, ⟨⟨rfl, hq⟩, hcomes⟩, rfl, rfl⟩)
      rw [← hignores o'] at hfork
      cases hi : ignoresKey h o' path (key x) with
      | true =>
        rw [hi] at hfork
        exact hfork
      | false =>
        rw [hi] at hfork
        exact hfork
  · rintro _ _ ⟨forks, hforks, rfl, rfl⟩
    refine thins_descends (hd _ (List.forall₂_map_right_iff.mpr (hforks.imp fun _ _ hq => hq.1)))
      fun e he => ?_
    obtain ⟨_, _, _, hcomes⟩ := forall₂_right hforks he
    exact hcomes

end Steps

/-! ### Tasks -/

section Tasks
variable {h : Heap} {o o' : Options} {n : Nat} {old new v : Value} {path : Label}

/-- A walk that ends at its own place is in step with itself. -/
theorem inStep_settles {task : Task} {m : Walk Unit} (hm : Does path (Settles h o task) m) :
    InStep path (Thins h o o' task path) m m := by
  refine (Abreast.inStep hm).imp ?_
  rintro cs _ ⟨rfl, hs⟩
  exact .settles hs

theorem InStep.becomes {task next : Task} {m m' : Walk Unit} (hb : Becomes h task next)
    (hm : InStep path (Thins h o o' next path) m m') : InStep path (Thins h o o' task path) m m' :=
  hm.imp fun _ _ => .becomes hb

/-- Each function of the comparison, given so many steps, is in step under both options. -/
structure Traced (h : Heap) (o o' : Options) (n : Nat) : Prop where
  values : ∀ old new path, InStep path (Thins h o o' (.compare old new) path)
    (diffValues h o n old new path) (diffValues h o' n old new path)
  pointers : ∀ old new path, InStep path (Thins h o o' (.compare old new) path)
    (diffPointers h o n old new path) (diffPointers h o' n old new path)
  structs : ∀ old new path, (h.view old).cls = (h.view new).cls → (h.view old).kind = .record →
    InStep path (Thins h o o' (.compare old new) path)
      (diffStructs h o n old new path) (diffStructs h o' n old new path)
  mappings : ∀ old new path, (h.view old).cls = (h.view new).cls → (h.view old).kind = .mapping →
    InStep path (Thins h o o' (.compare old new) path)
      (diffMappings h o n old new path) (diffMappings h o' n old new path)
  fields : ∀ v path, (h.view v).isRecord = true → InStep path (Thins h o o' (.addFields v) path)
    (addStructFields h o n v path) (addStructFields h o' n v path)
  added : ∀ v path, InStep path (Thins h o o' (.add v) path)
    (diffAdded h o n v path) (diffAdded h o' n v path)
  unset : ∀ v path, (h.view v).isRecord = true → InStep path (Thins h o o' (.removeFields v) path)
    (unsetStructFields h o n v path) (unsetStructFields h o' n v path)
  removed : ∀ v path, InStep path (Thins h o o' (.remove v) path)
    (diffRemoved h o n v path) (diffRemoved h o' n v path)

theorem traced_zero : Traced h o o' 0 where
  values _ _ _ := inStep_throw _
  pointers _ _ _ := inStep_throw _
  structs _ _ _ _ _ := inStep_throw _
  mappings _ _ _ _ _ := inStep_throw _
  fields _ _ _ := inStep_throw _
  added _ _ := inStep_throw _
  unset _ _ _ := inStep_throw _
  removed _ _ := inStep_throw _

theorem inStep_scalars (hn : Narrows h o o') (hold : h.view old ≠ .nil) (hnew : h.view new ≠ .nil)
    (hc : (h.view old).cls = (h.view new).cls) (hk : (h.view old).kind.isLeaf = true) :
    InStep path (Thins h o o' (.compare old new) path)
      (diffScalars h o old new path) (diffScalars h o' old new path) := by
  have hsame : diffScalars h o' old new path = diffScalars h o old new path := by
    rw [diffScalars, diffScalars, hn.zeros]
  rw [hsame]
  exact inStep_settles (does_diffScalars hold hnew hc hk)

theorem traced_values (hn : Narrows h o o') (ih : Traced h o o' n) (old new : Value) (path : Label) :
    InStep path (Thins h o o' (.compare old new) path)
      (diffValues h o (n + 1) old new path) (diffValues h o' (n + 1) old new path) := by
  by_cases hnil : h.view old = .nil ∨ h.view new = .nil
  · have hcond : ((h.view old).isNil || (h.view new).isNil) = true :=
      Bool.or_eq_true_iff.mpr (hnil.imp Object.isNil_iff.mpr Object.isNil_iff.mpr)
    rw [diffValues, diffValues]
    simp only [hcond, if_true]
    exact ih.pointers old new path
  obtain ⟨hold, hnew⟩ := not_or.mp hnil
  rw [diffValues_objects n hold hnew, diffValues_objects n hold hnew, hn.strategy]
  refine inStep_ite (fun _ => inStep_throw _) fun hc => ?_
  have hc := not_not.mp hc
  cases hk : (h.view old).kind with
  | record => exact inStep_visiting (ih.structs old new path hc hk)
  | mapping => exact inStep_visiting (ih.mappings old new path hc hk)
  | sequence => exact inStep_visiting (inStep_settles (does_diffSequences hold hnew hc hk))
  | _ => exact inStep_scalars hn hold hnew hc (by rw [hk]; rfl)

theorem traced_pointers (ih : Traced h o o' n) (old new : Value) (path : Label) :
    InStep path (Thins h o o' (.compare old new) path)
      (diffPointers h o (n + 1) old new path) (diffPointers h o' (n + 1) old new path) := by
  rw [diffPointers, diffPointers]
  by_cases hold : h.view old = .nil
  · by_cases hnew : h.view new = .nil
    · rw [hold, hnew]
      exact inStep_settles (does_pure (.nothing hold hnew))
    · rw [hold, isNil_false hnew]
      refine inStep_ite (fun hb => absurd hb (by decide)) fun _ =>
        inStep_ite (fun _ => ?_) fun hb => absurd rfl hb
      refine inStep_ite (fun hr => (ih.fields new path hr).becomes (.added hold hr)) fun hr => ?_
      exact inStep_settles
        (does_onPatch (.created hold hnew (Bool.eq_false_iff.mpr hr)) fun _ _ => rfl)
  · rw [isNil_false hold]
    by_cases hnew : h.view new = .nil
    · rw [hnew]
      refine inStep_ite (fun hb => absurd hb (by decide)) fun _ =>
        inStep_ite (fun hb => absurd hb (by decide)) fun _ =>
          inStep_ite (fun _ => ?_) fun hb => absurd rfl hb
      refine inStep_ite (fun hr => (ih.unset old path hr).becomes (.removed hnew hr)) fun hr => ?_
      exact inStep_settles
        (does_onPatch (.dropped hold hnew (Bool.eq_false_iff.mpr hr)) fun _ _ => rfl)
    · rw [isNil_false hnew]
      exact ih.values old new path

theorem entries?_of_entriesOf {es : List (Value × Value)} (he : entriesOf h v = .ok es) :
    h.entries? (h.view v) = some es := by
  unfold entriesOf at he
  split at he
  · cases he
    assumption
  · cases he

theorem traced_mappings (hn : Narrows h o o') (ih : Traced h o o' n) (old new : Value) (path : Label)
    (hc : (h.view old).cls = (h.view new).cls) (hk : (h.view old).kind = .mapping) :
    InStep path (Thins h o o' (.compare old new) path)
      (diffMappings h o (n + 1) old new path) (diffMappings h o' (n + 1) old new path) := by
  rw [diffMappings, diffMappings]
  refine inStep_ask fun as ha => ⟨as, ha, inStep_ask fun bs hb => ⟨bs, hb,
    inStep_ask fun keys hu => ⟨keys, hu, ?_⟩⟩⟩
  have ha := entries?_of_entriesOf ha
  have hb := entries?_of_entriesOf hb
  refine inStep_keys hn id (fun key task => ∃ x y, valueUnder h key as = .ok x ∧
    valueUnder h key bs = .ok y ∧ task = .compare x y) (fun steps hs => .mappings hc hk ha hb hu hs)
    fun key hkey l hl => ?_
  refine inStep_ask fun x hx => ⟨x, hx, inStep_ask fun y hy => ⟨y, hy, ?_⟩⟩
  exact (ih.values x y _).imp fun _ _ ht => ⟨.compare x y, ⟨x, y, hx, hy, rfl⟩,
    hops_mappings hc hk ha hb hu hkey (text?_of_label? hl) hx hy, ht⟩

theorem traced_added (ih : Traced h o o' n) (v : Value) (path : Label) :
    InStep path (Thins h o o' (.add v) path)
      (diffAdded h o (n + 1) v path) (diffAdded h o' (n + 1) v path) := by
  rw [diffAdded, diffAdded]
  refine inStep_ite (fun hv => inStep_settles (does_pure (.unadded (Object.isNil_iff.mp hv))))
    fun hv => ?_
  have hv : h.view v ≠ .nil := fun hn => hv (Object.isNil_iff.mpr hn)
  refine inStep_ite (fun hr => (ih.fields v path hr).becomes (.addedFields hr)) fun hr => ?_
  have hr := Bool.eq_false_iff.mpr hr
  cases hz : (h.view v).zero? with
  | none => exact inStep_settles (does_onPatch (.whole hv hr hz) fun _ _ => rfl)
  | some z => exact (ih.values (.inline z) v path).becomes (.fromZero hr hz)

theorem traced_removed (hn : Narrows h o o') (ih : Traced h o o' n) (v : Value) (path : Label) :
    InStep path (Thins h o o' (.remove v) path)
      (diffRemoved h o (n + 1) v path) (diffRemoved h o' (n + 1) v path) := by
  rw [diffRemoved, diffRemoved]
  refine inStep_ask fun zero hz => ⟨zero, hz, ?_⟩
  cases zero with
  | true => exact inStep_settles (does_pure (.unremoved hz))
  | false =>
    refine inStep_ite (fun hb => absurd hb (by decide)) fun _ => ?_
    refine inStep_ite (fun hr => (ih.unset v path hr).becomes (.removedFields hz hr)) fun hr => ?_
    have hr := Bool.eq_false_iff.mpr hr
    cases he : h.entries? (h.view v) with
    | none => exact inStep_settles (does_onPatch (.removed hz hr he) fun _ _ => rfl)
    | some es =>
      refine inStep_keys hn (fun e : Value × Value => e.1) (fun e task => task = .compare e.2 .nil)
        (fun steps hs => .emptied hz hr he hs) fun e hm l hl => ?_
      exact (ih.values e.2 .nil _).imp fun _ _ ht =>
        ⟨_, rfl, hops_removed he hm (text?_of_label? hl), ht⟩

theorem traced (hn : Narrows h o o') (n : Nat) : Traced h o o' n := by
  induction n with
  | zero => exact traced_zero
  | succ n ih =>
    exact {
      values := traced_values hn ih
      pointers := traced_pointers ih
      structs := fun old new path hc hk => by
        rw [diffStructs, diffStructs]
        exact inStep_fields hn (fun steps hf => .records hc hk hf)
          (fun fs hfs p hp => .field (metField_records hc hk hfs hp)) fun f => ih.values _ _ _
      mappings := traced_mappings hn ih
      fields := fun v path hr => by
        rw [addStructFields, addStructFields]
        exact inStep_visiting (inStep_fields hn (fun steps hf => .added hr hf)
          (fun fs hfs p hp => .field (metField_alone hr hfs hp).1) fun f => ih.added _ _)
      added := traced_added ih
      unset := fun v path hr => by
        rw [unsetStructFields, unsetStructFields]
        exact inStep_visiting (inStep_fields hn (fun steps hf => .removed hr hf)
          (fun fs hfs p hp => .field (metField_alone hr hfs hp).2) fun f => ih.removed _ _)
      removed := traced_removed hn ih }

/-- **A comparison that succeeds succeeds with more names ignored**, from any state with the same
pairs under comparison, and records what is left of its changes. -/
theorem inStep_compare (hn : Narrows h o o') (old new : Value) (path : Label) :
    InStep path (Thins h o o' (.compare old new) path)
      (compare h o old new path) (compare h o' old new path) :=
  (traced hn _).values old new path

/-- **A comparison that succeeds records exactly what its task yields.** -/
theorem yields_compare {s t : State} (hr : (compare h o old new path).run s = (.ok (), t)) :
    ∃ cs, Yields h o (.compare old new) path cs ∧ Leaves path cs s t := by
  obtain ⟨_, cs, _, _, ht, hs, _⟩ := inStep_compare (narrows_self h o) old new path s s t rfl hr
  exact ⟨cs, thins_yields ht, hs⟩

end Tasks

end DocDelta.Diff
