import DocDelta.Proofs.Diff.Trace
import DocDelta.Proofs.Value.Outline

/-! Two comparisons abreast.

The functions of the comparison are followed in two heaps and under two options at once, from
the same two values. `Into` is the step from a task to one below it. A family of tasks is
`Parallel` when the two comparisons see the same outlines, agree where a task of the family ends,
and go on to tasks of the family; the relation between what they record has to be kept by the
rules. Then the two comparisons are abreast on every task of the family. -/
namespace DocDelta.Diff
open Heap

/-! ### Steps -/

section Steps
variable (h : Heap) (o : Options)

/-- A step from a task at a place to one below it: to a field, or to what is under a key. -/
inductive Into : Task → Label → Task → Label → Prop
  | field {x y : Value} {path : Label} {fs : List (Field × Label)} {p : Field × Label}
      (hc : (h.view x).cls = (h.view y).cls) (hk : (h.view x).kind = .record)
      (hf : activeFields h o x y path = .ok fs) (hp : p ∈ fs) :
      Into (.compare x y) path (.compare (h.fieldValue x p.1.name) (h.fieldValue y p.1.name)) p.2
  | key {x y u w key : Value} {path l : Label} {as bs : List (Value × Value)} {keys : List Value}
      (hc : (h.view x).cls = (h.view y).cls) (hk : (h.view x).kind = .mapping)
      (ha : h.entries? (h.view x) = some as) (hb : h.entries? (h.view y) = some bs)
      (hu : unionKeys h as bs = .ok keys) (hm : key ∈ keys) (hl : (h.view key).label? = some l)
      (hi : ignoresKey h o path key = false) (hx : valueUnder h key as = .ok u)
      (hy : valueUnder h key bs = .ok w) : Into (.compare x y) path (.compare u w) (joinPath path l)
  | addedField {v : Value} {path : Label} {fs : List (Field × Label)} {p : Field × Label}
      (hr : (h.view v).isRecord = true) (hf : activeFields h o v .nil path = .ok fs) (hp : p ∈ fs) :
      Into (.addFields v) path (.add (h.fieldValue v p.1.name)) p.2
  | removedField {v : Value} {path : Label} {fs : List (Field × Label)} {p : Field × Label}
      (hr : (h.view v).isRecord = true) (hf : activeFields h o v .nil path = .ok fs) (hp : p ∈ fs) :
      Into (.removeFields v) path (.remove (h.fieldValue v p.1.name)) p.2
  | removedEntry {v : Value} {path l : Label} {es : List (Value × Value)} {e : Value × Value}
      (hz : h.isZero v = .ok false) (hr : (h.view v).isRecord = false)
      (he : h.entries? (h.view v) = some es) (hm : e ∈ es) (hl : (h.view e.1).label? = some l)
      (hi : ignoresKey h o path e.1 = false) :
      Into (.remove v) path (.compare e.2 .nil) (joinPath path l)

/-- Whether a task goes on below its place: two records or two mappings of one class. -/
def GoesOn : Task → Prop
  | .compare x y => (h.view x).cls = (h.view y).cls ∧
      ((h.view x).kind = .record ∨ (h.view x).kind = .mapping)
  | _ => False

variable {h o}

theorem not_goesOn_of_nil {x y : Value} (hn : h.view x = .nil ∨ h.view y = .nil) :
    ¬ GoesOn h (.compare x y) := by
  rintro ⟨hc, hk⟩
  have hx : h.view x = .nil := by
    rcases hn with hx | hy
    · exact hx
    · exact cls_nil_iff.mp (hc.trans (cls_nil_iff.mpr hy))
  rw [hx] at hk
  rcases hk with hk | hk <;> cases hk

theorem not_goesOn_of_kind {x y : Value} {k : Kind} (hk : (h.view x).kind = k)
    (hr : k ≠ .record) (hm : k ≠ .mapping) : ¬ GoesOn h (.compare x y) := by
  rintro ⟨_, hg | hg⟩
  · exact hr (hk.symm.trans hg)
  · exact hm (hk.symm.trans hg)

theorem not_goesOn_of_leaf {x y : Value} (hk : (h.view x).kind.isLeaf = true) :
    ¬ GoesOn h (.compare x y) := by
  rintro ⟨_, hg | hg⟩
  all_goals
    rw [hg] at hk
    cases hk

end Steps

/-! ### What two comparisons owe -/

/-- A step of a task with what either comparison records there. -/
structure Counterpart where
  label : Label
  task : Task
  before : List Change
  after : List Change

namespace Counterpart

def allBefore (e : Counterpart) : List Change := e.before.map (·.under e.label)

def allAfter (e : Counterpart) : List Change := e.after.map (·.under e.label)

end Counterpart

/-- Some key that is no text, which no comparison gets past. -/
def Unnamed (h : Heap) (keys : List Value) : Prop := ∃ key ∈ keys, (h.view key).label? = none

/-- Going through keys fails at one that is no text, if not before. -/
theorem fails_unnamed {h : Heap} {o : Options} {path : Label} {keys : List Value}
    (hu : Unnamed h keys) (body : Value → Label → Walk Unit) (s : State) :
    ∃ e t, (keys.forM fun key => do
      match ← ask (keyPath h o path key) with
      | none => return ()
      | some subpath => body key subpath : Walk Unit).run s = (.error e, t) := by
  obtain ⟨key, hm, hl⟩ := hu
  refine forM_fails hm (fun s => ⟨.unsupportedKey path key, s, ?_⟩) s
  rw [run_bind, run_ask, keyPath, hl]

/-- The entries of two mappings as either heap tells them: the same keys, with the same values
under those that are not passed over. -/
def KeysAlike (lax : Prop) (h h' : Heap) (o : Options) (path : Label)
    (as bs as' bs' : List (Value × Value)) : Prop :=
  (lax ∨ unionKeys h' as' bs' = unionKeys h as bs) ∧
  ∀ keys keys', unionKeys h as bs = .ok keys → unionKeys h' as' bs' = .ok keys' →
    (keys' = keys ∧ ∀ key ∈ keys, ignoresKey h o path key = false →
      valueUnder h' key as' = valueUnder h key as ∧ valueUnder h' key bs' = valueUnder h key bs) ∨
    lax ∧ (Unnamed h keys ∨ Unnamed h keys')

/-- The same keys in order, with the same values unless the key is passed over. -/
def EntriesAlike (h : Heap) (o : Options) (path : Label) (es es' : List (Value × Value)) : Prop :=
  List.Forall₂ (fun e e' => e'.1 = e.1 ∧ (ignoresKey h o path e.1 = true ∨ e'.2 = e.2)) es es'

/-- Two comparisons, in two heaps and under two options, that go the same way on the tasks of
a family `P`; `T` relates what they record. -/
structure Parallel (lax : Prop) (h h' : Heap) (o o' : Options) (P : Task → Label → Prop)
    (T : Task → Label → List Change → List Change → Prop) : Prop where
  outline : ∀ v, (h'.view v).outline = (h.view v).outline
  identity : ∀ v : Value, v.identity h' = v.identity h
  ignores : ∀ names, o'.ignores h' names = o.ignores h names
  /-- The family is left by no step. -/
  becomes : ∀ {task next path}, P task path → Becomes h task next → P next path
  into : ∀ {task path next place}, P task path → Into h o task path next place → P next place
  /-- The steps lead to the same values. -/
  field : ∀ {x y path fs p}, P (.compare x y) path → (h.view x).cls = (h.view y).cls →
    (h.view x).kind = .record → activeFields h o x y path = .ok fs → p ∈ fs →
    h'.fieldValue x p.1.name = h.fieldValue x p.1.name ∧
    h'.fieldValue y p.1.name = h.fieldValue y p.1.name
  own : ∀ {v path fs p}, (h.view v).isRecord = true → activeFields h o v .nil path = .ok fs →
    p ∈ fs → h'.fieldValue v p.1.name = h.fieldValue v p.1.name
  entries : ∀ v path, Option.Rel (EntriesAlike h o path) (h.entries? (h.view v)) (h'.entries? (h'.view v))
  keys : ∀ {x y path as bs as' bs'}, P (.compare x y) path →
    h.entries? (h.view x) = some as → h.entries? (h.view y) = some bs →
    h'.entries? (h'.view x) = some as' → h'.entries? (h'.view y) = some bs' →
    KeysAlike lax h h' o path as bs as' bs'
  /-- The tasks that end do so alike. -/
  scalars : ∀ {x y path}, P (.compare x y) path → h.view x ≠ .nil → h.view y ≠ .nil →
    (h.view x).cls = (h.view y).cls → (h.view x).kind.isLeaf = true →
    Abreast lax path (T (.compare x y) path) (diffScalars h o x y path) (diffScalars h' o' x y path)
  sequences : ∀ {x y path}, P (.compare x y) path → h.view x ≠ .nil → h.view y ≠ .nil →
    (h.view x).cls = (h.view y).cls → (h.view x).kind = .sequence →
    Abreast lax path (T (.compare x y) path)
      (diffSequences h o.strategy x y path) (diffSequences h' o'.strategy x y path)
  removes : ∀ {v path}, P (.remove v) path → h'.isZero v = h.isZero v ∨ ∀ n,
    Abreast lax path (T (.remove v) path) (diffRemoved h o n v path) (diffRemoved h' o' n v path)
  /-- The relation is kept by the rules. -/
  settled : ∀ {task path cs}, P task path → Settles h o task cs → ¬ GoesOn h task →
    (∀ x y, task = .compare x y → h.view x = .nil ∨ h.view y = .nil) → T task path cs cs
  turned : ∀ {task next path cs ds}, Becomes h task next → T next path cs ds → T task path cs ds
  descended : ∀ {task path} (es : List Counterpart),
    Descends h o path task (es.map fun e => (e.label, e.task)) →
    (∀ e ∈ es, T e.task (joinPath path e.label) e.before e.after) →
    T task path (es.flatMap Counterpart.allBefore) (es.flatMap Counterpart.allAfter)

namespace Parallel
variable {lax : Prop} {h h' : Heap} {o o' : Options} {P : Task → Label → Prop}
  {T : Task → Label → List Change → List Change → Prop}
  (hp : Parallel lax h h' o o' P T) {path : Label}
include hp

theorem cls (v : Value) : (h'.view v).cls = (h.view v).cls := by
  rw [← Object.cls_outline, hp.outline, Object.cls_outline]

theorem kind (v : Value) : (h'.view v).kind = (h.view v).kind := by
  rw [← Object.kind_outline, hp.outline, Object.kind_outline]

theorem isNil (v : Value) : (h'.view v).isNil = (h.view v).isNil := by
  rw [← Object.isNil_outline, hp.outline, Object.isNil_outline]

theorem isRecord (v : Value) : (h'.view v).isRecord = (h.view v).isRecord := by
  rw [← Object.isRecord_outline, hp.outline, Object.isRecord_outline]

theorem zero? (v : Value) : (h'.view v).zero? = (h.view v).zero? := by
  rw [← Object.zero?_outline, hp.outline, Object.zero?_outline]

theorem label? (v : Value) : (h'.view v).label? = (h.view v).label? := by
  rw [← Object.label?_outline, hp.outline, Object.label?_outline]

theorem pairOf (x y : Value) : Diff.pairOf h' x y = Diff.pairOf h x y := by
  unfold Diff.pairOf
  rw [hp.identity, hp.identity]

theorem activeFields (x y : Value) (path : Label) :
    Diff.activeFields h' o' x y path = Diff.activeFields h o x y path := by
  have hfields : (h'.view x).fields? [h'.view y] = (h.view x).fields? [h.view y] := by
    rw [← Object.fields?_outline, ← Object.fields?_outline (h.view x), hp.outline]
    simp only [List.map_cons, List.map_nil, hp.outline]
  unfold Diff.activeFields
  simp only [hfields, hp.ignores]

theorem keyPath (path : Label) (key : Value) : Diff.keyPath h' o' path key = Diff.keyPath h o path key := by
  unfold Diff.keyPath
  simp only [hp.label?, hp.ignores]

/-- Going through fields. -/
theorem fields {root : Task} {x y : Value} {task : String → Task}
    {body body' : Field × Label → Walk Unit}
    (hd : ∀ steps, ByField h o x y path task steps → Descends h o path root steps)
    (hbody : ∀ fs, Diff.activeFields h o x y path = .ok fs → ∀ p ∈ fs,
      Abreast lax p.2 (T (task p.1.name) p.2) (body p) (body' p)) :
    Abreast lax path (T root path) (ask (Diff.activeFields h o x y path) >>= (·.forM body))
      (ask (Diff.activeFields h' o' x y path) >>= (·.forM body')) := by
  refine abreast_ask (.inr (hp.activeFields x y path)) fun fs fs' hfs hfs' => ?_
  obtain rfl : fs' = fs := Except.ok.inj (hfs'.symm.trans ((hp.activeFields x y path).trans hfs))
  refine (abreast_forM (fun _ => false) (fun (p : Field × Label) (e : Counterpart) =>
    (e.label, e.task) = (.plain p.1.external, task p.1.name) ∧
      T e.task (joinPath path e.label) e.before e.after)
    Counterpart.allBefore Counterpart.allAfter nofun ?_).imp ?_
  · intro p hm _
    obtain ⟨_, _, _, hsub, _⟩ := mem_activeFields hfs hm
    have hstep := hbody fs' hfs p hm
    rw [hsub] at hstep
    refine hstep.under.imp ?_
    rintro _ _ ⟨cs, ds, hT, rfl, rfl⟩
    exact ⟨⟨.plain p.1.external, task p.1.name, cs, ds⟩, ⟨rfl, hT⟩, rfl, rfl⟩
  · rintro _ _ ⟨es, hes, rfl, rfl⟩
    have hall : (fs'.filter fun _ => !false) = fs' := List.filter_eq_self.mpr fun _ _ => rfl
    rw [hall] at hes
    have hsteps : es.map (fun e => (e.label, e.task)) =
        fs'.map fun p => (.plain p.1.external, task p.1.name) :=
      forall₂_eq_map (List.forall₂_map_right_iff.mpr (hes.imp fun _ _ hq => hq.1))
    refine hp.descended es (hd _ ⟨fs', hfs, hsteps⟩) fun e he => ?_
    obtain ⟨_, _, _, hT⟩ := forall₂_right hes he
    exact hT

/-- Going through keys, some of which are passed over. -/
theorem through {α : Type} {root : Task} (key : α → Value) (Q : α → Task → Prop) {xs : List α}
    {body body' : α → Label → Walk Unit}
    (hd : ∀ steps, List.Forall₂ (fun x step => (h.view (key x)).label? = some step.1 ∧ Q x step.2)
      (xs.filter fun x => !ignoresKey h o path (key x)) steps → Descends h o path root steps)
    (hbody : ∀ x ∈ xs, ∀ l, (h.view (key x)).label? = some l → ignoresKey h o path (key x) = false →
      Abreast lax (joinPath path l) (fun cs ds => ∃ task, Q x task ∧ T task (joinPath path l) cs ds)
        (body x (joinPath path l)) (body' x (joinPath path l))) :
    Abreast lax path (T root path)
      (xs.forM fun x => do
        match ← ask (Diff.keyPath h o path (key x)) with
        | none => return ()
        | some subpath => body x subpath)
      (xs.forM fun x => do
        match ← ask (Diff.keyPath h' o' path (key x)) with
        | none => return ()
        | some subpath => body' x subpath) := by
  refine (abreast_forM (fun x => ignoresKey h o path (key x)) (fun x (e : Counterpart) =>
    ((h.view (key x)).label? = some e.label ∧ Q x e.task) ∧
      T e.task (joinPath path e.label) e.before e.after)
    Counterpart.allBefore Counterpart.allAfter ?_ ?_).imp ?_
  · intro x _ hs
    refine abreast_ask (.inr (hp.keyPath path (key x))) fun a a' ha ha' => ?_
    obtain rfl : a' = a := Except.ok.inj (ha'.symm.trans ((hp.keyPath path (key x)).trans ha))
    cases hl : (h.view (key x)).label? with
    | none =>
      rw [ignoresKey, hl] at hs
      cases hs
    | some l =>
      rw [keyPath_label hl, hs] at ha
      cases ha
      exact abreast_pure ⟨rfl, rfl⟩
  · intro x hx hs
    refine abreast_ask (.inr (hp.keyPath path (key x))) fun a a' ha ha' => ?_
    obtain rfl : a' = a := Except.ok.inj (ha'.symm.trans ((hp.keyPath path (key x)).trans ha))
    cases hl : (h.view (key x)).label? with
    | none =>
      rw [Diff.keyPath, hl] at ha
      cases ha
    | some l =>
      rw [keyPath_label hl, hs] at ha
      cases ha
      refine (hbody x hx l hl hs).under.imp ?_
      rintro _ _ ⟨cs, ds, ⟨task, hq, hT⟩, rfl, rfl⟩
      exact ⟨⟨l, task, cs, ds⟩, ⟨⟨rfl, hq⟩, hT⟩, rfl, rfl⟩
  · rintro _ _ ⟨es, hes, rfl, rfl⟩
    refine hp.descended es
      (hd _ (List.forall₂_map_right_iff.mpr (hes.imp fun _ _ hq => hq.1))) fun e he => ?_
    obtain ⟨_, _, _, hT⟩ := forall₂_right hes he
    exact hT

/-- Each function of the comparison, given so many steps, is abreast on the family. -/
structure Alongside (lax : Prop) (h h' : Heap) (o o' : Options) (P : Task → Label → Prop)
    (T : Task → Label → List Change → List Change → Prop) (n : Nat) : Prop where
  values : ∀ {x y path}, P (.compare x y) path →
    Abreast lax path (T (.compare x y) path) (diffValues h o n x y path) (diffValues h' o' n x y path)
  pointers : ∀ {x y path}, P (.compare x y) path →
    Abreast lax path (T (.compare x y) path) (diffPointers h o n x y path) (diffPointers h' o' n x y path)
  structs : ∀ {x y path}, P (.compare x y) path → (h.view x).cls = (h.view y).cls →
    (h.view x).kind = .record →
    Abreast lax path (T (.compare x y) path) (diffStructs h o n x y path) (diffStructs h' o' n x y path)
  mappings : ∀ {x y path}, P (.compare x y) path → (h.view x).cls = (h.view y).cls →
    (h.view x).kind = .mapping →
    Abreast lax path (T (.compare x y) path) (diffMappings h o n x y path) (diffMappings h' o' n x y path)
  addFields : ∀ {v path}, P (.addFields v) path → (h.view v).isRecord = true →
    Abreast lax path (T (.addFields v) path) (addStructFields h o n v path) (addStructFields h' o' n v path)
  added : ∀ {v path}, P (.add v) path →
    Abreast lax path (T (.add v) path) (diffAdded h o n v path) (diffAdded h' o' n v path)
  removeFields : ∀ {v path}, P (.removeFields v) path → (h.view v).isRecord = true →
    Abreast lax path (T (.removeFields v) path)
      (unsetStructFields h o n v path) (unsetStructFields h' o' n v path)
  removed : ∀ {v path}, P (.remove v) path →
    Abreast lax path (T (.remove v) path) (diffRemoved h o n v path) (diffRemoved h' o' n v path)

omit hp in
theorem alongside_zero : Alongside lax h h' o o' P T 0 where
  values _ := abreast_throw _
  pointers _ := abreast_throw _
  structs _ _ _ := abreast_throw _
  mappings _ _ _ := abreast_throw _
  addFields _ _ := abreast_throw _
  added _ := abreast_throw _
  removeFields _ _ := abreast_throw _
  removed _ := abreast_throw _

/-- A task that ends with one record. -/
theorem settle {task : Task} {f : Patch → Patch} {c : Change} (ht : P task path)
    (hs : Settles h o task [c]) (hg : ¬ GoesOn h task)
    (hn : ∀ x y, task = .compare x y → h.view x = .nil ∨ h.view y = .nil)
    (hf : ∀ p n, (f p, n) = replay path (p, n) c) :
    Abreast lax path (T task path) (onPatch f) (onPatch f) :=
  abreast_onPatch (hp.settled ht hs hg hn) hf hf

/-- A task that ends with nothing recorded. -/
theorem rest {task : Task} (ht : P task path) (hs : Settles h o task []) (hg : ¬ GoesOn h task)
    (hn : ∀ x y, task = .compare x y → h.view x = .nil ∨ h.view y = .nil) :
    Abreast lax path (T task path) (pure ()) (pure ()) := abreast_pure (hp.settled ht hs hg hn)

theorem turn {task next : Task} {m m' : Walk Unit} (hb : Becomes h task next)
    (hm : Abreast lax path (T next path) m m') : Abreast lax path (T task path) m m' :=
  hm.imp fun _ _ => hp.turned hb

variable {n : Nat} {x y v : Value}

theorem alongside_values (ih : Alongside lax h h' o o' P T n) (ht : P (.compare x y) path) :
    Abreast lax path (T (.compare x y) path)
      (diffValues h o (n + 1) x y path) (diffValues h' o' (n + 1) x y path) := by
  by_cases hnil : h.view x = .nil ∨ h.view y = .nil
  · have hcond : ((h.view x).isNil || (h.view y).isNil) = true :=
      Bool.or_eq_true_iff.mpr (hnil.imp Object.isNil_iff.mpr Object.isNil_iff.mpr)
    rw [diffValues, diffValues]
    simp only [hp.isNil, hcond, if_true]
    exact ih.pointers ht
  obtain ⟨hx, hy⟩ := not_or.mp hnil
  have hx' : h'.view x ≠ .nil := fun hn => hx ((Object.eq_nil_of_outline (hp.outline x)).mp hn)
  have hy' : h'.view y ≠ .nil := fun hn => hy ((Object.eq_nil_of_outline (hp.outline y)).mp hn)
  rw [diffValues_objects n hx hy, diffValues_objects n hx' hy', hp.cls, hp.cls, hp.kind]
  refine abreast_ite (fun _ => abreast_throw _) fun hc => ?_
  have hc := not_not.mp hc
  cases hk : (h.view x).kind with
  | record => exact abreast_visiting (hp.pairOf x y) (ih.structs ht hc hk)
  | mapping => exact abreast_visiting (hp.pairOf x y) (ih.mappings ht hc hk)
  | sequence => exact abreast_visiting (hp.pairOf x y) (hp.sequences ht hx hy hc hk)
  | _ => exact hp.scalars ht hx hy hc (by rw [hk]; rfl)

theorem alongside_pointers (ih : Alongside lax h h' o o' P T n) (ht : P (.compare x y) path) :
    Abreast lax path (T (.compare x y) path)
      (diffPointers h o (n + 1) x y path) (diffPointers h' o' (n + 1) x y path) := by
  rw [diffPointers, diffPointers]
  simp only [hp.isNil, hp.isRecord]
  by_cases hx : h.view x = .nil
  · have hone : ∀ u w, Task.compare x y = .compare u w → h.view u = .nil ∨ h.view w = .nil := by
      rintro _ _ ⟨⟩
      exact .inl hx
    have hends := not_goesOn_of_nil (y := y) (.inl hx)
    by_cases hy : h.view y = .nil
    · rw [hx, hy]
      exact hp.rest ht (.nothing hx hy) hends hone
    · rw [hx, isNil_false hy]
      refine abreast_ite (fun hb => absurd hb (by decide)) fun _ =>
        abreast_ite (fun _ => ?_) fun hb => absurd rfl hb
      refine abreast_ite (fun hr => ?_) fun hr => ?_
      · have hb : Becomes h (.compare x y) (.addFields y) := .added hx hr
        exact hp.turn hb (ih.addFields (hp.becomes ht hb) hr)
      · exact hp.settle ht (.created hx hy (Bool.eq_false_iff.mpr hr)) hends hone fun _ _ => rfl
  · rw [isNil_false hx]
    by_cases hy : h.view y = .nil
    · have hone : ∀ u w, Task.compare x y = .compare u w → h.view u = .nil ∨ h.view w = .nil := by
        rintro _ _ ⟨⟩
        exact .inr hy
      have hends := not_goesOn_of_nil (x := x) (.inr hy)
      rw [hy]
      refine abreast_ite (fun hb => absurd hb (by decide)) fun _ =>
        abreast_ite (fun hb => absurd hb (by decide)) fun _ =>
          abreast_ite (fun _ => ?_) fun hb => absurd rfl hb
      refine abreast_ite (fun hr => ?_) fun hr => ?_
      · have hb : Becomes h (.compare x y) (.removeFields x) := .removed hy hr
        exact hp.turn hb (ih.removeFields (hp.becomes ht hb) hr)
      · exact hp.settle ht (.dropped hx hy (Bool.eq_false_iff.mpr hr)) hends hone fun _ _ => rfl
    · rw [isNil_false hy]
      exact ih.values ht

theorem abreast_entriesOf {R : List Change → List Change → Prop}
    {f f' : List (Value × Value) → Walk Unit}
    (hf : ∀ es es', h.entries? (h.view v) = some es → h'.entries? (h'.view v) = some es' →
      Abreast lax path R (f es) (f' es')) :
    Abreast lax path R (ask (entriesOf h v) >>= f) (ask (entriesOf h' v) >>= f') := by
  unfold entriesOf
  have hrel := hp.entries v path
  cases he : h.entries? (h.view v) with
  | none =>
    rw [he] at hrel
    cases he' : h'.entries? (h'.view v) with
    | none => exact abreast_ask (.inr rfl) fun a a' ha ha' => nomatch ha
    | some es' =>
      rw [he'] at hrel
      cases hrel
  | some es =>
    rw [he] at hrel
    cases he' : h'.entries? (h'.view v) with
    | none =>
      rw [he'] at hrel
      cases hrel
    | some es' =>
      show Abreast lax path R (f es) (f' es')
      exact hf es es' he he'

theorem alongside_mappings (ih : Alongside lax h h' o o' P T n) (ht : P (.compare x y) path)
    (hc : (h.view x).cls = (h.view y).cls) (hk : (h.view x).kind = .mapping) :
    Abreast lax path (T (.compare x y) path)
      (diffMappings h o (n + 1) x y path) (diffMappings h' o' (n + 1) x y path) := by
  rw [diffMappings, diffMappings]
  refine hp.abreast_entriesOf fun as as' ha ha' => hp.abreast_entriesOf fun bs bs' hb hb' => ?_
  obtain ⟨hasked, hunion⟩ := hp.keys ht ha hb ha' hb'
  refine abreast_ask hasked fun keys keys' hu hu' => ?_
  rcases hunion keys keys' hu hu' with ⟨rfl, hvalues⟩ | ⟨hl, hun | hun⟩
  · refine hp.through id (fun key task => ∃ u w, valueUnder h key as = .ok u ∧
      valueUnder h key bs = .ok w ∧ task = .compare u w)
      (fun steps hs => .mappings hc hk ha hb hu hs) fun key hm l hl hi => ?_
    obtain ⟨hxs, hys⟩ := hvalues key hm hi
    refine abreast_ask (.inr hxs) fun u u' hu₁ hu₂ => ?_
    obtain rfl : u' = u := Except.ok.inj (hu₂.symm.trans (hxs.trans hu₁))
    refine abreast_ask (.inr hys) fun w w' hw₁ hw₂ => ?_
    obtain rfl : w' = w := Except.ok.inj (hw₂.symm.trans (hys.trans hw₁))
    have hnext := hp.into ht (.key hc hk ha hb hu hm hl hi hu₁ hw₁)
    exact (ih.values hnext).imp fun _ _ hT => ⟨_, ⟨_, _, hu₁, hw₁, rfl⟩, hT⟩
  · exact abreast_of_fails hl (fails_unnamed hun _)
  · obtain ⟨key, hm, hlabel⟩ := hun
    have hun : Unnamed h' keys' := ⟨key, hm, (hp.label? key).trans hlabel⟩
    exact abreast_of_fails_second hl (fails_unnamed hun _)

theorem alongside_added (ih : Alongside lax h h' o o' P T n) (ht : P (.add v) path) :
    Abreast lax path (T (.add v) path) (diffAdded h o (n + 1) v path) (diffAdded h' o' (n + 1) v path) := by
  rw [diffAdded, diffAdded]
  simp only [hp.isNil, hp.isRecord, hp.zero?]
  have hadd : ∀ x y, Task.add v = .compare x y → h.view x = .nil ∨ h.view y = .nil := by
    intro x y he
    cases he
  refine abreast_ite (fun hv => ?_) fun hv => ?_
  · exact hp.rest ht (.unadded (Object.isNil_iff.mp hv)) not_false hadd
  have hv : h.view v ≠ .nil := fun hn => hv (Object.isNil_iff.mpr hn)
  refine abreast_ite (fun hr => ?_) fun hr => ?_
  · have hb : Becomes h (.add v) (.addFields v) := .addedFields hr
    exact hp.turn hb (ih.addFields (hp.becomes ht hb) hr)
  have hr := Bool.eq_false_iff.mpr hr
  cases hz : (h.view v).zero? with
  | none => exact hp.settle ht (.whole hv hr hz) not_false hadd fun _ _ => rfl
  | some z =>
    have hb : Becomes h (.add v) (.compare (.inline z) v) := .fromZero hr hz
    exact hp.turn hb (ih.values (hp.becomes ht hb))

/-- Going through the entries of a removed mapping, side by side. -/
theorem alongside_entries {es es' : List (Value × Value)} (ih : Alongside lax h h' o o' P T n)
    (ht : P (.remove v) path) (hz : h.isZero v = .ok false) (hr : (h.view v).isRecord = false)
    (he : h.entries? (h.view v) = some es) (hes : EntriesAlike h o path es es') :
    Abreast lax path (T (.remove v) path)
      (es.forM fun (key, item) => do
        match ← ask (Diff.keyPath h o path key) with
        | none => return ()
        | some subpath => diffValues h o n item .nil subpath)
      (es'.forM fun (key, item) => do
        match ← ask (Diff.keyPath h' o' path key) with
        | none => return ()
        | some subpath => diffValues h' o' n item .nil subpath) := by
  obtain ⟨zs, rfl, rfl, hzs⟩ : ∃ zs : List ((Value × Value) × Value × Value),
      es = zs.map Prod.fst ∧ es' = zs.map Prod.snd ∧ ∀ z ∈ zs,
        z.2.1 = z.1.1 ∧ (ignoresKey h o path z.1.1 = true ∨ z.2.2 = z.1.2) := by
    obtain ⟨hlength, halike⟩ := List.forall₂_iff_zip.mp hes
    exact ⟨es.zip es', (List.map_fst_zip (Nat.le_of_eq hlength)).symm,
      (List.map_snd_zip (Nat.le_of_eq hlength.symm)).symm, fun z hm => halike hm⟩
  rw [forM_map, forM_map]
  have hsame : (zs.forM fun z => do
        match ← ask (Diff.keyPath h' o' path z.2.1) with
        | none => return ()
        | some subpath => diffValues h' o' n z.2.2 .nil subpath) =
      (zs.forM fun z => do
        match ← ask (Diff.keyPath h' o' path z.1.1) with
        | none => return ()
        | some subpath => diffValues h' o' n z.2.2 .nil subpath) :=
    forM_congr fun z hm => by rw [(hzs z hm).1]
  refine hsame ▸ hp.through (fun z : (Value × Value) × Value × Value => z.1.1)
    (fun z task => task = .compare z.1.2 .nil) (fun steps hs => ?_) fun z hm l hl hi => ?_
  · refine .emptied hz hr he ?_
    rw [List.filter_map]
    exact List.forall₂_map_left_iff.mpr hs
  · rw [(hzs z hm).2.resolve_left (by simp [hi])]
    have hnext := hp.into ht (.removedEntry hz hr he (List.mem_map_of_mem hm) hl hi)
    exact (ih.values hnext).imp fun _ _ hT => ⟨_, rfl, hT⟩

theorem alongside_removed (ih : Alongside lax h h' o o' P T n) (ht : P (.remove v) path) :
    Abreast lax path (T (.remove v) path)
      (diffRemoved h o (n + 1) v path) (diffRemoved h' o' (n + 1) v path) := by
  rcases hp.removes ht with hzero | hsilent
  swap
  · exact hsilent (n + 1)
  rw [diffRemoved, diffRemoved, hzero]
  refine abreast_ask (.inr rfl) fun zero zero' hz hz' => ?_
  obtain rfl : zero' = zero := Except.ok.inj (hz'.symm.trans hz)
  have hremove : ∀ x y, Task.remove v = .compare x y → h.view x = .nil ∨ h.view y = .nil := by
    intro x y he
    cases he
  cases zero' with
  | true => exact hp.rest ht (.unremoved hz) not_false hremove
  | false =>
    simp only [hp.isRecord]
    refine abreast_ite (fun hb => absurd hb (by decide)) fun _ => ?_
    refine abreast_ite (fun hr => ?_) fun hr => ?_
    · have hb : Becomes h (.remove v) (.removeFields v) := .removedFields hz hr
      exact hp.turn hb (ih.removeFields (hp.becomes ht hb) hr)
    have hr := Bool.eq_false_iff.mpr hr
    have hrel := hp.entries v path
    cases he : h.entries? (h.view v) with
    | none =>
      rw [he] at hrel
      generalize h'.entries? (h'.view v) = found at hrel
      cases hrel
      exact hp.settle ht (.removed hz hr he) not_false hremove fun _ _ => rfl
    | some es =>
      rw [he] at hrel
      generalize h'.entries? (h'.view v) = found at hrel
      cases hrel with
      | some hes => exact hp.alongside_entries ih ht hz hr he hes

theorem alongside (n : Nat) : Alongside lax h h' o o' P T n := by
  induction n with
  | zero => exact alongside_zero
  | succ n ih =>
    exact {
      values := hp.alongside_values ih
      pointers := hp.alongside_pointers ih
      structs := fun {x y path} ht hc hk => by
        rw [diffStructs, diffStructs]
        refine hp.fields (fun steps hf => .records hc hk hf) fun fs hfs p hm => ?_
        obtain ⟨hx, hy⟩ := hp.field ht hc hk hfs hm
        dsimp only
        rw [hx, hy]
        exact ih.values (hp.into ht (.field hc hk hfs hm))
      mappings := hp.alongside_mappings ih
      addFields := fun {v path} ht hr => by
        rw [addStructFields, addStructFields]
        refine abreast_visiting (hp.pairOf v .nil)
          (hp.fields (fun steps hf => .added hr hf) fun fs hfs p hm => ?_)
        dsimp only
        rw [hp.own hr hfs hm]
        exact ih.added (hp.into ht (.addedField hr hfs hm))
      added := hp.alongside_added ih
      removeFields := fun {v path} ht hr => by
        rw [unsetStructFields, unsetStructFields]
        refine abreast_visiting (hp.pairOf v .nil)
          (hp.fields (fun steps hf => .removed hr hf) fun fs hfs p hm => ?_)
        dsimp only
        rw [hp.own hr hfs hm]
        exact ih.removed (hp.into ht (.removedField hr hfs hm))
      removed := hp.alongside_removed ih }

end Parallel
end DocDelta.Diff
