import DocDelta.Proofs.Diff.ConflictFree
import DocDelta.Proofs.Diff.Termination
import DocDelta.Proofs.Diff.Tests

/-! Comparisons further down.

A path is seen from a base by putting the base before it, and what is recorded at paths, or fails
at one, is seen from the base path by path. Every operation of a patch commutes with that, since
the base keeps paths distinct, and so does every step of a comparison that ignores nothing: so a
comparison that starts at a base does what one at the root does, seen from the base. -/
namespace DocDelta
open Diff Heap

/-! ### Seen from a base -/

namespace Label

/-- A path seen from a base, which is where the empty path lies. -/
def rebase (base path : Label) : Label :=
  if path.text.isEmpty then base else .plain (base.text ++ "." ++ path.text)

variable {base : Label}

theorem text_rebase {path : Label} (hp : path.text ≠ "") :
    (base.rebase path).text = base.text ++ "." ++ path.text := by
  rw [rebase, if_neg fun he => hp (String.isEmpty_iff.mp he)]
  rfl

/-- Paths that differ differ from the base. -/
theorem text_rebase_inj {p q : Label} :
    (base.rebase p).text = (base.rebase q).text ↔ p.text = q.text := by
  have hlonger : ∀ s : String, base.text ≠ base.text ++ "." ++ s := by
    intro s he
    have hlength := congrArg String.length he
    simp only [String.length_append] at hlength
    have : ".".length = 1 := rfl
    omega
  by_cases hp : p.text = "" <;> by_cases hq : q.text = ""
  · simp [rebase, hp, hq]
  · rw [text_rebase hq, rebase, if_pos (String.isEmpty_iff.mpr hp), hp]
    exact iff_of_false (hlonger _) fun he => hq he.symm
  · rw [text_rebase hp, rebase, if_pos (String.isEmpty_iff.mpr hq), hq]
    exact iff_of_false (fun he => hlonger _ he.symm) hp
  · rw [text_rebase hp, text_rebase hq]
    exact String.append_right_inj _

end Label

/-- A failure seen from a base: the place it names is. -/
def Fault.rebase (base : Label) : Fault → Fault
  | .classMismatch path c d => .classMismatch (base.rebase path) c d
  | .unsupportedKey path key => .unsupportedKey (base.rebase path) key
  | .cycle path => .cycle (base.rebase path)
  | fault => fault

def Group.rebase (base : Label) (g : Group) : Group :=
  { g with fields := g.fields.map fun f => (base.rebase f.1, f.2) }

def Mark.rebase (base : Label) : Mark → Mark
  | .label path => .label (base.rebase path)
  | .other v => .other v

def Metadata.rebase (base : Label) (m : Metadata) : Metadata :=
  { m with
    fieldsChanged := m.fieldsChanged.map (·.rebase base)
    operationTypes := m.operationTypes.map fun e => (e.1.rebase base, e.2) }

/-- A patch seen from a base: the paths it records are; values and filters name no path. -/
def Patch.rebase (base : Label) (p : Patch) : Patch :=
  { p with groups := p.groups.map (·.rebase base), metadata := p.metadata.rebase base }

/-! ### Operations -/

section Operations
variable {base path : Label} {operator : Operator} {v : Value}

theorem Group.has_rebase (g : Group) :
    (g.rebase base).has (base.rebase path).text = g.has path.text := by
  simp only [Group.has, Group.rebase, List.any_map, Function.comp_def]
  congr 1
  funext f
  exact Bool.eq_iff_iff.mpr (by simp [Label.text_rebase_inj])

theorem Group.put_rebase (g : Group) :
    (g.put path v).rebase base = (g.rebase base).put (base.rebase path) v := by
  unfold Group.put
  rw [has_rebase]
  by_cases hg : g.has path.text
  · simp only [hg, if_true, Group.rebase, List.map_map]
    congr 1
    refine List.map_congr_left fun f _ => ?_
    by_cases hf : f.1.text = path.text <;> simp [hf, Label.text_rebase_inj]
  · simp [hg, Group.rebase]

theorem Group.erase_rebase (g : Group) :
    (g.erase path.text).rebase base = (g.rebase base).erase (base.rebase path).text := by
  simp only [Group.erase, Group.rebase, List.filter_map, Function.comp_def]
  congr 2
  refine List.filter_congr fun f _ => ?_
  exact Bool.eq_iff_iff.mpr (by simp [Label.text_rebase_inj])

theorem Patch.release_rebase (groups : List Group) :
    (release operator path.text groups).map (·.rebase base) =
      release operator (base.rebase path).text (groups.map (·.rebase base)) := by
  unfold release
  rw [List.map_filterMap, List.filterMap_map]
  refine List.filterMap_congr fun g _ => ?_
  simp only [Function.comp_apply, Group.has_rebase]
  have hoperator : (g.rebase base).operator = g.operator := rfl
  rw [hoperator, ← Group.erase_rebase]
  split
  · rfl
  · have hempty : ((g.erase path.text).rebase base).fields.isEmpty =
        (g.erase path.text).fields.isEmpty := by
      simp [Group.rebase]
    simp only [hempty]
    split <;> rfl

theorem Patch.putUnder_rebase (groups : List Group) :
    (putUnder operator path v groups).map (·.rebase base) =
      putUnder operator (base.rebase path) v (groups.map (·.rebase base)) := by
  have hoperator : ∀ g : Group, (g.rebase base).operator = g.operator := fun _ => rfl
  unfold putUnder
  rw [List.any_map]
  simp only [Function.comp_def, hoperator]
  split
  · simp only [List.map_map]
    refine List.map_congr_left fun g _ => ?_
    simp only [Function.comp_apply, hoperator]
    split
    · exact Group.put_rebase g
    · rfl
  · simp [Group.rebase]

theorem Mark.isText_rebase (m : Mark) :
    (m.rebase base).isText (base.rebase path).text = m.isText path.text := by
  cases m with
  | label l => exact Bool.eq_iff_iff.mpr (by simp [isText, rebase, Label.text_rebase_inj])
  | other v => rfl

theorem Metadata.record_rebase (m : Metadata) (operator : String) :
    (m.record path operator).rebase base = (m.rebase base).record (base.rebase path) operator := by
  have htype : (m.rebase base).hasType (base.rebase path).text = m.hasType path.text := by
    simp only [hasType, rebase, List.any_map, Function.comp_def, Mark.isText_rebase]
  unfold record
  rw [htype]
  by_cases ht : m.hasType path.text
  · simp only [ht, if_true, rebase, List.map_map]
    congr 1
    refine List.map_congr_left fun e _ => ?_
    simp only [Function.comp_apply, Mark.isText_rebase]
    split <;> rfl
  · simp [ht, rebase, Mark.rebase]

namespace Patch
variable (p : Patch)

theorem addOperation_rebase :
    (p.addOperation operator path v).rebase base =
      (p.rebase base).addOperation operator (base.rebase path) v := by
  simp only [addOperation, rebase, putUnder_rebase, release_rebase, Metadata.record_rebase]

theorem set_rebase : (p.set path v).rebase base = (p.rebase base).set (base.rebase path) v :=
  addOperation_rebase p

theorem unset_rebase : (p.unset path).rebase base = (p.rebase base).unset (base.rebase path) :=
  addOperation_rebase p

theorem push_rebase (items : List Value) :
    (p.push path items).rebase base = (p.rebase base).push (base.rebase path) items := by
  match items with
  | [] => rfl
  | [_] => exact addOperation_rebase p
  | _ :: _ :: _ => exact addOperation_rebase p

theorem addFilter_rebase (filter : Value) :
    (p.addFilter filter).rebase base = (p.rebase base).addFilter filter := rfl

end Patch
end Operations

/-! ### Walks -/

namespace Diff
variable {h : Heap} {o : Options} {base : Label}

/-- Below a base that is not empty, a name that is not empty is joined to a path in one way. -/
theorem rebase_joinPath (hb : base.text ≠ "") (path : Label) {name : Label} (hn : name.text ≠ "") :
    base.rebase (joinPath path name) = joinPath (base.rebase path) name := by
  have hbase : base.text.isEmpty = false := by simpa [String.isEmpty_iff] using hb
  have hname : name.text.isEmpty = false := by simpa [String.isEmpty_iff] using hn
  by_cases hp : path.text = ""
  · simp [joinPath, Label.rebase, hp, hbase, hname]
  · have hpath : path.text.isEmpty = false := by simpa [String.isEmpty_iff] using hp
    simp [joinPath, Label.rebase, Label.plain, hpath, String.append_assoc]

/-- A state seen from a base; what was logged may tell of other paths. -/
structure SeenFrom (base : Label) (s t : State) : Prop where
  patch : t.patch = s.patch.rebase base
  active : t.active = s.active
  old : t.old = s.old
  new : t.new = s.new
  labels : t.labels = s.labels

/-- A walk that does what another one does, seen from a base. -/
def Rebases {α : Type} (base : Label) (m k : Walk α) : Prop :=
  ∀ s t, SeenFrom base s t → (k.run t).1 = (m.run s).1.mapError (·.rebase base) ∧
    SeenFrom base (m.run s).2 (k.run t).2

section Rebases
variable {α β : Type}

theorem rebases_pure (a : α) : Rebases base (pure a : Walk α) (pure a) := fun _ _ hst => ⟨rfl, hst⟩

theorem rebases_throw (e : Fault) :
    Rebases base (throw e : Walk α) (throw (e.rebase base)) := fun _ _ hst => ⟨rfl, hst⟩

theorem rebases_bind {m k : Walk α} {f g : α → Walk β} (hm : Rebases base m k)
    (hf : ∀ a, Rebases base (f a) (g a)) : Rebases base (m >>= f) (k >>= g) := by
  intro s t hst
  rw [run_bind, run_bind]
  obtain ⟨hanswer, hstate⟩ := hm s t hst
  rcases hr : m.run s with ⟨e | a, u⟩ <;> rcases hr' : k.run t with ⟨e' | a', u'⟩
  all_goals
    rw [hr, hr'] at hanswer hstate
    cases hanswer
  · exact ⟨rfl, hstate⟩
  · exact hf a u u' hstate

theorem placeless_rebase {e : Fault} (he : e.isPlaceless = true) : e.rebase base = e := by
  cases e <;> first | rfl | cases he

/-- What a test answers does not depend on the place. -/
theorem rebases_ask {x : Except Fault α} {f g : α → Walk β} (hx : Placeless x)
    (hf : ∀ a, x = .ok a → Rebases base (f a) (g a)) :
    Rebases base (ask x >>= f) (ask x >>= g) := by
  cases x with
  | ok a => exact hf a rfl
  | error e =>
    intro s t hst
    refine ⟨?_, hst⟩
    show Except.error e = Except.error (e.rebase base)
    rw [placeless_rebase (hx e rfl)]

theorem rebases_ite {c : Prop} [Decidable c] {m k m' k' : Walk α} (hm : Rebases base m m')
    (hk : Rebases base k k') : Rebases base (if c then m else k) (if c then m' else k') := by
  split
  · exact hm
  · exact hk

theorem rebases_forM {f g : α → Walk Unit} {xs : List α} (hf : ∀ a ∈ xs, Rebases base (f a) (g a)) :
    Rebases base (xs.forM f) (xs.forM g) := by
  induction xs with
  | nil => exact rebases_pure ()
  | cons x xs ih =>
    rw [forM_cons, forM_cons]
    exact rebases_bind (hf x (List.mem_cons_self ..)) fun _ =>
      ih fun y hy => hf y (List.mem_cons_of_mem x hy)

theorem rebases_onPatch {f g : Patch → Patch} (hf : ∀ p, (f p).rebase base = g (p.rebase base)) :
    Rebases base (onPatch f) (onPatch g) := by
  intro s t hst
  refine ⟨rfl, ?_, hst.active, hst.old, hst.new, hst.labels⟩
  show g t.patch = (f s.patch).rebase base
  rw [hf, hst.patch]

theorem rebases_log (level level' : Level) (text text' : String) :
    Rebases base (log level text) (log level' text') :=
  fun _ _ hst => ⟨rfl, hst.patch, hst.active, hst.old, hst.new, hst.labels⟩

theorem rebases_nextLabel : Rebases base nextLabel nextLabel := by
  intro s t hst
  refine ⟨?_, hst.patch, hst.active, hst.old, hst.new, ?_⟩
  · show Except.ok (placeholder "elem" t.labels) = Except.ok (placeholder "elem" s.labels)
    rw [hst.labels]
  · show t.labels + 1 = s.labels + 1
    rw [hst.labels]

theorem rebases_visiting {old new : Value} {path : Label} {m k : Walk Unit}
    (hm : Rebases base m k) :
    Rebases base (visiting h old new path m) (visiting h old new (base.rebase path) k) := by
  intro s t hst
  rw [run_visiting, run_visiting, hst.active]
  cases pairOf h old new with
  | none => exact hm s t hst
  | some pair =>
    dsimp only
    split
    · exact ⟨rfl, hst⟩
    · obtain ⟨hanswer, hstate⟩ := hm { s with active := pair :: s.active }
        { t with active := pair :: s.active } ⟨hst.patch, rfl, hst.old, hst.new, hst.labels⟩
      exact ⟨hanswer, hstate.patch, congrArg (List.erase · pair) hstate.active, hstate.old, hstate.new,
        hstate.labels⟩

end Rebases

/-! ### Sequences and scalars -/

section Steps
variable {old new : Value} {path : Label}

theorem rebases_unlessEqual {m k : Walk Unit} (hm : Rebases base m k) :
    Rebases base (unlessEqual h old new m) (unlessEqual h old new k) :=
  rebases_ask (placeless_deepEqual old new) fun _ _ => rebases_ite (rebases_pure ()) hm

theorem rebases_set (v : Value) :
    Rebases base (onPatch (·.set path v)) (onPatch (·.set (base.rebase path) v)) :=
  rebases_onPatch Patch.set_rebase

theorem rebases_unset :
    Rebases base (onPatch (·.unset path)) (onPatch (·.unset (base.rebase path))) :=
  rebases_onPatch Patch.unset_rebase

theorem rebases_push (items : List Value) :
    Rebases base (onPatch (·.push path items)) (onPatch (·.push (base.rebase path) items)) :=
  rebases_onPatch fun p => Patch.push_rebase p items

theorem rebases_replaceSequence :
    Rebases base (replaceSequence h old new path) (replaceSequence h old new (base.rebase path)) :=
  rebases_unlessEqual (rebases_set new)

theorem rebases_fallBack (reason : String) :
    Rebases base (fallBack h reason old new path) (fallBack h reason old new (base.rebase path)) :=
  rebases_bind (rebases_log _ _ _ _) fun _ => rebases_replaceSequence

theorem rebases_setAt (hb : base.text ≠ "") (index : Nat) (v : Value) :
    Rebases base (setAt index v path) (setAt index v (base.rebase path)) := by
  refine rebases_bind rebases_nextLabel fun name => ?_
  refine rebases_bind (rebases_onPatch fun p => Patch.addFilter_rebase p _) fun _ => ?_
  have hname : (Label.plain ("$[" ++ name ++ "]")).text ≠ "" := by simp [Label.plain]
  rw [← rebase_joinPath hb path hname]
  exact rebases_set v

theorem rebases_appendSequence :
    Rebases base (appendSequence h old new path) (appendSequence h old new (base.rebase path)) := by
  refine rebases_unlessEqual (rebases_ask (placeless_itemsOf old) fun xs _ => ?_)
  refine rebases_ask (placeless_itemsOf new) fun ys _ => rebases_ite (rebases_fallBack _) ?_
  refine rebases_ask (placeless_firstChange 0 xs ys) fun change _ => ?_
  cases change with
  | some i => exact rebases_fallBack _
  | none => exact rebases_push _

theorem rebases_smartSequence (hb : base.text ≠ "") :
    Rebases base (smartSequence h old new path) (smartSequence h old new (base.rebase path)) := by
  refine rebases_unlessEqual (rebases_ask (placeless_itemsOf old) fun xs _ => ?_)
  refine rebases_ask (placeless_itemsOf new) fun ys _ => ?_
  refine rebases_ite (rebases_fallBack _) (rebases_ite (rebases_fallBack _) ?_)
  refine rebases_ask (placeless_changedPlaces 0 xs ys) fun changed _ => ?_
  refine rebases_ite (rebases_fallBack _) (rebases_ite ?_ ?_)
  · exact rebases_forM fun i _ => rebases_setAt hb i _
  · exact rebases_ite (rebases_push _) (rebases_fallBack _)

theorem rebases_mergeSequence (hb : base.text ≠ "") :
    Rebases base (mergeSequence h old new path) (mergeSequence h old new (base.rebase path)) := by
  refine rebases_unlessEqual (rebases_ask (placeless_itemsOf old) fun xs _ => ?_)
  refine rebases_ite (rebases_set new) (rebases_ask (placeless_itemsOf new) fun ys _ => ?_)
  refine rebases_ite rebases_unset (rebases_ite (rebases_fallBack _) ?_)
  refine rebases_ask (placeless_pairUp xs ys) fun p _ => ?_
  refine rebases_ite (rebases_fallBack _) (rebases_ite (rebases_fallBack _) ?_)
  refine rebases_ite (rebases_push _) ?_
  exact rebases_forM fun e _ => rebases_setAt hb e.1 e.2

theorem rebases_diffSequences (hb : base.text ≠ "") (strategy : Strategy) :
    Rebases base (diffSequences h strategy old new path)
      (diffSequences h strategy old new (base.rebase path)) := by
  refine rebases_unlessEqual ?_
  cases strategy with
  | replace => exact rebases_replaceSequence
  | append => exact rebases_appendSequence
  | smart => exact rebases_smartSequence hb
  | merge => exact rebases_mergeSequence hb

theorem rebases_diffScalars :
    Rebases base (diffScalars h o old new path) (diffScalars h o old new (base.rebase path)) := by
  refine rebases_unlessEqual (rebases_ask (placeless_isZeroScalar _) fun _ _ => ?_)
  refine rebases_ite ?_ (rebases_set new)
  cases o.zeros with
  | unset => exact rebases_unset
  | ignore => exact rebases_log _ _ _ _
  | set => exact rebases_set new

end Steps

/-! ### Fields and keys -/

/-- A layer of a class of the table none of whose parts has an empty name. -/
structure Named (h : Heap) (K : ClassTable) (x : Object Value) : Prop where
  follows : x.Follows K
  names : ∀ s ∈ h.partNames x, s ≠ ""

theorem named_nil (K : ClassTable) : Named h K .nil := ⟨Object.follows_nil K, nofun⟩

section Below
variable {K : ClassTable} {old new v : Value} {path : Label}

theorem Named.external (hv : Named h K (h.view v)) (hr : (h.view v).isRecord = true) :
    ∀ f ∈ (h.view v).fields, f.external ≠ "" := by
  have hnames : h.partNames (h.view v) = (h.view v).fields.map (·.external) := by
    unfold partNames
    split
    · rename_i hv
      rw [hv] at hr
      cases hr
    · rfl
  exact fun f hf => hv.names _ (hnames ▸ List.mem_map_of_mem hf)

/-- The fields of a record, taken together with those of another of its class or with nothing,
have names. -/
theorem external_ne_empty (ho : Named h K (h.view old)) (hn : Named h K (h.view new))
    (hr : (h.view old).isRecord = true)
    (hc : (h.view old).cls = (h.view new).cls ∨ new = .nil) {fs : List Field}
    (hfs : (h.view old).fields? [h.view new] = some fs) : ∀ f ∈ fs, f.external ≠ "" := by
  intro f hf
  rcases hc with hc | rfl
  · have hform := Object.form_eq ho.follows hn.follows hc
    have hrn : (h.view new).isRecord = true := by
      rw [Object.isRecord_iff, ← Object.kind_form, ← hform, Object.kind_form]
      exact Object.isRecord_iff.mp hr
    rcases (spans_both (Object.isRecord_iff.mp hr) hform hfs).2.2 f hf with hfo | hfn
    · exact ho.external hr f hfo
    · exact hn.external hrn f hfn
  · obtain rfl := Option.some.inj ((Object.fields?_nil hr).symm.trans hfs)
    exact ho.external hr f hf

/-- Going through the fields of records. -/
theorem rebases_fields (hb : base.text ≠ "") (hi : o.ignored = []) (ho : Named h K (h.view old))
    (hn : Named h K (h.view new)) (hr : (h.view old).isRecord = true)
    (hc : (h.view old).cls = (h.view new).cls ∨ new = .nil) {f : Field → Label → Walk Unit}
    (hf : ∀ field subpath, Rebases base (f field subpath) (f field (base.rebase subpath))) :
    Rebases base
      (ask (activeFields h o old new path) >>= fun fs =>
        fs.forM fun (field, subpath) => f field subpath)
      (ask (activeFields h o old new (base.rebase path)) >>= fun fs =>
        fs.forM fun (field, subpath) => f field subpath) := by
  cases hfs : (h.view old).fields? [h.view new] with
  | none =>
    have hnone : ∀ p, activeFields h o old new p = .error (.misuse .noAttributes) := fun p => by
      rw [activeFields, hfs]
    rw [hnone, hnone]
    refine rebases_ask (placeless_error rfl) fun fs he => ?_
    cases he
  | some fs =>
    rw [activeFields_all hi hfs, activeFields_all hi hfs]
    show Rebases base (List.forM _ _) (List.forM _ _)
    rw [forM_map, forM_map]
    refine rebases_forM fun field hmem => ?_
    rw [← rebase_joinPath hb path (external_ne_empty ho hn hr hc hfs field hmem)]
    exact hf field _

/-- Going through the keys of mappings. -/
theorem rebases_keyed (hb : base.text ≠ "") (hi : o.ignored = []) {key : Value}
    (hkey : ∀ l, (h.view key).label? = some l → l.text ≠ "") {f : Label → Walk Unit}
    (hf : ∀ subpath, Rebases base (f subpath) (f (base.rebase subpath))) :
    Rebases base
      (ask (keyPath h o path key) >>= fun
        | none => pure ()
        | some subpath => f subpath)
      (ask (keyPath h o (base.rebase path) key) >>= fun
        | none => pure ()
        | some subpath => f subpath) := by
  cases hl : (h.view key).label? with
  | none =>
    have hnone : ∀ p, keyPath h o p key = .error (.unsupportedKey p key) := fun p => by
      rw [keyPath, hl]
    rw [hnone, hnone]
    exact rebases_throw (.unsupportedKey path key)
  | some l =>
    rw [keyPath_all hi hl, keyPath_all hi hl]
    show Rebases base (f _) (f _)
    rw [← rebase_joinPath hb path (hkey l hl)]
    exact hf _

/-- The keys of a mapping that are texts have characters. -/
theorem key_ne_empty (hv : h.Everywhere (Named h K) v) {es : List (Value × Value)}
    (he : h.entries? (h.view v) = some es) {e : Value × Value} (hm : e ∈ es) {l : Label}
    (hl : (h.view e.1).label? = some l) : l.text ≠ "" := by
  obtain ⟨u, c, hu, hc⟩ := entries?_map he
  have hn := (hv u hu).names
  rw [hc] at hn
  exact hn _ (List.mem_filterMap.mpr ⟨e, hm, text?_of_label? hl⟩)

end Below

/-! ### The comparison -/

/-- The walks of a comparison that may take so many steps, from a base and from the root. -/
structure RebasesWithin (h : Heap) (o : Options) (K : ClassTable) (base : Label) (n : Nat) :
    Prop where
  values : ∀ {old new}, h.Everywhere (Named h K) old → h.Everywhere (Named h K) new → ∀ path,
    Rebases base (diffValues h o n old new path) (diffValues h o n old new (base.rebase path))
  pointers : ∀ {old new}, h.Everywhere (Named h K) old → h.Everywhere (Named h K) new → ∀ path,
    Rebases base (diffPointers h o n old new path) (diffPointers h o n old new (base.rebase path))
  structs : ∀ {old new}, h.Everywhere (Named h K) old → h.Everywhere (Named h K) new →
    (h.view old).cls = (h.view new).cls → (h.view old).isRecord = true → ∀ path,
    Rebases base (diffStructs h o n old new path) (diffStructs h o n old new (base.rebase path))
  mappings : ∀ {old new}, h.Everywhere (Named h K) old → h.Everywhere (Named h K) new → ∀ path,
    Rebases base (diffMappings h o n old new path) (diffMappings h o n old new (base.rebase path))
  addedFields : ∀ {v}, h.Everywhere (Named h K) v → (h.view v).isRecord = true → ∀ path,
    Rebases base (addStructFields h o n v path) (addStructFields h o n v (base.rebase path))
  added : ∀ {v}, h.Everywhere (Named h K) v → ∀ path,
    Rebases base (diffAdded h o n v path) (diffAdded h o n v (base.rebase path))
  removedFields : ∀ {v}, h.Everywhere (Named h K) v → (h.view v).isRecord = true → ∀ path,
    Rebases base (unsetStructFields h o n v path) (unsetStructFields h o n v (base.rebase path))
  removed : ∀ {v}, h.Everywhere (Named h K) v → ∀ path,
    Rebases base (diffRemoved h o n v path) (diffRemoved h o n v (base.rebase path))

section Within
variable {K : ClassTable}

theorem rebasesWithin_zero : RebasesWithin h o K base 0 := by
  constructor
  all_goals
    intros
    exact rebases_throw .tooDeep

theorem rebasesWithin_succ (hb : base.text ≠ "") (hi : o.ignored = []) {n : Nat}
    (hn : RebasesWithin h o K base n) : RebasesWithin h o K base (n + 1) where
  values {old new} hold hnew path := by
    rw [diffValues, diffValues]
    refine rebases_ite (hn.pointers hold hnew path) ?_
    by_cases hc : (h.view old).cls = (h.view new).cls
    · simp only [hc, ne_eq, not_true_eq_false, if_false]
      split
      · rename_i hk
        exact rebases_visiting (hn.structs hold hnew hc (Object.isRecord_iff.mpr hk) path)
      · exact rebases_visiting (rebases_diffSequences hb o.strategy)
      · exact rebases_visiting (hn.mappings hold hnew path)
      · exact rebases_diffScalars
    · simp only [ne_eq, hc, not_false_eq_true, if_true]
      exact rebases_throw (.classMismatch path _ _)
  pointers {old new} hold hnew path := by
    rw [diffPointers, diffPointers]
    refine rebases_ite (rebases_pure ()) (rebases_ite ?_ (rebases_ite ?_ (hn.values hold hnew path)))
    · split
      · exact hn.addedFields hnew ‹_› path
      · exact rebases_set new
    · split
      · exact hn.removedFields hold ‹_› path
      · exact rebases_unset
  structs {old new} hold hnew hc hr path := by
    rw [diffStructs, diffStructs]
    refine rebases_fields (f := fun f subpath =>
      diffValues h o n (h.fieldValue old f.name) (h.fieldValue new f.name) subpath)
      hb hi hold.here hnew.here hr (.inl hc) fun f subpath => ?_
    exact hn.values (hold.fieldValue (named_nil K) f.name) (hnew.fieldValue (named_nil K) f.name)
      subpath
  mappings {old new} hold hnew path := by
    rw [diffMappings, diffMappings]
    refine rebases_ask (placeless_entriesOf old) fun as ha => ?_
    refine rebases_ask (placeless_entriesOf new) fun bs hbs => ?_
    refine rebases_ask (placeless_unionKeys as bs) fun keys hkeys => rebases_forM fun key hkey => ?_
    have ha := entries?_of_entriesOf ha
    have hbs := entries?_of_entriesOf hbs
    refine rebases_keyed hb hi (fun l hl => ?_) fun subpath => ?_
    · rw [unionKeys_ok hkeys, List.mem_append] at hkey
      rcases hkey with hkey | hkey
      · obtain ⟨e, he, rfl⟩ := List.mem_map.mp hkey
        exact key_ne_empty hold ha he hl
      · obtain ⟨e, he, rfl⟩ := List.mem_map.mp hkey
        exact key_ne_empty hnew hbs (List.mem_filter.mp he).1 hl
    · refine rebases_ask (placeless_valueUnder key as) fun x hx => ?_
      refine rebases_ask (placeless_valueUnder key bs) fun y hy => ?_
      exact hn.values (everywhere_valueUnder hold (named_nil K) ha hx)
        (everywhere_valueUnder hnew (named_nil K) hbs hy) subpath
  addedFields {v} hv hr path := by
    rw [addStructFields, addStructFields]
    refine rebases_visiting ?_
    refine rebases_fields (f := fun f subpath => diffAdded h o n (h.fieldValue v f.name) subpath)
      hb hi hv.here (named_nil K) hr (.inr rfl) fun f subpath => ?_
    exact hn.added (hv.fieldValue (named_nil K) f.name) subpath
  added {v} hv path := by
    rw [diffAdded, diffAdded]
    refine rebases_ite (rebases_pure ()) ?_
    split
    · exact hn.addedFields hv ‹_› path
    · rename_i hr
      split
      · exact rebases_set v
      · rename_i z hz
        have hblank := Object.zero?_blank hz
        refine hn.values (everywhere_of_empty hblank.children ⟨?_, ?_⟩) hv path
        · exact hblank.follows hv.here.follows
        · rw [partNames_of_empty hblank.children (by rw [hblank.isRecord]; simpa using hr)]
          exact List.forall_mem_nil _
  removedFields {v} hv hr path := by
    rw [unsetStructFields, unsetStructFields]
    refine rebases_visiting ?_
    refine rebases_fields (f := fun f subpath => diffRemoved h o n (h.fieldValue v f.name) subpath)
      hb hi hv.here (named_nil K) hr (.inr rfl) fun f subpath => ?_
    exact hn.removed (hv.fieldValue (named_nil K) f.name) subpath
  removed {v} hv path := by
    rw [diffRemoved, diffRemoved]
    refine rebases_ask (placeless_isZero v) fun _ _ => rebases_ite (rebases_pure ()) ?_
    split
    · exact hn.removedFields hv ‹_› path
    · split
      · rename_i es hes
        refine rebases_forM fun e he => ?_
        refine rebases_keyed hb hi (fun l hl => key_ne_empty hv hes he hl) fun subpath => ?_
        exact hn.values (hv.of_within (entries?_below hes he).2.to_reflTransGen)
          (everywhere_nil (named_nil K)) subpath
      · exact rebases_unset

theorem rebasesWithin (hb : base.text ≠ "") (hi : o.ignored = []) (n : Nat) :
    RebasesWithin h o K base n := by
  induction n with
  | zero => exact rebasesWithin_zero
  | succ n ih => exact rebasesWithin_succ hb hi ih

end Within

/-- **A comparison at a base does what the one at the root does, seen from the base.** It ends the
same way, a failure naming the place below the base; and what it recorded until then is, path by
path and in the same order, what is recorded at the root, with the same filters. -/
theorem compare_rebase (h : Heap) (o : Options) (K : ClassTable) (old new : Value) (base : Label)
    (hb : base.text ≠ "") (hi : o.ignored = []) (hold : h.Everywhere (Named h K) old)
    (hnew : h.Everywhere (Named h K) new) :
    ((compare h o old new base).run .start).1 =
      ((compare h o old new (.plain "")).run .start).1.mapError (·.rebase base) ∧
    SeenFrom base ((compare h o old new (.plain "")).run .start).2
      ((compare h o old new base).run .start).2 :=
  (rebasesWithin hb hi _).values hold hnew (.plain "") .start .start ⟨rfl, rfl, rfl, rfl, rfl⟩

/-- The place at which a comparison failed. -/
def failedAt : Except Fault Unit → Option Label
  | .error (.classMismatch path ..) | .error (.unsupportedKey path _) | .error (.cycle path) => some path
  | _ => none

theorem named_ref {K : ClassTable} (hc : ∀ a < h.size, (h.view (.ref a)).Follows K ∧
    ∀ s ∈ h.partNames (h.view (.ref a)), s ≠ "") (a : Addr) : h.Everywhere (Named h K) (.ref a) :=
  everywhere_ref (named_nil K) (fun b hb => ⟨(hc b hb).1, (hc b hb).2⟩) a

theorem compare_rebase_boxes :
    "crate" ≠ "" ∧ Options.ignored ⟨[], .smart, .set, false, []⟩ = [] ∧
    (∀ a, boxes.Everywhere (Named boxes freeforms) (.ref a)) ∧
    (∀ a, rings.Everywhere (Named rings freeforms) (.ref a)) ∧
    ((compare boxes ⟨[], .smart, .set, false, []⟩ (.ref 1) (.ref 2) (.plain "crate")).run
      .start).2.patch.paths = ["crate.x", "crate.xs.$[elem0]", "crate.xs.$[elem1]"] ∧
    failedAt ((compare rings .default (.ref 1) (.ref 3) (.plain "crate")).run .start).1 =
      some (.plain "crate.next") ∧
    ((compare rings .default (.ref 1) (.ref 3) (.plain "crate")).run .start).2.patch.paths =
      ["crate.name"] := by
  have hboxes := named_ref (h := boxes) (K := freeforms) (by decide +kernel)
  have hrings := named_ref (h := rings) (K := freeforms) (by decide +kernel)
  obtain ⟨_, hcrate⟩ := compare_rebase boxes ⟨[], .smart, .set, false, []⟩ freeforms (.ref 1) (.ref 2)
    (.plain "crate") (by decide) rfl (hboxes 1) (hboxes 2)
  obtain ⟨hcycle, hring⟩ := compare_rebase rings .default freeforms (.ref 1) (.ref 3)
    (.plain "crate") (by decide) rfl (hrings 1) (hrings 3)
  refine ⟨by decide, rfl, hboxes, hrings, ?_, ?_, ?_⟩
  · rw [hcrate.patch]
    decide +kernel
  · rw [hcycle]
    decide +kernel
  · rw [hring.patch]
    decide +kernel

end Diff
end DocDelta
