import DocDelta.Proofs.Diff.Pairing
import DocDelta.Proofs.Diff.Parallel
import DocDelta.Proofs.Diff.Positions
import DocDelta.Proofs.Diff.Recorded
import DocDelta.Proofs.Diff.Repairs
import DocDelta.Proofs.Document.Likeness

/-! What a comparison takes as a whole.

A task that does not go on takes its values as they are: it compares them by deep equality, or
records the new one or items of it. Nothing else gets into a patch, so what holds of everything
taken, and of the items of a sequence that is, holds of everything recorded. -/
namespace DocDelta.Diff
open Heap Patch
variable {h : Heap} {o : Options} {D : Value → Prop} {task : Task} {cs : List Change}

/-! ### Both sides -/

/-- A property of values that passes to all that a comparison goes on to. -/
structure Passes (h : Heap) (K : ClassTable) (D : Value → Prop) : Prop where
  nil : D .nil
  follows : ∀ {v}, D v → (h.view v).Follows K
  zero : ∀ {v z}, D v → (h.view v).zero? = some z → D (.inline z)
  tells : ∀ {v w}, D v → h.Tells v w → D w

/-- What holds of both values that a task is about. -/
def OnSides (D : Value → Prop) (task : Task) : Prop := D task.sides.1 ∧ D task.sides.2

section Passes
variable {K : ClassTable} {next : Task} {path place : Label} (hd : Passes h K D)
include hd

theorem Passes.becomes (hb : Becomes h task next) (ht : OnSides D task) : OnSides D next := by
  cases hb with
  | added ho hr => exact ⟨hd.nil, ht.2⟩
  | removed hn hr => exact ⟨ht.1, hd.nil⟩
  | addedFields hr => exact ht
  | fromZero hr hz => exact ⟨hd.zero ht.2 hz, ht.2⟩
  | removedFields hz hr => exact ht

/-- A field that a record of the property is gone through by. -/
theorem Passes.field {v : Value} {fs : List Field} {f : Field} (hv : D v)
    (hk : (h.view v).kind = .record) (hs : Spans h v fs) (hf : f ∈ fs) :
    D (h.fieldValue v f.name) := by
  rcases hs.lacking f hf with hown | hnone
  · exact hd.tells hv (.field hk hown)
  · rw [fieldValue, hnone]
    exact hd.nil

theorem Passes.valueUnder {v w key : Value} {es : List (Value × Value)} (hv : D v)
    (he : h.entries? (h.view v) = some es) (hw : valueUnder h key es = .ok w) : D w := by
  obtain ⟨found, hf, hw⟩ := bind_eq_ok.mp hw
  cases hw
  cases found with
  | none => exact hd.nil
  | some w =>
    obtain ⟨e, hm, rfl⟩ := find?_mem hf
    exact hd.tells hv (.entry he hm)

theorem Passes.into (hi : Into h o task path next place) (ht : OnSides D task) :
    OnSides D next := by
  have hown : ∀ {v : Value} {fs : List (Field × Label)} {p : Field × Label}, D v →
      (h.view v).isRecord = true → activeFields h o v .nil path = .ok fs → p ∈ fs →
        D (h.fieldValue v p.1.name) := by
    intro v fs p hv hr hf hp
    obtain ⟨gs, hgs, hm, _⟩ := mem_activeFields hf hp
    obtain rfl := Option.some.inj ((Object.fields?_nil hr).symm.trans hgs)
    exact hd.tells hv (.field (Object.isRecord_iff.mp hr) hm)
  cases hi with
  | field hc hk hf hp =>
    obtain ⟨gs, hgs, hm, _⟩ := mem_activeFields hf hp
    have hform := Object.form_eq (hd.follows ht.1) (hd.follows ht.2) hc
    have hky := (Object.kind_eq (hd.follows ht.1) (hd.follows ht.2) hc).symm.trans hk
    obtain ⟨hx, hy, _⟩ := spans_both hk hform hgs
    exact ⟨hd.field ht.1 hk hx hm, hd.field ht.2 hky hy hm⟩
  | key hc hk ha hb hu hm hl hi hx hy => exact ⟨hd.valueUnder ht.1 ha hx, hd.valueUnder ht.2 hb hy⟩
  | addedField hr hf hp => exact ⟨hd.nil, hown ht.2 hr hf hp⟩
  | removedField hr hf hp => exact ⟨hown ht.1 hr hf hp, hd.nil⟩
  | removedEntry hz hr he hm hl hi => exact ⟨hd.tells ht.1 (.entry he hm), hd.nil⟩

end Passes

/-- Classes are known everywhere in what a comparison goes on to. -/
theorem passes_follows (h : Heap) (K : ClassTable) :
    Passes h K (h.Everywhere (Object.Follows K)) where
  nil := everywhere_nil (Object.follows_nil K)
  follows hv := hv.here
  zero hv hz := by
    have hb := Object.zero?_blank hz
    exact everywhere_of_empty hb.children (hb.follows hv.here)
  tells hv ht := by
    rcases ht.within with rfl | hw
    · exact everywhere_nil (Object.follows_nil K)
    · exact hv.of_within hw

/-- So is what reads alike. -/
theorem passes_readsAlike {h' : Heap} (hc : Congruent h h') (K : ClassTable) :
    Passes h K fun v => h.Everywhere (Object.Follows K) v ∧ ReadsAlike h h' v where
  nil := ⟨(passes_follows h K).nil, agrees_nil.readsAlike hc⟩
  follows hv := hv.1.here
  zero hv hz := by
    have hempty := (Object.zero?_blank hz).children
    refine ⟨(passes_follows h K).zero hv.1 hz, (agrees_inline fun w hw => ?_).readsAlike hc⟩
    rw [hempty] at hw
    cases hw
  tells hv ht := ⟨(passes_follows h K).tells hv.1 ht, hv.2.of_tells ht⟩

/-! ### Taking and carrying -/

/-- The values that a task takes as a whole. -/
inductive Takes (h : Heap) : Task → Value → Prop
  | old {x y : Value} (hx : h.view x ≠ .nil) (hy : h.view y ≠ .nil)
      (hc : (h.view x).cls = (h.view y).cls) (hg : ¬ GoesOn h (.compare x y)) :
      Takes h (.compare x y) x
  | new {x y : Value} (hx : h.view x ≠ .nil) (hy : h.view y ≠ .nil)
      (hc : (h.view x).cls = (h.view y).cls) (hg : ¬ GoesOn h (.compare x y)) :
      Takes h (.compare x y) y
  | created {x y : Value} (hx : h.view x = .nil) (hr : (h.view y).isRecord = false) :
      Takes h (.compare x y) y
  | whole {v : Value} (hr : (h.view v).isRecord = false) (hz : (h.view v).zero? = none) :
      Takes h (.add v) v

/-- What a change carries into the patch. -/
def Change.Carries (D : Value → Prop) : Change → Prop
  | .whole _ (.set v) => D v
  | .whole _ .unset => True
  | .whole _ (.push items) => ∀ v ∈ items, D v
  | .item _ _ v => D v

theorem Change.Carries.under {c : Change} (hc : c.Carries D) (l : Label) :
    (c.under l).Carries D := by
  cases c with
  | whole path action => cases action <;> exact hc
  | item path index v => exact hc

theorem Change.Carries.imp {E : Value → Prop} {c : Change} (hc : c.Carries D)
    (hde : ∀ v, D v → E v) : c.Carries E := by
  cases c with
  | whole path action =>
    cases action with
    | set v => exact hde v hc
    | unset => trivial
    | push items => exact fun v hv => hde v (hc v hv)
  | item path index v => exact hde v hc

theorem carries_pushed {items : List Value} (hi : ∀ v ∈ items, D v) :
    ∀ c ∈ pushed items, c.Carries D := by
  intro c hc
  rw [pushed] at hc
  split at hc
  · cases hc
  · rw [List.mem_singleton.mp hc]
    exact hi

theorem reconciles_carries {old new : Value} (hn : D new)
    (hi : ∀ ys, itemsOf h new = .ok ys → ∀ v ∈ ys, D v) (hr : Reconciles h o old new cs) :
    ∀ c ∈ cs, c.Carries D := by
  cases hr with
  | replaced =>
    intro c hc
    rw [List.mem_singleton.mp hc]
    exact hn
  | extended hx hy hl hs => exact carries_pushed fun v hv => hi _ hy v (List.mem_of_mem_drop hv)
  | updated hx hy hl hs =>
    intro c hc
    obtain ⟨i, hm, rfl⟩ := List.mem_map.mp hc
    have hbound := ((changedPlaces_spec hs).2.1 i hm).2.2
    rw [Nat.zero_add] at hbound
    rw [List.getElem?_eq_getElem hbound]
    exact hi _ hy _ (List.getElem_mem hbound)
  | grown hx hy hl hs => exact carries_pushed fun v hv => hi _ hy v (List.mem_of_mem_drop hv)
  | emptied hm =>
    intro c hc
    rw [List.mem_singleton.mp hc]
    trivial
  | merged hm hx hy hp =>
    intro c hc
    obtain ⟨e, he, rfl⟩ := List.mem_map.mp hc
    exact hi _ hy _ ((draws_pairUp hp).updates e he)
  | added hm hx hy hp =>
    exact carries_pushed fun v hv => hi _ hy v ((draws_pairUp hp).additions v hv)

/-- **A task that ends records what it takes**, or items of it. -/
theorem settles_carries (ht : ∀ v, Takes h task v → D v)
    (hi : ∀ x y, task = .compare x y → (h.view x).cls = (h.view y).cls →
      (h.view x).kind = .sequence → ∀ ys, itemsOf h y = .ok ys → ∀ v ∈ ys, D v)
    (hs : Settles h o task cs) : ∀ c ∈ cs, c.Carries D := by
  cases hs with
  | created ho hn hr =>
    intro c hc
    rw [List.mem_singleton.mp hc]
    exact ht _ (.created ho hr)
  | dropped ho hn hr =>
    intro c hc
    rw [List.mem_singleton.mp hc]
    trivial
  | @scalar x y ho hn hc hk he zero hz =>
    have hy : D y := ht y (.new ho hn hc (not_goesOn_of_leaf hk))
    intro c hm
    unfold scalarChanges at hm
    split at hm
    · split at hm
      · rw [List.mem_singleton.mp hm]
        trivial
      · cases hm
      · rw [List.mem_singleton.mp hm]
        exact hy
    · rw [List.mem_singleton.mp hm]
      exact hy
  | sequence ho hn hc hk he hs =>
    exact reconciles_carries (ht _ (.new ho hn hc (not_goesOn_of_kind hk nofun nofun)))
      (hi _ _ rfl hc hk) hs
  | whole hv hr hz =>
    intro c hc
    rw [List.mem_singleton.mp hc]
    exact ht _ (.whole hr hz)
  | removed hz hr he =>
    intro c hc
    rw [List.mem_singleton.mp hc]
    trivial
  | _ => exact nofun

/-- What both sides hold is all that a task takes. -/
theorem OnSides.takes {v : Value} (ht : OnSides D task) (hv : Takes h task v) : D v := by
  cases hv with
  | old => exact ht.1
  | new | created | whole => exact ht.2

/-- **What holds of both sides is carried into the patch.** -/
theorem yields_carries {K : ClassTable} {path : Label} (hd : Passes h K D)
    (hy : Yields h o task path cs) (ht : OnSides D task) : ∀ c ∈ cs, c.Carries D := by
  induction hy with
  | settles hs =>
    refine settles_carries (fun v hv => ht.takes hv) ?_ hs
    rintro x y rfl hc hk ys hys v hv
    have hky := (Object.kind_eq (hd.follows ht.1) (hd.follows ht.2) hc).symm.trans hk
    obtain ⟨zs, hzs⟩ := Object.items?_of_sequence hky
    obtain rfl := Except.ok.inj ((itemsOf_items hky hzs).symm.trans hys)
    exact hd.tells ht.2 (.item hky hzs hv)
  | becomes hb _ ih => exact ih (hd.becomes hb ht)
  | descends steps hsteps _ ih =>
    intro c hc
    obtain ⟨e, he, hc⟩ := List.mem_flatMap.mp hc
    obtain ⟨d, hm, rfl⟩ := List.mem_map.mp hc
    have hinto := descends_into hsteps (List.mem_map_of_mem he)
    exact (ih e he (hd.into hinto ht) d hm).under e.label

/-! ### Operations -/

/-- A property that what a patch is built of passes to it. -/
structure Builds (D : Value → Prop) : Prop where
  text : ∀ s, D (.text s)
  list : ∀ {vs : List Value}, (∀ v ∈ vs, D v) → D (.list vs)
  map : ∀ {es : List (Label × Value)}, (∀ e ∈ es, D e.2) →
    D (.map (es.map fun e => (e.1.value, e.2)))

theorem mem_recordsFrom {n : Nat} {r : Record} (hr : r ∈ recordsFrom n cs) :
    ∃ c ∈ cs, ∃ m, c.record? m = some r := by
  induction cs generalizing n with
  | nil => cases hr
  | cons c cs ih =>
    rcases List.mem_append.mp hr with hr | hr
    · exact ⟨c, List.mem_cons_self .., n, Option.mem_toList.mp hr⟩
    · obtain ⟨d, hd, hm⟩ := ih hr
      exact ⟨d, List.mem_cons_of_mem c hd, hm⟩

theorem Builds.record (hb : Builds D) {c : Change} {n : Nat} {r : Record} (hv : c.Carries D)
    (hr : c.record? n = some r) : D r.value := by
  cases c with
  | whole path action =>
    cases action with
    | set v =>
      cases hr
      exact hv
    | unset =>
      cases hr
      exact hb.text ""
    | push items =>
      rcases items with _ | ⟨v, _ | ⟨w, rest⟩⟩
      · cases hr
      · cases hr
        exact hv v (List.mem_cons_self ..)
      · cases hr
        have hall : ∀ e ∈ [(Label.plain "$each", Value.list (v :: w :: rest))], D e.2 :=
          List.forall_mem_singleton.mpr (hb.list hv)
        exact hb.map hall
  | item path index v =>
    cases hr
    exact hv

/-- **What holds of all that changes carry holds of the operations of their patch.** -/
theorem Builds.operations (hb : Builds D) {p : Patch} {n : Nat} (hcs : ∀ c ∈ cs, c.Carries D)
    (hp : (p, n) = replayAll (.plain "") cs (.empty, 0)) : D p.operations := by
  have hrecords := (accumulates_changes hp).1
  have hgroups : p.operations = .map ((p.groups.map fun g =>
      (g.label, Value.map (g.fields.map fun f => (f.1.value, f.2)))).map
        fun e => (e.1.value, e.2)) := by
    rw [List.map_map]
    rfl
  rw [hgroups]
  refine hb.map fun e he => ?_
  obtain ⟨g, hg, rfl⟩ := List.mem_map.mp he
  refine hb.map fun f hf => ?_
  have hentry : (g.operator, f.1.text, f.2) ∈ p.entries :=
    List.mem_flatMap.mpr ⟨g, hg, List.mem_map_of_mem hf⟩
  obtain ⟨r, hlast, _, hvalue⟩ := (mem_entries hrecords).mp hentry
  obtain ⟨c, hm, m, hr⟩ := mem_recordsFrom (lastOn_mem hlast)
  exact hvalue ▸ hb.record (hcs c hm) hr

/-- What is built of what reads alike reads alike. -/
theorem builds_readsAlike {h' : Heap} (hc : Congruent h h') : Builds (ReadsAlike h h') where
  text s :=
    have hagrees : Agrees h h' (.text s) := agrees_inline nofun
    hagrees.readsAlike hc
  list hv := readsAlike_list hv
  map he := readsAlike_map fun e hm => by
    obtain ⟨d, hd, rfl⟩ := List.mem_map.mp hm
    exact ⟨agrees_inline nofun, he d hd⟩

end DocDelta.Diff
