import DocDelta.Proofs.Diff.Separation

/-! The ways that a comparison takes into two values.

Two values that are compared are left by a field of the records that they are, or by a key of the
mappings, on both sides together; where one of them is nothing, the other alone says how. Every
step of a task is such a `Hops`, so every change is recorded at the end of a `Way` whose names are
those of its path. Where the parts of each layer have distinct names, the names leave no choice
of the way. -/
namespace DocDelta.Diff
open Heap
variable {h : Heap} {o : Options} {path : Label} {task next : Task} {x y u w : Value}

/-! ### Leaving two values -/

/-- A name by which two values are left; a field has its own name besides. -/
structure Hop where
  field? : Option String
  name : String

/-- The names under which a hop may be ignored, apart from its path. -/
def Hop.aliases (e : Hop) : List String := e.field?.toList ++ [e.name]

def Hop.ofField (f : Field) : Hop := ⟨some f.name, f.external⟩

def Hop.ofKey (s : String) : Hop := ⟨none, s⟩

/-- A field by which two records of one class are left, or a record beside nothing. -/
def MetField (h : Heap) (x y : Value) (f : Field) : Prop :=
  ((h.view x).cls = (h.view y).cls ∧ (h.view x).kind = .record ∧
    ∃ fs, (h.view x).fields? [h.view y] = some fs ∧ f ∈ fs) ∨
  (h.view x = .nil ∧ (h.view y).isRecord = true ∧ f ∈ (h.view y).fields) ∨
  (h.view y = .nil ∧ (h.view x).isRecord = true ∧ f ∈ (h.view x).fields)

/-- Two mappings of one class, or one beside nothing. -/
def MetMappings (h : Heap) (x y : Value) : Prop :=
  ((h.view x).cls = (h.view y).cls ∧ (h.view x).kind = .mapping) ∨ h.view x = .nil ∨ h.view y = .nil

/-- A mapping has a value under a text. -/
def HasKey (h : Heap) (v : Value) (s : String) (w : Value) : Prop :=
  ∃ es k, h.entries? (h.view v) = some es ∧ (k, w) ∈ es ∧ (h.view k).text? = some s

/-- What a mapping has under a text, nothing where it has no such key. -/
def Holds (h : Heap) (v : Value) (s : String) (w : Value) : Prop :=
  HasKey h v s w ∨ w = .nil ∧ ∀ x, ¬ HasKey h v s x

/-- Two values are left for two others. -/
inductive Hops (h : Heap) : Value × Value → Hop → Value × Value → Prop
  | field {x y : Value} {f : Field} (hf : MetField h x y f) :
      Hops h (x, y) (.ofField f) (h.fieldValue x f.name, h.fieldValue y f.name)
  | entry {x y u w : Value} {s : String} (hm : MetMappings h x y)
      (hk : ∃ z, HasKey h x s z ∨ HasKey h y s z) (hu : Holds h x s u) (hw : Holds h y s w) :
      Hops h (x, y) (.ofKey s) (u, w)

/-- A way into two values. -/
inductive Way (h : Heap) : Value × Value → List Hop → Prop
  | here {p : Value × Value} : Way h p []
  | down {p q : Value × Value} {e : Hop} {es : List Hop} (he : Hops h p e q) (hw : Way h q es) :
      Way h p (e :: es)

/-! ### What tasks are about -/

/-- The two values that a task is about. -/
def Task.sides : Task → Value × Value
  | .compare old new => (old, new)
  | .add v | .addFields v => (.nil, v)
  | .remove v | .removeFields v => (v, .nil)

theorem taskLabelled_sides {P : String → Prop} (hl : TaskLabelled P h task) :
    TaskLabelled P h (.compare task.sides.1 task.sides.2) := by
  cases task with
  | compare old new => exact hl
  | add v | addFields v => exact ⟨everywhere_nil labelled_nil, hl, meetLabelled_of_nil (.inl rfl)⟩
  | remove v | removeFields v =>
    exact ⟨hl, everywhere_nil labelled_nil, meetLabelled_of_nil (.inr rfl)⟩

theorem fieldValue_congr {x' : Value} (hx : h.view x = h.view x') (name : String) :
    h.fieldValue x name = h.fieldValue x' name := by
  rw [fieldValue, fieldValue, hx]

theorem not_hasKey_of_entries {s : String} (he : h.entries? (h.view x) = none) :
    ¬ HasKey h x s w := by
  rintro ⟨es, k, hes, _⟩
  rw [he] at hes
  cases hes

/-- What two values are left for depends on their layers only. -/
theorem Hops.congr {x' y' : Value} {e : Hop} {q : Value × Value} (hx : h.view x = h.view x')
    (hy : h.view y = h.view y') (hh : Hops h (x, y) e q) : Hops h (x', y') e q := by
  cases hh with
  | field hf =>
    rw [fieldValue_congr hx, fieldValue_congr hy]
    unfold MetField at hf
    rw [hx, hy] at hf
    exact .field hf
  | entry hm hk hu hw =>
    unfold MetMappings HasKey at *
    unfold Holds HasKey at *
    rw [hx, hy] at hm
    simp only [hx, hy] at hk hu hw
    exact .entry hm hk hu hw

/-- An empty value on the old side leads nowhere that nothing does not lead. -/
theorem Hops.of_blank {z : Object Value} {v : Value} {e : Hop} {q : Value × Value}
    (hz : (h.view v).zero? = some z) (hr : (h.view v).isRecord = false)
    (hh : Hops h (.inline z, v) e q) : Hops h (.nil, v) e q := by
  have hblank := Object.zero?_blank hz
  have hv : h.view v ≠ .nil := fun hn => by
    rw [hn] at hz
    cases hz
  have hzr : z.isRecord = false := hblank.isRecord.trans hr
  have hempty : ∀ {s : String} {u : Value}, ¬ HasKey h (.inline z) s u := by
    rintro s u ⟨es, k, hes, hm, _⟩
    rw [entries?_of_empty (x := .inline z) hblank.children hes] at hm
    cases hm
  cases hh with
  | field hf =>
    rcases hf with ⟨_, hk, _⟩ | ⟨_, hyr, _⟩ | ⟨hn, _⟩
    · rw [← Object.isRecord_iff, view_inline, hzr] at hk
      cases hk
    · rw [hr] at hyr
      cases hyr
    · exact absurd hn hv
  | entry hm hk hu hw =>
    obtain ⟨u, hk⟩ := hk
    rcases hu with hu | ⟨rfl, _⟩
    · exact absurd hu hempty
    · refine .entry (.inr (.inl rfl)) ⟨u, .inr (hk.resolve_left hempty)⟩ (.inr ⟨rfl, fun x => ?_⟩) hw
      exact not_hasKey_of_entries entries?_nil

/-- A task that is another one leads where that one leads. -/
theorem becomes_hops (hb : Becomes h task next) {e : Hop} {q : Value × Value}
    (hh : Hops h next.sides e q) : Hops h task.sides e q := by
  cases hb with
  | added ho hr => exact Hops.congr (x := .nil) ho.symm rfl hh
  | removed hn hr => exact Hops.congr (y := .nil) rfl hn.symm hh
  | addedFields hr => exact hh
  | fromZero hr hz => exact hh.of_blank hz hr
  | removedFields hz hr => exact hh

theorem becomes_way (hb : Becomes h task next) {es : List Hop} (hw : Way h next.sides es) :
    Way h task.sides es := by
  cases hw with
  | here => exact .here
  | down he hw => exact .down (becomes_hops hb he) hw

/-! ### Steps of tasks -/

/-- What is under a key with a text is what the mapping holds under the text. -/
theorem holds_valueUnder {v key w : Value} {es : List (Value × Value)} {s : String}
    (he : h.entries? (h.view v) = some es) (hk : (h.view key).text? = some s)
    (hw : valueUnder h key es = .ok w) : Holds h v s w := by
  obtain ⟨found, hf, hw⟩ := bind_eq_ok.mp hw
  cases hw
  cases found with
  | some w =>
    obtain ⟨e, hm, hmatch, rfl⟩ := find?_match hf
    exact .inl ⟨es, e.1, he, hm, text?_of_match hk hmatch⟩
  | none =>
    refine .inr ⟨rfl, ?_⟩
    rintro x ⟨ds, k, hds, hm, ht⟩
    obtain rfl := Option.some.inj (he.symm.trans hds)
    have hlacks := not_lacks hm ht hk
    rw [lacks, hf] at hlacks
    cases hlacks

theorem mem_activeFields {fs : List (Field × Label)} {p : Field × Label}
    (hf : activeFields h o x y path = .ok fs) (hp : p ∈ fs) :
    ∃ gs, (h.view x).fields? [h.view y] = some gs ∧ p.1 ∈ gs ∧
      p.2 = joinPath path (.plain p.1.external) ∧
      o.ignores h ((Hop.ofField p.1).aliases ++ [p.2.text]) = false := by
  unfold activeFields at hf
  split at hf
  · cases hf
  · rename_i gs hgs
    cases hf
    obtain ⟨hmap, hkept⟩ := List.mem_filter.mp hp
    obtain ⟨f, hm, rfl⟩ := List.mem_map.mp hmap
    exact ⟨gs, hgs, hm, rfl, (Bool.not_eq_true' _).mp hkept⟩

theorem metField_records {fs : List (Field × Label)} {p : Field × Label}
    (hc : (h.view x).cls = (h.view y).cls) (hk : (h.view x).kind = .record)
    (hf : activeFields h o x y path = .ok fs) (hp : p ∈ fs) : MetField h x y p.1 := by
  obtain ⟨gs, hgs, hm, _⟩ := mem_activeFields hf hp
  exact .inl ⟨hc, hk, gs, hgs, hm⟩

theorem metField_alone {v : Value} {fs : List (Field × Label)} {p : Field × Label}
    (hr : (h.view v).isRecord = true) (hf : activeFields h o v .nil path = .ok fs) (hp : p ∈ fs) :
    MetField h .nil v p.1 ∧ MetField h v .nil p.1 := by
  obtain ⟨gs, hgs, hm, _⟩ := mem_activeFields hf hp
  obtain rfl := Option.some.inj ((Object.fields?_nil hr).symm.trans hgs)
  exact ⟨.inr (.inl ⟨rfl, hr, hm⟩), .inr (.inr ⟨rfl, hr, hm⟩)⟩

/-- Two mappings of one class are left by each of their keys. -/
theorem hops_mappings {as bs : List (Value × Value)} {keys : List Value} {key : Value} {s : String}
    (hc : (h.view x).cls = (h.view y).cls) (hk : (h.view x).kind = .mapping)
    (ha : h.entries? (h.view x) = some as) (hb : h.entries? (h.view y) = some bs)
    (hu : unionKeys h as bs = .ok keys) (hm : key ∈ keys) (hs : (h.view key).text? = some s)
    (hx : valueUnder h key as = .ok u) (hy : valueUnder h key bs = .ok w) :
    Hops h (x, y) (.ofKey s) (u, w) := by
  refine .entry (.inl ⟨hc, hk⟩) ?_ (holds_valueUnder ha hs hx) (holds_valueUnder hb hs hy)
  rw [unionKeys_ok hu] at hm
  rcases List.mem_append.mp hm with hm | hm
  · obtain ⟨e, he, rfl⟩ := List.mem_map.mp hm
    exact ⟨e.2, .inl ⟨as, e.1, ha, he, hs⟩⟩
  · obtain ⟨e, he, rfl⟩ := List.mem_map.mp hm
    exact ⟨e.2, .inr ⟨bs, e.1, hb, (List.mem_filter.mp he).1, hs⟩⟩

/-- A mapping beside nothing is left by each of its keys. -/
theorem hops_removed {v : Value} {es : List (Value × Value)} {e : Value × Value} {s : String}
    (he : h.entries? (h.view v) = some es) (hm : e ∈ es) (hs : (h.view e.1).text? = some s) :
    Hops h (v, .nil) (.ofKey s) (e.2, .nil) := by
  have hkey : HasKey h v s e.2 := ⟨es, e.1, he, hm, hs⟩
  exact .entry (.inr (.inr rfl)) ⟨e.2, .inl hkey⟩ (.inl hkey)
    (.inr ⟨rfl, fun _ => not_hasKey_of_entries entries?_nil⟩)

/-- **Every step of a task leaves the two values that it is about.** -/
theorem descends_hops {steps : List (Label × Task)} (hd : Descends h o path task steps) :
    ∀ e ∈ steps, ∃ hop : Hop, hop.name = e.1.text ∧ Hops h task.sides hop e.2.sides := by
  have hfields : ∀ {x y : Value} {t : String → Task} {p : Value × Value},
      ByField h o x y path t steps →
      (∀ fs, activeFields h o x y path = .ok fs → ∀ f ∈ fs, Hops h p (.ofField f.1) (t f.1.name).sides) →
      ∀ e ∈ steps, ∃ hop : Hop, hop.name = e.1.text ∧ Hops h p hop e.2.sides := by
    rintro x y t p ⟨fs, hfs, rfl⟩ hhops e he
    obtain ⟨f, hf, rfl⟩ := List.mem_map.mp he
    exact ⟨.ofField f.1, rfl, hhops fs hfs f hf⟩
  cases hd with
  | records hc hk hf =>
    exact hfields hf fun fs hfs f hm => .field (metField_records hc hk hfs hm)
  | mappings hc hk ha hb hu hs =>
    intro e he
    obtain ⟨key, hm, hl, x, y, hx, hy, htask⟩ := forall₂_right hs he
    rw [htask]
    exact ⟨.ofKey e.1.text, rfl, hops_mappings hc hk ha hb hu (List.mem_filter.mp hm).1
      (text?_of_label? hl) hx hy⟩
  | added hr hf => exact hfields hf fun fs hfs f hm => .field (metField_alone hr hfs hm).1
  | removed hr hf => exact hfields hf fun fs hfs f hm => .field (metField_alone hr hfs hm).2
  | emptied hz hr he hs =>
    intro step hstep
    obtain ⟨e, hm, hl, htask⟩ := forall₂_right hs hstep
    rw [htask]
    exact ⟨.ofKey step.1.text, rfl,
      hops_removed he (List.mem_filter.mp hm).1 (text?_of_label? hl)⟩

/-! ### One way -/

section Unique
variable {P : String → Prop} {p q q' : Value × Value}

/-- Among distinct names an item is found by its name. -/
theorem eq_of_nodup_filterMap {α β : Type} {f : α → Option β} {xs : List α}
    (hn : (xs.filterMap f).Nodup) {a b : α} {c : β} (ha : a ∈ xs) (hb : b ∈ xs)
    (hfa : f a = some c) (hfb : f b = some c) : a = b := by
  induction xs with
  | nil => cases ha
  | cons x xs ih =>
    have hrest : (xs.filterMap f).Nodup :=
      hn.sublist ((List.sublist_cons_self x xs).filterMap f)
    have hout : ∀ y ∈ xs, f x = some c → f y ≠ some c := by
      intro y hy hx he
      rw [List.filterMap_cons_some hx] at hn
      exact (List.nodup_cons.mp hn).1 (List.mem_filterMap.mpr ⟨y, hy, he⟩)
    rcases List.mem_cons.mp ha with hax | hax <;> rcases List.mem_cons.mp hb with hbx | hbx
    · rw [hax, hbx]
    · exact absurd hfb (hout b hbx (hax ▸ hfa))
    · exact absurd hfa (hout a hax (hbx ▸ hfb))
    · exact ih hrest hax hbx

/-- The fields by which two labelled values are left have distinct names. -/
theorem metField_inj (hl : TaskLabelled P h (.compare x y)) {f g : Field} (hf : MetField h x y f)
    (hg : MetField h x y g) (he : f.external = g.external) : f = g := by
  obtain ⟨hx, hy, hm⟩ := hl
  suffices hfs : ∃ fs : List Field, (fs.map (·.external)).Nodup ∧ ∀ k, MetField h x y k → k ∈ fs by
    obtain ⟨fs, hn, hmem⟩ := hfs
    exact List.inj_on_of_nodup_map hn (hmem f hf) (hmem g hg) he
  have hnil : ∀ {z : Object Value}, z = .nil → z.isRecord = true → False := fun hz hr => by
    rw [hz] at hr
    cases hr
  rcases hf with ⟨hc, hk, fs, hfs, _⟩ | ⟨hn, hr, _⟩ | ⟨hn, hr, _⟩
  · refine ⟨fs, (hm x y .refl hc hk fs hfs).2, fun k hmet => ?_⟩
    have hxr := Object.isRecord_iff.mpr hk
    rcases hmet with ⟨_, _, gs, hgs, hmem⟩ | ⟨hn, _, _⟩ | ⟨hn, _, _⟩
    · rwa [Option.some.inj (hfs.symm.trans hgs)]
    · exact (hnil hn hxr).elim
    · rw [hn] at hc
      exact (hnil (cls_nil_iff.mp hc) hxr).elim
  · refine ⟨_, (labelled_fields hy hr).2.2, fun k hmet => ?_⟩
    rcases hmet with ⟨_, hk, _⟩ | ⟨_, _, hmem⟩ | ⟨_, hxr, _⟩
    · exact (hnil hn (Object.isRecord_iff.mpr hk)).elim
    · exact hmem
    · exact (hnil hn hxr).elim
  · refine ⟨_, (labelled_fields hx hr).2.2, fun k hmet => ?_⟩
    rcases hmet with ⟨hc, _, _⟩ | ⟨_, hyr, _⟩ | ⟨_, _, hmem⟩
    · rw [hn] at hc
      exact (hnil (cls_nil_iff.mp hc) hr).elim
    · exact (hnil hn hyr).elim
    · exact hmem

theorem hasKey_inj {v : Value} {s : String} (hv : h.Everywhere (h.Labelled P) v)
    (hu : HasKey h v s u) (hw : HasKey h v s w) : u = w := by
  obtain ⟨es, k, hes, hm, hk⟩ := hu
  obtain ⟨ds, l, hds, hm', hl⟩ := hw
  obtain rfl := Option.some.inj (hes.symm.trans hds)
  exact congrArg Prod.snd (eq_of_nodup_filterMap (labelled_keys hv hes).2 hm hm' hk hl)

theorem holds_inj {v : Value} {s : String} (hv : h.Everywhere (h.Labelled P) v)
    (hu : Holds h v s u) (hw : Holds h v s w) : u = w := by
  rcases hu with hu | ⟨rfl, hu⟩
  · rcases hw with hw | ⟨_, hw⟩
    · exact hasKey_inj hv hu hw
    · exact absurd hu (hw u)
  · rcases hw with hw | ⟨rfl, _⟩
    · exact absurd hw (hu w)
    · rfl

/-- Two values are left by fields or by keys, not by both. -/
theorem not_metField_of_key {f : Field} {s : String} (hm : MetMappings h x y)
    (hk : ∃ z, HasKey h x s z ∨ HasKey h y s z) : ¬ MetField h x y f := by
  have hrecord : ∀ {v z : Value}, HasKey h v s z → (h.view v).isRecord = true → False := by
    rintro v z ⟨es, k, hes, _⟩ hr
    rw [entries?_record hr] at hes
    cases hes
  have hnil : ∀ {v z : Value}, HasKey h v s z → h.view v = .nil → False := by
    rintro v z ⟨es, k, hes, _⟩ hn
    rw [hn, entries?_nil] at hes
    cases hes
  obtain ⟨z, hk⟩ := hk
  rintro (⟨hc, hkind, _⟩ | ⟨hn, hr, _⟩ | ⟨hn, hr, _⟩)
  · rcases hm with ⟨_, hmapping⟩ | hxn | hyn
    · rw [hkind] at hmapping
      cases hmapping
    · rw [hxn] at hkind
      cases hkind
    · rw [hyn] at hc
      rw [cls_nil_iff.mp hc] at hkind
      cases hkind
  · exact hk.elim (hnil · hn) (hrecord · hr)
  · exact hk.elim (hrecord · hr) (hnil · hn)

theorem hops_unique (hl : TaskLabelled P h (.compare p.1 p.2)) {e e' : Hop} (he : Hops h p e q)
    (he' : Hops h p e' q') (hn : e.name = e'.name) : e = e' ∧ q = q' := by
  cases he with
  | field hf =>
    cases he' with
    | field hg =>
      rw [metField_inj hl hf hg hn]
      exact ⟨rfl, rfl⟩
    | entry hm hk hu hw => exact absurd hf (not_metField_of_key hm hk)
  | entry hm hk hu hw =>
    cases he' with
    | field hg => exact absurd hg (not_metField_of_key hm hk)
    | entry _ _ hu' hw' =>
      obtain rfl := hn
      rw [holds_inj hl.1 hu hu', holds_inj hl.2.1 hw hw']
      exact ⟨rfl, rfl⟩

/-- A way of a task, where a task that it becomes has one with the same names. -/
theorem becomes_way_unique {es es' : List Hop} (hb : Becomes h task next)
    (hl : TaskLabelled P h task) (hw : Way h next.sides es) (hw' : Way h task.sides es')
    (hn : es'.map (·.name) = es.map (·.name)) : Way h next.sides es' := by
  cases hw with
  | here =>
    obtain rfl := List.map_eq_nil_iff.mp hn
    exact .here
  | down he hw =>
    cases hw' with
    | here => cases hn
    | down he' hw' =>
      obtain ⟨rfl, rfl⟩ :=
        hops_unique (taskLabelled_sides hl) he' (becomes_hops hb he) (List.cons.inj hn).1
      exact .down he hw'

/-- **Every change of a labelled task is at the end of one way into the values it is about.** -/
theorem yields_way {cs : List Change} (hy : Yields h o task path cs) (hl : TaskLabelled P h task) :
    ∀ c ∈ cs, ∃ es : List Hop, (Way h task.sides es ∧ es.map (·.name) = c.path.map (·.text)) ∧
      ∀ es', Way h task.sides es' → es'.map (·.name) = c.path.map (·.text) → es' = es := by
  induction hy with
  | settles hs =>
    intro c hc
    rw [(inPlace_settles hs).path_eq_nil hc]
    exact ⟨[], ⟨.here, rfl⟩, fun es' _ hn => List.map_eq_nil_iff.mp hn⟩
  | becomes hb hy ih =>
    intro c hc
    obtain ⟨es, ⟨hw, hn⟩, hone⟩ := ih (labelled_becomes hb hl) c hc
    refine ⟨es, ⟨becomes_way hb hw, hn⟩, fun es' hw' hn' => ?_⟩
    exact hone es' (becomes_way_unique hb hl hw hw' (hn'.trans hn.symm)) hn'
  | descends steps hd hy ih =>
    intro c hc
    obtain ⟨e, he, hc⟩ := List.mem_flatMap.mp hc
    obtain ⟨d, hd', rfl⟩ := List.mem_map.mp hc
    have hstep : (e.label, e.task) ∈ steps.map fun e => (e.label, e.task) := List.mem_map_of_mem he
    obtain ⟨hop, hname, hhop⟩ := descends_hops hd _ hstep
    obtain ⟨es, ⟨hw, hn⟩, hone⟩ := ih e he ((labelled_descends hd hl).labelled _ hstep) d hd'
    refine ⟨hop :: es, ⟨.down hhop hw, by simp [hn, hname]⟩, fun es' hw' hn' => ?_⟩
    rw [Change.path_under, List.map_cons] at hn'
    cases hw' with
    | here => cases hn'
    | down he' hw' =>
      obtain ⟨hname', hrest⟩ := List.cons.inj hn'
      obtain ⟨rfl, rfl⟩ := hops_unique (taskLabelled_sides hl) he' hhop (hname'.trans hname.symm)
      rw [hone _ hw' hrest]

end Unique

end DocDelta.Diff
