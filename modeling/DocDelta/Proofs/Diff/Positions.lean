import DocDelta.Proofs.Diff.Findings
import DocDelta.Proofs.Diff.Repairs
import DocDelta.Proofs.Diff.Termination
import DocDelta.Proofs.Value.Zeros

/-! Where a comparison finds what it finds.

`Compared` are the pairs of values, each at its place, that a comparison of two values meets with
something on either side: through the fields of records and the keys of mappings. Zeros and
changed items are found at these positions and nowhere else, so two of them never meet, and
neither meets any other finding. Elsewhere nothing lies opposite to what is added or removed. -/
namespace DocDelta.Diff
open Heap Document
variable {h : Heap} {K : ClassTable} {o : Options} {path place : Label} {task next : Task}
  {x y : Value}

/-! ### Compared positions -/

/-- The positions that the comparison of two values meets, each with what it holds on either
side. -/
inductive Compared (h : Heap) (o : Options) (old new : Value) : Value → Value → Label → Prop
  | root : Compared h o old new old new (.plain "")
  | into {x y u w : Value} {path place : Label} (hm : Compared h o old new x y path)
      (hi : Into h o (.compare x y) path (.compare u w) place) : Compared h o old new u w place

/-- What is compared is met. -/
theorem Compared.faces {old new : Value} (hm : Compared h o old new x y place) :
    Relation.ReflTransGen h.Faces (old, new) (x, y) := by
  induction hm with
  | root => exact .refl
  | into _ hi ih =>
    refine .tail ih ?_
    cases hi with
    | field hc hk hf hp => exact .field _ hc hk
    | key hc hk ha hb hu hm hl hi hx hy => exact .entry hc ha hb hx hy

/-- Opposite to nothing there is nothing further down. -/
theorem Compared.of_nil {new : Value} (hm : Compared h o .nil new x y place) : x = .nil := by
  rcases (faces_within hm.faces).1 with hx | hw
  · exact hx
  · exact within_nil hw

/-- The steps of a task lead into what is below it. -/
theorem descends_into {steps : List (Label × Task)} (hd : Descends h o path task steps)
    {e : Label × Task} (he : e ∈ steps) : Into h o task path e.2 (joinPath path e.1) := by
  cases hd with
  | records hc hk hf =>
    obtain ⟨fs, hfs, rfl⟩ := hf
    obtain ⟨p, hp, rfl⟩ := List.mem_map.mp he
    obtain ⟨_, _, _, hsub, _⟩ := mem_activeFields hfs hp
    exact hsub ▸ .field hc hk hfs hp
  | mappings hc hk ha hb hu hs =>
    obtain ⟨key, hm, hl, u, w, hx, hy, htask⟩ := forall₂_right hs he
    obtain ⟨hm, hi⟩ := List.mem_filter.mp hm
    exact htask ▸ .key hc hk ha hb hu hm hl (by simpa using hi) hx hy
  | added hr hf =>
    obtain ⟨fs, hfs, rfl⟩ := hf
    obtain ⟨p, hp, rfl⟩ := List.mem_map.mp he
    obtain ⟨_, _, _, hsub, _⟩ := mem_activeFields hfs hp
    exact hsub ▸ .addedField hr hfs hp
  | removed hr hf =>
    obtain ⟨fs, hfs, rfl⟩ := hf
    obtain ⟨p, hp, rfl⟩ := List.mem_map.mp he
    obtain ⟨_, _, _, hsub, _⟩ := mem_activeFields hfs hp
    exact hsub ▸ .removedField hr hfs hp
  | emptied hz hr hes hs =>
    obtain ⟨k, hm, hl, htask⟩ := forall₂_right hs he
    obtain ⟨hm, hi⟩ := List.mem_filter.mp hm
    exact htask ▸ .removedEntry hz hr hes hm hl (by simpa using hi)

theorem forall₂_left {α β : Type} {R : α → β → Prop} {xs : List α} {ys : List β}
    (hs : List.Forall₂ R xs ys) {x : α} (hx : x ∈ xs) : ∃ y ∈ ys, R x y :=
  forall₂_right hs.flip hx

/-- Where a comparison goes on, it goes on into everything below. -/
theorem into_descends {steps : List (Label × Task)} (hd : Descends h o path (.compare x y) steps)
    (hi : Into h o (.compare x y) path next place) :
    ∃ e ∈ steps, e.2 = next ∧ joinPath path e.1 = place := by
  cases hd with
  | records hc hk hf =>
    cases hi with
    | field _ _ hfs hp =>
      obtain ⟨gs, hgs, rfl⟩ := hf
      obtain rfl := Except.ok.inj (hgs.symm.trans hfs)
      obtain ⟨_, _, _, hsub, _⟩ := mem_activeFields hgs hp
      exact ⟨_, List.mem_map_of_mem hp, rfl, hsub.symm⟩
    | key _ hk' =>
      rw [hk] at hk'
      cases hk'
  | mappings hc hk ha hb hu hs =>
    cases hi with
    | field _ hk' =>
      rw [hk] at hk'
      cases hk'
    | key _ _ ha' hb' hu' hm hl hi hx hy =>
      obtain rfl := Option.some.inj (ha.symm.trans ha')
      obtain rfl := Option.some.inj (hb.symm.trans hb')
      obtain rfl := Except.ok.inj (hu.symm.trans hu')
      obtain ⟨e, he, hlabel, u, w, hu, hw, htask⟩ :=
        forall₂_left hs (List.mem_filter.mpr ⟨hm, by simpa using hi⟩)
      obtain rfl := Option.some.inj (hlabel.symm.trans hl)
      obtain rfl := Except.ok.inj (hu.symm.trans hx)
      obtain rfl := Except.ok.inj (hw.symm.trans hy)
      exact ⟨e, he, htask, rfl⟩

theorem goesOn_of_into (hi : Into h o (.compare x y) path next place) : GoesOn h (.compare x y) := by
  cases hi with
  | field hc hk => exact ⟨hc, .inl hk⟩
  | key hc hk => exact ⟨hc, .inr hk⟩

theorem goesOn_of_descends {steps : List (Label × Task)}
    (hd : Descends h o path (.compare x y) steps) : GoesOn h (.compare x y) := by
  cases hd with
  | records hc hk => exact ⟨hc, .inl hk⟩
  | mappings hc hk => exact ⟨hc, .inr hk⟩

theorem into_compare (hi : Into h o (.compare x y) path next place) :
    ∃ u w, next = .compare u w := by
  cases hi <;> exact ⟨_, _, rfl⟩

/-- A task that goes on does not turn into another. -/
theorem not_becomes_of_goesOn (hg : GoesOn h (.compare x y)) : ¬ Becomes h (.compare x y) next := by
  intro hb
  cases hb with
  | added ho hr => exact not_goesOn_of_nil (.inl ho) hg
  | removed hn hr => exact not_goesOn_of_nil (.inr hn) hg

/-! ### Nothing opposite -/

/-- Tasks with nothing opposite to the value, or only the zero of its class. -/
inductive Lone (h : Heap) : Task → Prop
  | nothing {x y : Value} (hn : h.view x = .nil ∨ h.view y = .nil) : Lone h (.compare x y)
  | zero {v : Value} {z : Object Value} (hr : (h.view v).isRecord = false)
      (hz : (h.view v).zero? = some z) : Lone h (.compare (.inline z) v)
  | add (v : Value) : Lone h (.add v)
  | addFields (v : Value) : Lone h (.addFields v)
  | remove (v : Value) : Lone h (.remove v)
  | removeFields (v : Value) : Lone h (.removeFields v)

theorem lone_becomes (hb : Becomes h task next) : Lone h next := by
  cases hb with
  | fromZero hr hz => exact .zero hr hz
  | added => exact .addFields _
  | removed => exact .removeFields _
  | addedFields => exact .addFields _
  | removedFields => exact .removeFields _

theorem lone_into (hi : Into h o task path next place) (hl : Lone h task) : Lone h next := by
  cases hi with
  | field hc hk hf hp =>
    cases hl with
    | nothing hn => exact absurd ⟨hc, .inl hk⟩ (not_goesOn_of_nil hn)
    | zero hr hz =>
      rw [view_inline, (Object.zero?_blank hz).kind, ← Object.isRecord_iff, hr] at hk
      cases hk
  | key hc hk ha hb hu hm hl' hi hx hy =>
    cases hl with
    | nothing hn => exact absurd ⟨hc, .inr hk⟩ (not_goesOn_of_nil hn)
    | zero hr hz =>
      obtain rfl := entries?_of_empty (x := .inline _) (Object.zero?_blank hz).children ha
      obtain rfl := Except.ok.inj hx
      exact .nothing (.inl rfl)
  | addedField => exact .add _
  | removedField => exact .remove _
  | removedEntry => exact .nothing (.inr rfl)

/-! ### Items -/

/-- Changes at one place: a single one, or changes of distinct items that are there. -/
inductive Placed (h : Heap) (old : Value) : List Change → Prop
  | nothing : Placed h old []
  | one (action : Action) : Placed h old [.whole [] action]
  | items {xs : List Value} {updates : List (Nat × Value)} (hx : itemsOf h old = .ok xs)
      (hn : (updates.map (·.1)).Nodup) (hl : ∀ e ∈ updates, e.1 < xs.length) :
      Placed h old (updates.map fun e => .item [] e.1 e.2)

theorem Placed.path_eq_nil {old : Value} {cs : List Change} (hp : Placed h old cs) {c : Change}
    (hc : c ∈ cs) : c.path = [] := by
  cases hp with
  | nothing => cases hc
  | one action =>
    rw [List.mem_singleton.mp hc]
    rfl
  | items hx hn hl =>
    obtain ⟨e, _, rfl⟩ := List.mem_map.mp hc
    rfl

theorem placed_pushed {old : Value} (items : List Value) : Placed h old (pushed items) := by
  unfold pushed
  split
  · exact .nothing
  · exact .one _

theorem placed_reconciles {old new : Value} {cs : List Change} (hr : Reconciles h o old new cs) :
    Placed h old cs := by
  cases hr with
  | replaced => exact .one _
  | extended hx hy hl hs => exact placed_pushed _
  | @updated xs ys changed hx hy hl hs =>
    obtain ⟨hnodup, hbounds, _⟩ := changedPlaces_spec hs
    have hitems : Placed h old ((changed.map fun i => (i, (ys[i]?).getD .nil)).map
        fun e => .item [] e.1 e.2) := by
      refine .items hx ?_ fun e he => ?_
      · simpa [Function.comp_def] using hnodup
      · obtain ⟨i, hi, rfl⟩ := List.mem_map.mp he
        simpa using (hbounds i hi).2.1
    rwa [List.map_map] at hitems
  | grown hx hy hl hs => exact placed_pushed _
  | emptied hm => exact .one _
  | merged hm hx hy hp =>
    obtain ⟨hnodup, hbounds⟩ := used_pairUp hp
    rw [List.map_append] at hnodup
    exact .items hx (List.nodup_append.mp hnodup).2.1
      fun e he => hbounds e (List.mem_append_right _ he)
  | added hm hx hy hp => exact placed_pushed _

theorem placed_settles {cs : List Change} (hs : Settles h o task cs) : Placed h task.sides.1 cs := by
  cases hs with
  | sequence ho hn hc hk he hs => exact placed_reconciles hs
  | @scalar old new ho hn hc hk he zero hz =>
    unfold scalarChanges
    split
    · split
      · exact .one _
      · exact .nothing
      · exact .one _
    · exact .one _
  | created ho hn hr => exact .one _
  | dropped ho hn hr => exact .one _
  | whole hv hr hz => exact .one _
  | removed hz hr he => exact .one _
  | _ => exact .nothing

/-! ### Names of steps -/

/-- Two steps under one name have nothing opposite. -/
def StepsAside (h : Heap) (a b : Label × Task) : Prop :=
  a.1.text = b.1.text → Lone h a.2 ∧ Lone h b.2

/-- The fields of two records of one class that share an external name are held by one record
each. -/
theorem fields_aside (hx : h.Everywhere h.WellNamed x) (hy : h.Everywhere h.WellNamed y)
    (hk : (h.view x).kind = .record) (hform : (h.view x).form = (h.view y).form) {fs : List Field}
    (hfs : (h.view x).fields? [h.view y] = some fs) {f g : Field} (hf : f ∈ fs) (hg : g ∈ fs)
    (hne : f ≠ g) (he : f.external = g.external) :
    Lone h (.compare (h.fieldValue x f.name) (h.fieldValue y f.name)) := by
  have hky : (h.view y).kind = .record := by
    rw [← Object.kind_form, ← hform, Object.kind_form, hk]
  have hown := fun {v : Value} (hv : h.Everywhere h.WellNamed v) (hk : (h.view v).kind = .record) =>
    (own_fields hv (Object.isRecord_iff.mpr hk)).2.2
  obtain ⟨hspanx, hspany, hboth⟩ := spans_both hk hform hfs
  have hlacks : ∀ {v : Value}, Spans h v fs → f ∉ (h.view v).fields →
      h.view (h.fieldValue v f.name) = .nil := by
    intro v hspan hf'
    rw [fieldValue, (hspan.lacking f hf).resolve_left hf']
    rfl
  by_cases hfx : f ∈ (h.view x).fields
  · by_cases hfy : f ∈ (h.view y).fields
    · -- the other field would share its name with this one within one of the records
      rcases hboth g hg with hgx | hgy
      · exact absurd (List.inj_on_of_nodup_map (hown hx hk) hfx hgx he) hne
      · exact absurd (List.inj_on_of_nodup_map (hown hy hky) hfy hgy he) hne
    · exact .nothing (.inr (hlacks hspany hfy))
  · exact .nothing (.inl (hlacks hspanx hfx))

/-- Fields that are gone through are named by some of the fields there are. -/
theorem byField_sublist {t : String → Task} {steps : List (Label × Task)} {gs : List Field}
    (hgs : (h.view x).fields? [h.view y] = some gs) (hf : ByField h o x y path t steps) :
    steps.Sublist (gs.map fun f => (.plain f.external, t f.name)) := by
  obtain ⟨fs, hfs, rfl⟩ := hf
  rw [activeFields, hgs] at hfs
  cases hfs
  have hall : gs.map (fun f => (Label.plain f.external, t f.name)) =
      (gs.map fun f => (f, joinPath path (.plain f.external))).map
        fun p => (.plain p.1.external, t p.1.name) := by
    rw [List.map_map]
    rfl
  rw [hall]
  exact List.filter_sublist.map _

/-- The fields of two records of one class are distinct. -/
theorem nodup_fields? (hx : h.Everywhere h.WellNamed x) (hk : (h.view x).kind = .record)
    {fs : List Field} (hfs : (h.view x).fields? [h.view y] = some fs) : fs.Nodup := by
  cases hd : (h.view x).isDeclared with
  | true =>
    rw [Object.fields_declared hd] at hfs
    cases hfs
    exact (own_fields hx (Object.isRecord_iff.mpr hk)).2.2.of_map _
  | false =>
    rw [Object.fields?_names hd] at hfs
    obtain ⟨names, _, rfl⟩ := Option.map_eq_some_iff.mp hfs
    exact Field.nodup_ofNames _

/-- **The steps of a task have plain names, and two that share one have nothing opposite.** -/
theorem descends_aside {steps : List (Label × Task)} (hd : Descends h o path task steps)
    (ht : Ordered h K task) :
    (∀ e ∈ steps, PlainName e.1.text) ∧ steps.Pairwise (StepsAside h) := by
  have hnamed := fun {v : Value} (hv : h.Everywhere (h.Orderly K) v) =>
    (hv.imp fun _ ho => ho.named : h.Everywhere h.WellNamed v)
  have hlabelled := fun {v : Value} (hv : h.Everywhere (h.Orderly K) v) =>
    everywhere_wellNamed.mp (hnamed hv)
  have hown : ∀ {v : Value} {t : String → Task} {steps : List (Label × Task)},
      h.Everywhere (h.Orderly K) v → (h.view v).isRecord = true → ByField h o v .nil path t steps →
      (∀ e ∈ steps, PlainName e.1.text) ∧ steps.Pairwise (StepsAside h) := by
    intro v t steps hv hr hf
    obtain ⟨hfs, hplain, hnodup⟩ := own_fields (hnamed hv) hr
    have hsub := byField_sublist hfs hf
    refine ⟨fun e he => ?_, List.Pairwise.sublist hsub (List.pairwise_map.mpr ?_)⟩
    · obtain ⟨f, hf, rfl⟩ := List.mem_map.mp (hsub.subset he)
      exact hplain f hf
    · exact (List.pairwise_map.mp hnodup).imp fun hne he => absurd he hne
  cases hd with
  | @records x y steps hc hk hf =>
    have hform := Object.form_eq ht.1.here.follows ht.2.here.follows hc
    obtain ⟨hx, hy⟩ := And.imp hnamed hnamed ht
    have hky : (h.view y).kind = .record := by
      rw [← Object.kind_form, ← hform, Object.kind_form, hk]
    cases hfs : (h.view x).fields? [h.view y] with
    | none =>
      obtain ⟨fs, hactive, _⟩ := hf
      rw [activeFields, hfs] at hactive
      cases hactive
    | some fs =>
      have hsub := byField_sublist hfs hf
      have hplain := fun {v : Value} (hv : h.Everywhere h.WellNamed v)
          (hk : (h.view v).kind = .record) => (own_fields hv (Object.isRecord_iff.mpr hk)).2.1
      refine ⟨fun e he => ?_, List.Pairwise.sublist hsub (List.pairwise_map.mpr ?_)⟩
      · obtain ⟨f, hf, rfl⟩ := List.mem_map.mp (hsub.subset he)
        rcases (spans_both hk hform hfs).2.2 f hf with hfx | hfy
        · exact hplain hx hk f hfx
        · exact hplain hy hky f hfy
      · refine (nodup_fields? hx hk hfs).imp_of_mem fun {f g} hf hg hne he => ?_
        exact ⟨fields_aside hx hy hk hform hfs hf hg hne he,
          fields_aside hx hy hk hform hfs hg hf hne.symm he.symm⟩
  | mappings hc hk ha hb hu hs =>
    obtain ⟨hsort, hnodup⟩ := keyed_names id
      (labelled_unionKeys (hlabelled ht.1) (hlabelled ht.2) ha hb hu) hs
    exact ⟨hsort, (List.pairwise_map.mp hnodup).imp fun hne he => absurd he hne⟩
  | added hr hf => exact hown ht hr hf
  | removed hr hf => exact hown ht hr hf
  | emptied hz hr he hs =>
    obtain ⟨hsort, hnodup⟩ := keyed_names Prod.fst (labelled_keys (hlabelled ht) he) hs
    exact ⟨hsort, (List.pairwise_map.mp hnodup).imp fun hne he => absurd he hne⟩

end DocDelta.Diff
