import DocDelta.Proofs.Diff.ConflictFree
import DocDelta.Proofs.Patch.Application

/-! A patch turns the old document into the new one. -/
namespace DocDelta.Diff
open Relation Heap Document Patch
variable {h : Heap} {K : ClassTable} {o : Options} {path : Label} {task next : Task}
  {c e : Option Value} {cs : List Change}

/-! ### Tasks at their places -/

/-- What a task is about, and what its place shows before and is to show after. -/
def Poised (h : Heap) (K : ClassTable) : Task → Option Value → Option Value → Prop
  | .compare old new, c, e =>
    h.Fit K old ∧ h.Fit K new ∧ h.Coherent old new ∧ Shows h c old ∧ Shows h e new
  | .add v, c, e => h.Fit K v ∧ c = none ∧ Shows h e v
  | .addFields v, c, e => h.Fit K v ∧ entriesAt h c = some [] ∧ Shows h e v
  | .remove v, c, e => h.Fit K v ∧ Shows h c v ∧ e = none
  | .removeFields v, c, e => h.Fit K v ∧ Shows h c v ∧ entriesAt h e = some []

theorem coherent_of_empty {z : Object Value} (hc : z.children = []) (v : Value) :
    h.Coherent (.inline z) v := by
  intro u w c n x y hu _ hx _
  rw [within_of_empty hc hu] at hx
  have hz : z = .member c n x := hx
  rw [hz] at hc
  cases hc

theorem poised_becomes (hb : Becomes h task next) (hp : Poised h K task c e) :
    Poised h K next c e := by
  cases hb with
  | added ho hr =>
    obtain ⟨_, hn, _, hc, he⟩ := hp
    exact ⟨hn, (hc.nothing ho).2, he⟩
  | removed hn hr =>
    obtain ⟨ho, _, _, hc, he⟩ := hp
    exact ⟨ho, hc, (he.nothing hn).2⟩
  | addedFields hr =>
    obtain ⟨hv, rfl, he⟩ := hp
    exact ⟨hv, rfl, he⟩
  | fromZero hr hz =>
    obtain ⟨hv, rfl, he⟩ := hp
    obtain ⟨hfit, hzero⟩ := hv.zero hr hz
    exact ⟨hfit, hv, coherent_of_empty (Object.zero?_blank hz).children _, .omitted hzero, he⟩
  | removedFields hz hr =>
    obtain ⟨hv, hc, rfl⟩ := hp
    exact ⟨hv, hc, rfl⟩

/-- **A task that ends repairs its place.** -/
theorem settles_repairs (hm : o.strategy ≠ .merge) (hi : o.zeros ≠ .ignore)
    (hs : Settles h o task cs) (hp : Poised h K task c e) : Repairs h cs c e := by
  cases hs with
  | nothing ho hn =>
    obtain ⟨_, _, _, hc, he⟩ := hp
    exact repairs_nil (.blank (hc.nothing ho).1 (he.nothing hn).1)
  | created ho hn hr =>
    obtain ⟨_, hfn, _, _, he⟩ := hp
    exact repairs_set he hfn
  | dropped ho hn hr =>
    obtain ⟨_, _, _, _, he⟩ := hp
    exact repairs_unset (he.nothing hn).1
  | same ho hn heq =>
    obtain ⟨hfo, hfn, hco, hc, he⟩ := hp
    exact repairs_nil (agree_of_deepEqual hc he hfo hfn hco heq)
  | @scalar old new ho hn hcls hk heq zero hz =>
    obtain ⟨hfo, hfn, _, _, he⟩ := hp
    cases zero with
    | false => exact repairs_set he hfn
    | true =>
      have hl : (h.view new).kind.isLeaf = true :=
        Object.kind_eq hfo.named.here hfn.named.here hcls ▸ hk
      unfold scalarChanges
      cases hpolicy : o.zeros with
      | set => exact repairs_set he hfn
      | unset => exact repairs_unset (he.blank hfn ((isZero_leaf hl).trans hz))
      | ignore => exact absurd hpolicy hi
  | sequence ho hn hcls hk heq hr =>
    obtain ⟨hfo, hfn, hco, hc, he⟩ := hp
    have hkn := (Object.kind_eq hfo.named.here hfn.named.here hcls).symm.trans hk
    obtain ⟨xs, hxs⟩ := Object.items?_of_sequence hk
    obtain ⟨ys, hys⟩ := Object.items?_of_sequence hkn
    obtain ⟨ds, es, hmeets⟩ := meets hfo hfn hco hc he hk hkn hxs hys
    have hitemsOld := itemsOf_items hk hxs
    have hitemsNew := itemsOf_items hkn hys
    cases hr with
    | replaced => exact repairs_set he hfn
    | extended hx hy hl hs =>
      obtain rfl := Except.ok.inj (hitemsOld.symm.trans hx)
      obtain rfl := Except.ok.inj (hitemsNew.symm.trans hy)
      exact hmeets.extended (firstChange_none hs hl)
    | updated hx hy hl hs =>
      obtain rfl := Except.ok.inj (hitemsOld.symm.trans hx)
      obtain rfl := Except.ok.inj (hitemsNew.symm.trans hy)
      exact hmeets.updated hl hs
    | grown hx hy hl hs =>
      obtain rfl := Except.ok.inj (hitemsOld.symm.trans hx)
      obtain rfl := Except.ok.inj (hitemsNew.symm.trans hy)
      exact hmeets.extended (changedPlaces_nil hs hl.le)
    | emptied hmerge => exact absurd hmerge hm
    | merged hmerge _ _ _ => exact absurd hmerge hm
    | added hmerge _ _ _ => exact absurd hmerge hm
  | unadded hv =>
    obtain ⟨_, rfl, he⟩ := hp
    exact repairs_nil (.blank .absent (he.nothing hv).1)
  | whole hv hr hz =>
    obtain ⟨hfv, rfl, he⟩ := hp
    exact repairs_set he hfv
  | unremoved hz =>
    obtain ⟨hfv, hc, rfl⟩ := hp
    exact repairs_nil (.blank (hc.blank hfv hz) .absent)
  | removed hz hr he =>
    obtain ⟨_, _, rfl⟩ := hp
    exact repairs_unset .absent

/-! ### Tasks that go on -/

/-- With nothing ignored, every field is gone through. -/
theorem byField_all (hi : o.ignored = []) {old new : Value} {t : String → Task}
    {steps : List (Label × Task)} {fs : List Field}
    (hfs : (h.view old).fields? [h.view new] = some fs) (hf : ByField h o old new path t steps) :
    steps = fs.map fun f => (.plain f.external, t f.name) := by
  obtain ⟨gs, hgs, rfl⟩ := hf
  rw [activeFields_all hi hfs] at hgs
  cases hgs
  rw [List.map_map]
  rfl

/-- With nothing ignored, every key is gone through. -/
theorem filter_keys_all (hi : o.ignored = []) {α : Type} (key : α → Value) (xs : List α) :
    (xs.filter fun x => !ignoresKey h o path (key x)) = xs := by
  refine List.filter_eq_self.mpr fun x _ => ?_
  unfold ignoresKey
  split
  · simp [Options.ignores, hi]
  · rfl

/-- Where the steps of a task lead: each is poised at the place under its name, and under no
other name is there anything. -/
def Branches (h : Heap) (K : ClassTable) (c e : Option Value) (steps : List (Label × Task)) : Prop :=
  ∃ as bs, entriesAt h c = some as ∧ entriesAt h e = some bs ∧
    (∀ s ∈ steps, Poised h K s.2 ( h.entry? s.1.text as) ( h.entry? s.1.text bs)) ∧
    ∀ n ∉ steps.map (·.1.text), h.entry? n as = none ∧ h.entry? n bs = none

section Branches
variable {as bs : List (Value × Value)}

theorem branches_fields (t : String → Task) {fs : List Field} (hc : entriesAt h c = some as)
    (he : entriesAt h e = some bs)
    (hs : ∀ f ∈ fs, Poised h K (t f.name) ( h.entry? f.external as) ( h.entry? f.external bs))
    (ha : ∀ n ∉ fs.map (·.external), h.entry? n as = none)
    (hb : ∀ n ∉ fs.map (·.external), h.entry? n bs = none) :
    Branches h K c e (fs.map fun f => (.plain f.external, t f.name)) := by
  refine ⟨as, bs, hc, he, fun s hm => ?_, fun n hn => ?_⟩
  · obtain ⟨f, hf, rfl⟩ := List.mem_map.mp hm
    exact hs f hf
  · rw [List.map_map] at hn
    exact ⟨ha n hn, hb n hn⟩

theorem branches_keys {α : Type} (key : α → Value) {R : α → Label × Task → Prop} {xs : List α}
    {steps : List (Label × Task)} (hc : entriesAt h c = some as) (he : entriesAt h e = some bs)
    (hs : List.Forall₂ (fun x step => (h.view (key x)).label? = some step.1 ∧ R x step) xs steps)
    (hp : ∀ x ∈ xs, ∀ n step, (h.view (key x)).text? = some n → R x step →
      Poised h K step.2 ( h.entry? n as) ( h.entry? n bs))
    (hother : ∀ n, (∀ x ∈ xs, (h.view (key x)).text? ≠ some n) →
      h.entry? n as = none ∧ h.entry? n bs = none) : Branches h K c e steps := by
  refine ⟨as, bs, hc, he, fun s hm => ?_, fun n hn => hother n fun x hx ht => hn ?_⟩
  · obtain ⟨x, hx, hl, hr⟩ := forall₂_right hs hm
    exact hp x hx _ s (text?_of_label? hl) hr
  · rw [names_keyed hs]
    exact List.mem_filterMap.mpr ⟨x, hx, ht⟩

end Branches

/-! ### Keys -/

section Keys
variable {v w key : Value} {es fs : List (Value × Value)} {n : String}

theorem shows_under (hs : Shows h c v) (hv : h.Fit K v) (hk : (h.view v).kind = .mapping)
    (he : Entries h v es) :
    ∃ ds, entriesAt h c = some ds ∧ (∀ n, h.entry? n es = none → h.entry? n ds = none) ∧
      ∀ n, Shows h ( h.entry? n ds) (( h.entry? n es).getD .nil) := by
  obtain ⟨ds, hds, hshow, hnone⟩ := hs.mapping hv hk he
  refine ⟨ds, hds, hnone, fun n => ?_⟩
  cases hx : h.entry? n es with
  | none =>
    rw [hnone n hx]
    exact shows_nothing
  | some x => exact hshow n x hx

theorem fit_under (hv : h.Fit K v) (he : Entries h v es) (n : String) :
    h.Fit K (( h.entry? n es).getD .nil) := by
  cases hx : h.entry? n es with
  | none => exact fit_nil
  | some x => exact hv.of_within (he.below hx).to_reflTransGen

theorem coherent_under (hco : h.Coherent v w) (he : Entries h v es) (hf : Entries h w fs)
    (n : String) : h.Coherent (( h.entry? n es).getD .nil) (( h.entry? n fs).getD .nil) := by
  cases hx : h.entry? n es with
  | none => exact coherent_nil_left _
  | some x =>
    cases hy : h.entry? n fs with
    | none => exact coherent_nil_right _
    | some y => exact hco.of_within (he.below hx).to_reflTransGen (hf.below hy).to_reflTransGen

/-- A name that none of the keys of two mappings has is in neither. -/
theorem none_of_unionKeys {keys : List Value}
    (hu : unionKeys h es fs = .ok keys) (hn : ∀ k ∈ keys, (h.view k).text? ≠ some n) :
    h.entry? n es = none ∧ h.entry? n fs = none := by
  rw [unionKeys_ok hu] at hn
  have hes : h.entry? n es = none := entry?_eq_none.mpr fun e hm =>
    hn e.1 (List.mem_append_left _ (List.mem_map_of_mem hm))
  refine ⟨hes, entry?_eq_none.mpr fun e hm ht => ?_⟩
  have hmem : e ∈ fs.filter fun e => lacks h es e.1 :=
    List.mem_filter.mpr ⟨hm, by rw [lacks_text ht, hes]; rfl⟩
  exact hn e.1 (List.mem_append_right _ (List.mem_map_of_mem hmem)) ht

end Keys

/-- **The steps of a task that goes on are poised at the places under their names.** -/
theorem poised_descends (hi : o.ignored = []) {steps : List (Label × Task)}
    (hd : Descends h o path task steps) (hclear : Clear h task) (hp : Poised h K task c e) :
    Branches h K c e steps := by
  cases hd with
  | @records old new _ hcls hk hf =>
    obtain ⟨hfo, hfn, hco, hc, he⟩ := hp
    obtain ⟨_, _, hm⟩ := hclear
    have hform := Object.form_eq hfo.named.here hfn.named.here hcls
    have hkn := (Object.kind_eq hfo.named.here hfn.named.here hcls).symm.trans hk
    obtain ⟨gs, hgs, _⟩ := id hf
    cases hfs : (h.view old).fields? [h.view new] with
    | none =>
      rw [activeFields, hfs] at hgs
      cases hgs
    | some fs =>
      have hnames := hm old new .refl hcls hk fs hfs
      obtain ⟨hso, hsn, _⟩ := spans_both hk hform hfs
      obtain ⟨as, hc, hshow, hother⟩ := hc.record hfo hk hso hnames.2
      obtain ⟨bs, he, hshow', hother'⟩ := he.record hfn hkn hsn hnames.2
      rw [byField_all hi hfs hf]
      exact branches_fields (fun name => .compare (h.fieldValue old name) (h.fieldValue new name))
        hc he (fun f hf => ⟨hfo.fieldValue f.name, hfn.fieldValue f.name, hco.fieldValue f.name,
          hshow f hf, hshow' f hf⟩) hother hother'
  | @mappings old new _ as' bs' keys hcls hk ha hb hu hs =>
    obtain ⟨hfo, hfn, hco, hc, he⟩ := hp
    have hkn := (Object.kind_eq hfo.named.here hfn.named.here hcls).symm.trans hk
    obtain ⟨as, hold⟩ := hfo.entries hk
    obtain ⟨bs, hnew⟩ := hfn.entries hkn
    obtain rfl := Option.some.inj (hold.entries.symm.trans ha)
    obtain rfl := Option.some.inj (hnew.entries.symm.trans hb)
    obtain ⟨ds, hc, hnone, hshow⟩ := shows_under hc hfo hk hold
    obtain ⟨es, he, hnone', hshow'⟩ := shows_under he hfn hkn hnew
    rw [Keyed, filter_keys_all hi fun key => key] at hs
    refine branches_keys id hc he hs (fun key _ n step hn ht => ?_) fun n hn => ?_
    · obtain ⟨x, y, hx, hy, ht⟩ := ht
      have hn : (h.view key).text? = some n := hn
      rw [valueUnder_text hn] at hx
      rw [valueUnder_text hn] at hy
      cases hx
      cases hy
      rw [ht]
      exact ⟨fit_under hfo hold n, fit_under hfn hnew n, coherent_under hco hold hnew n, hshow n,
        hshow' n⟩
    · obtain ⟨ha, hb⟩ := none_of_unionKeys hu hn
      exact ⟨hnone n ha, hnone' n hb⟩
  | @added v _ hr hf =>
    obtain ⟨hfv, hc, he⟩ := hp
    obtain ⟨hfs, hnames⟩ := own_fields hfv.wellNamed hr
    obtain ⟨bs, he, hshow, hother⟩ :=
      he.record hfv (Object.isRecord_iff.mp hr) (spans_own h v) hnames.2
    rw [byField_all hi hfs hf]
    exact branches_fields (fun name => .add (h.fieldValue v name)) hc he
      (fun f hf => ⟨hfv.fieldValue f.name, rfl, hshow f hf⟩) (fun _ _ => rfl) hother
  | @removed v _ hr hf =>
    obtain ⟨hfv, hc, he⟩ := hp
    obtain ⟨hfs, hnames⟩ := own_fields hfv.wellNamed hr
    obtain ⟨as, hc, hshow, hother⟩ :=
      hc.record hfv (Object.isRecord_iff.mp hr) (spans_own h v) hnames.2
    rw [byField_all hi hfs hf]
    exact branches_fields (fun name => .remove (h.fieldValue v name)) hc he
      (fun f hf => ⟨hfv.fieldValue f.name, hshow f hf, rfl⟩) hother fun _ _ => rfl
  | @emptied v _ _ hz hr he' hs =>
    obtain ⟨hfv, hc, rfl⟩ := hp
    have hk := mapping_of_entries he'
    obtain ⟨es, hold⟩ := hfv.entries hk
    obtain rfl := Option.some.inj (hold.entries.symm.trans he')
    obtain ⟨ds, hc, hnone, hshow⟩ := shows_under hc hfv hk hold
    rw [filter_keys_all hi Prod.fst] at hs
    refine branches_keys Prod.fst hc rfl hs (fun x hx n step hn ht => ?_) fun n hn => ?_
    · rw [ht]
      have hx : h.entry? n es = some x.2 := entry?_of_mem hold.nodup hx hn
      have hshow := hshow n
      rw [hx] at hshow
      exact ⟨hfv.of_within (hold.below hx).to_reflTransGen, fit_nil, coherent_nil_right _, hshow,
        shows_nothing⟩
    · exact ⟨hnone n (entry?_eq_none.mpr hn), rfl⟩

/-- **What a task yields repairs its place.** -/
theorem yields_repairs (hm : o.strategy ≠ .merge) (hz : o.zeros ≠ .ignore) (hi : o.ignored = [])
    (hy : Yields h o task path cs) (hclear : Clear h task) (hp : Poised h K task c e) :
    Repairs h cs c e := by
  induction hy generalizing c e with
  | settles hs => exact settles_repairs hm hz hs hp
  | becomes hb hy ih => exact ih (clear_becomes hb hclear) (poised_becomes hb hp)
  | descends steps hd hy ih =>
    have hsteps := clear_descends hd hclear
    obtain ⟨as, bs, hc, he, hposed, hother⟩ := poised_descends hi hd hclear hp
    have hmem : ∀ s ∈ steps, (s.label, s.task) ∈ steps.map fun s => (s.label, s.task) :=
      fun s hs => List.mem_map_of_mem hs
    have hnodup := hsteps.nodup
    rw [List.map_map] at hnodup hother
    refine repairs_steps hc he hnodup (fun s hs => ?_) fun n hn => ?_
    · exact ih s hs (hsteps.clear _ (hmem s hs)) (hposed _ (hmem s hs))
    · obtain ⟨ha, hb⟩ := hother n hn
      rw [ha, hb]
      exact .blank .absent .absent

/-! ### The patch -/

section Whole
variable {old new : Value} {p : Patch} {messages : List Message}

end Whole

theorem fit_boxes (a : Addr) : boxes.Fit freeforms (.ref a) := by
  refine fit_ref (fun a => [0, 3, 3, 0, 2, 0, 2, 1, 1].getD a 0) ?_ ?_ boxes_named.1 (by decide) a
  all_goals
    intro a ha
    change a < 9 at ha
    interval_cases a <;> trivial

theorem quiet_boxes (a : Addr) :
    boxes.Everywhere (fun o => Quiet o ∧ ∀ c n w, o ≠ .member c n w) (.ref a) := by
  refine everywhere_ref ⟨trivial, fun _ _ _ hm => by cases hm⟩ (fun a ha => ?_) a
  change a < 9 at ha
  interval_cases a <;> exact ⟨trivial, fun _ _ _ hm => by cases hm⟩

/-- Two records of a class that declares no fields, where a field of one has the external name
that another field of the other has, beside a field that changes. -/
def renamedBeside : Heap :=
  ⟨#[.record ⟨"P", .freeform⟩ [("a", 3), ("userId", 4)],
    .record ⟨"P", .freeform⟩ [("a", 5), ("user_id", 6)],
    .int none 1, .int none 5, .int none 2, .record ⟨"Q", .freeform⟩ [("x", 3)]]⟩

end DocDelta.Diff
