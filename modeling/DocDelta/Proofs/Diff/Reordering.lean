import DocDelta.Proofs.Diff.Duality
import DocDelta.Proofs.Diff.Reconciled

/-! The order of entries does not matter to a comparison.

Two comparisons of one pair of values, each with the mappings in an order of its own, take the same
steps under the same keys, though one after another in other orders. So both fail, or their changes
are `Renumbered`: what is recorded as a whole stays, and placeholders get other numbers, as these
are handed out in the order of the steps. -/
namespace DocDelta.Diff
open Heap Patch Relation
variable {h : Heap} {K : ClassTable} {o : Options} {v w old new old' new' : Value}
variable {path path' : Label} {active active' : List (Mark × Mark)} {b n m : Nat}

/-- Sequences change as a whole only. -/
def Flat (o : Options) : Prop := o.strategy = .replace ∨ o.strategy = .append

/-- Two walks fail, or record the same changes in another order. -/
abbrev Alike (h : Heap) (o : Options) (active active' : List (Mark × Mark)) (path path' : Label)
    (m m' : Walk Unit) : Prop :=
  Tally (Renumbered (Flat o) (Equal h)) active active' path path' m m'

theorem alike_pure : Alike h o active active' path path' (pure ()) (pure ()) :=
  tallying_renumbered.nothing succeeds_pure succeeds_pure

/-! ### Names of fields -/

/-- The name of a field that two records are gone through by is no placeholder's. -/
theorem unnumbered_fields (hx : h.Readable (h.view old)) (hy : h.Readable (h.view new))
    (hk : (h.view old).kind = .record) (hform : (h.view old).form = (h.view new).form)
    {fs : List Field} (hfs : (h.view old).fields? [h.view new] = some fs) :
    ∀ f ∈ fs, Unnumbered f.external := by
  obtain ⟨-, -, hboth⟩ := spans_both hk hform hfs
  exact fun f hf => (hboth f hf).elim (hx.fields f) (hy.fields f)

/-! ### Scalars and sequences -/

/-- A scalar is compared in the same way wherever it stands. -/
theorem alike_scalars (he : Equal h new new) :
    Alike h o active active' path path' (diffScalars h o old new path)
      (diffScalars h o old new path') := by
  refine tally_unlessEqual tallying_renumbered rfl fun _ => tally_ask fun zero _ => ?_
  refine tally_ite (fun _ => ?_) fun _ => tally_set he
  cases o.zeros with
  | unset => exact tally_unset
  | ignore => exact tallying_renumbered.nothing succeeds_log succeeds_log
  | set => exact tally_set he

/-- A value with a zero of its class that is a mapping is a map itself. -/
theorem map_of_zero? {x : Object Value} {z : Object Value} (hk : x.kind = .mapping)
    (hz : x.zero? = some z) : ∃ c es, x = .map c es := by
  cases x with
  | map c es => exact ⟨c, es, rfl⟩
  | mapView t => cases hz
  | int c n => cases c <;> cases hk
  | float c n => cases c <;> cases hk
  | _ => cases hk

/-! ### Entries -/

/-- Steps at the entries of two orders of one mapping. -/
theorem alike_entries (hr : h.Reordered K v w) (hp : path.text = path'.text)
    {es fs : List (Value × Value)} (hes : h.entries? (h.view v) = some es)
    (hfs : h.entries? (h.view w) = some fs) {f g : Value × Value → Label → Walk Unit}
    (hb : ∀ e ∈ es, ∀ d ∈ fs, ∀ s, (h.view e.1).text? = some s → (h.view d.1).text? = some s →
      h.Reordered K e.2 d.2 → ∀ place place' : Label, place.text = place'.text →
        Alike h o active active' place place' (f e place) (g d place')) :
    Alike h o active active' path path' (es.forM fun e => keyStep h o path e.1 (f e))
      (fs.forM fun d => keyStep h o path' d.1 (g d)) := by
  have hke := hr.before.keyed hes
  have hkf := hr.after.keyed hfs
  have hsome : ∀ {ds : List (Value × Value)}, h.KeyedBy ds →
      ∀ e ∈ ds, ((h.view e.1).text?).isSome = true := fun hk e he =>
    Option.isSome_iff_exists.mpr (hk.texts e he)
  refine tally_keys tallying_renumbered allows_renumbered hp hke.nodup hkf.nodup
    (fun s => (hr.texts hes hfs).mem_iff) (iff_of_true (hsome hke) (hsome hkf)) hke.sort
    fun e he d hd s hs hs' l k hl hk => ?_
  have hentry := hr.entry hes hfs s
  rw [entry?_of_mem hke.nodup he hs, entry?_of_mem hkf.nodup hd hs'] at hentry
  cases hentry with
  | some hed => exact hb e he d hd s hs hs' hed _ _ (text_joinPath hp (hl.trans hk.symm))

/-! ### Added values -/

/-- A walk through the fields of a record comes to the same on two orders of the record, given so
many steps. -/
def FieldsAlike (h : Heap) (K : ClassTable) (o : Options) (walk : Nat → Value → Label → Walk Unit)
    (b : Nat) : Prop :=
  ∀ {v w active active' path path' n m}, h.Reordered K v w → (h.view v).isRecord = true →
    rank h v ≤ b → rank h w ≤ b → path.text = path'.text → Unmet h active v → Unmet h active' w →
    8 * b ≤ n → 8 * b ≤ m → Alike h o active active' path path' (walk n v path) (walk m w path')

section Added
variable (hr : h.Reordered K v w) (hp : path.text = path'.text)
variable (hu : Unmet h active v) (hu' : Unmet h active' w)
include hr hp hu hu'

/-- A value that is held by a mapping, or stands alone. -/
theorem alike_added {x y : Value} (hx : h.view x = .nil) (hy : h.view y = .nil)
    (hn : 8 * b + 2 ≤ n) (hm : 8 * b + 2 ≤ m) (hv : rank h v ≤ b) (hw : rank h w ≤ b)
    (ih : FieldsAlike h K o (addStructFields h o) b) : Alike h o active active' path path' (diffValues h o n x v path)
      (diffValues h o m y w path') := by
  obtain ⟨n, rfl⟩ : ∃ k, n = k + 2 := ⟨n - 2, by omega⟩
  obtain ⟨m, rfl⟩ : ∃ k, m = k + 2 := ⟨m - 2, by omega⟩
  by_cases hnil : h.view v = .nil
  · rw [diffValues_nothing n hx hnil, diffValues_nothing m hy (hr.order.view_nil.mpr hnil)]
    exact alike_pure
  · rw [diffValues_added n hx hnil, diffValues_added m hy (mt hr.order.view_nil.mp hnil),
      hr.order.isRecord]
    exact tally_ite (fun hrecord => ih hr hrecord hv hw hp hu hu' (by omega) (by omega))
      fun _ => tally_set hr.deepEqual

/-- A mapping that is added is gone through by its keys. -/
theorem alike_addedMapping {z : Object Value} (hk : (h.view v).kind = .mapping)
    (hz : (h.view v).zero? = some z) (hn : 8 * b + 2 ≤ n) (hm : 8 * b + 2 ≤ m)
    (hv : rank h v ≤ b + 1) (hw : rank h w ≤ b + 1) (ih : FieldsAlike h K o (addStructFields h o) b) :
    Alike h o active active' path path' (diffAdded h o (n + 3) v path)
      (diffAdded h o (m + 3) w path') := by
  obtain ⟨c, es, hes⟩ := map_of_zero? hk hz
  obtain ⟨d, fs, hfs⟩ := map_of_zero? (hr.order.kind.trans hk) (hr.order.zero?.trans hz)
  have hev : h.entries? (h.view v) = some es := by
    rw [hes]
    exact entries?_of_map
  have hew : h.entries? (h.view w) = some fs := by
    rw [hfs]
    exact entries?_of_map
  rw [added_mapping hes hz, added_mapping hfs (hr.order.zero?.trans hz)]
  refine alike_entries hr hp hev hew fun e he d hd s hs hs' hed place place' hplace => ?_
  have hle := Link.entry hev he
  have hld := Link.entry hew hd
  have hrank := rank_link hr.before.acyclic hle
  have hrank' := rank_link hr.after.acyclic hld
  rw [valueUnder_text hs, valueUnder_text hs', entry?_of_mem (hr.before.keyed hev).nodup he hs,
    entry?_of_mem (hr.after.keyed hew).nodup hd hs']
  exact alike_added hed hplace (hu.link hle) (hu'.link hld) rfl rfl hn hm (by omega) (by omega) ih

omit hp hu hu' in
/-- A sequence or scalar is compared with the zero of its class. -/
theorem alike_fromZero {z : Object Value} (hz : (h.view v).zero? = some z) (hn : h.view v ≠ .nil)
    (hk : (h.view v).kind ≠ .mapping) (hrecord : (h.view v).isRecord = false) :
    Alike h o active active' path path' (diffValues h o (n + 1) (.inline z) v path)
      (diffValues h o (m + 1) (.inline z) w path') := by
  have hb := Object.zero?_blank hz
  have hz' : (h.view w).zero? = some z := hr.order.zero?.trans hz
  have hc : (h.view (.inline z)).cls = (h.view v).cls := hb.cls
  have hkind : (h.view (.inline z)).kind = (h.view v).kind := hb.kind
  have hne : h.view (.inline z) ≠ .nil := hb.ne_nil
  rw [diffValues_objects n hne hn, diffValues_objects m hne (mt hr.order.view_nil.mp hn),
    hr.order.cls, if_neg (not_not.mpr hc), if_neg (not_not.mpr hc), hkind]
  have hleaf : (h.view v).kind.isLeaf = true → Alike h o active active' path path'
      (diffScalars h o (.inline z) v path) (diffScalars h o (.inline z) w path') := by
    intro hl
    obtain rfl := hr.order.eq_of_leaf hl
    exact alike_scalars hr.deepEqual
  cases hkv : (h.view v).kind with
  | record =>
    rw [Object.isRecord_iff.mpr hkv] at hrecord
    cases hrecord
  | mapping => exact absurd hkv hk
  | sequence =>
    dsimp only
    rw [visiting_inline hb.ne_nil, visiting_inline hb.ne_nil]
    have hkw : (h.view w).kind = .sequence := hr.order.kind.trans hkv
    have hdated : ∀ {u : Value}, (h.view u).kind = .sequence → Dated (h.view u) := by
      intro u hu
      cases hview : h.view u with
      | datetime x =>
        rw [hview] at hu
        cases hu
      | _ => trivial
    have hanswer : h.deepEqual (.inline z) w = h.deepEqual (.inline z) v := by
      rw [deepEqual_zero hz hk hrecord (hdated hkv),
        deepEqual_zero hz' (hr.order.kind ▸ hk) (hr.order.isRecord.trans hrecord) (hdated hkw), hr.isZero]
    obtain ⟨xs, hxs⟩ := Object.items?_of_sequence (hkind.trans hkv)
    obtain rfl : xs = [] := (items?_children hxs).symm.trans hb.children
    obtain ⟨ys, hys⟩ := Object.items?_of_sequence hkv
    obtain ⟨ys', hys'⟩ := Object.items?_of_sequence hkw
    have hzero := itemsOf_items (hkind.trans hkv) hxs
    exact tally_sequences (K := K) ⟨hzero, itemsOf_items hkv hys, hzero, itemsOf_items hkw hys', .nil,
      hr.items hys hys', hanswer, hr.deepEqual⟩ id
  | _ => exact hleaf (by rw [hkv]; rfl)

/-- The value of an added field. -/
theorem alike_addedField (hn : 8 * b + 7 ≤ n) (hm : 8 * b + 7 ≤ m) (hv : rank h v ≤ b)
    (hw : rank h w ≤ b) (ih : FieldsAlike h K o (addStructFields h o) b) :
    Alike h o active active' path path' (diffAdded h o n v path) (diffAdded h o m w path') := by
  obtain ⟨n, rfl⟩ : ∃ k, n = k + 7 := ⟨n - 7, by omega⟩
  obtain ⟨m, rfl⟩ : ∃ k, m = k + 7 := ⟨m - 7, by omega⟩
  cases hz : (h.view v).zero? with
  | some z =>
    by_cases hk : (h.view v).kind = .mapping
    · exact alike_addedMapping hr hp hu hu' (n := n + 4) (m := m + 4) hk hz (by omega) (by omega)
        (by omega) (by omega) ih
    rw [diffAdded, diffAdded]
    simp only [hr.order.isNil, hr.order.isRecord, hr.order.zero?, hz]
    refine tally_ite (fun _ => alike_pure) fun hnil => tally_ite (fun hrecord => ?_) fun hrecord => ?_
    · exact ih hr hrecord hv hw hp hu hu' (by omega) (by omega)
    · exact alike_fromZero hr hz (fun hn => hnil (Object.isNil_iff.mpr hn)) hk
        (Bool.eq_false_of_not_eq_true hrecord)
  | none =>
    rw [diffAdded, diffAdded]
    simp only [hr.order.isNil, hr.order.isRecord, hr.order.zero?, hz]
    refine tally_ite (fun _ => alike_pure) fun hnil => tally_ite (fun hrecord => ?_) fun _ => ?_
    · exact ih hr hrecord hv hw hp hu hu' (by omega) (by omega)
    · exact tally_set hr.deepEqual

end Added

/-- The fields of two orders of one record that stands alone. -/
theorem alike_fields (hr : h.Reordered K v w) (hrecord : (h.view v).isRecord = true)
    (hp : path.text = path'.text) (hu : Unmet h active v) (hu' : Unmet h active' w)
    {f g : Value → Label → Walk Unit}
    (hb : ∀ {x y place place'}, h.Reordered K x y → place.text = place'.text →
      Unmet h (entered h v .nil active) x → Unmet h (entered h w .nil active') y →
      rank h x < rank h v → rank h y < rank h w →
      Alike h o (entered h v .nil active) (entered h w .nil active') place place' (f x place)
        (g y place')) :
    Alike h o active active' path path'
      (visiting h v .nil path do
        (← ask (activeFields h o v .nil path)).forM fun p => f (h.fieldValue v p.1.name) p.2)
      (visiting h w .nil path' do
        (← ask (activeFields h o w .nil path')).forM fun p => g (h.fieldValue w p.1.name) p.2) := by
  have hnil := Object.ne_nil_of_record (Object.isRecord_iff.mp hrecord)
  have hrecord' : (h.view w).isRecord = true := hr.order.isRecord.trans hrecord
  refine Tally.visiting (hu.fresh hnil) (hu'.fresh (mt hr.order.view_nil.mp hnil)) ?_
  refine tally_fields tallying_renumbered hp (Object.fields?_nil hrecord)
    (hr.order.fields ▸ Object.fields?_nil hrecord') (.inl rfl)
    (fun c hc => ⟨rfl, hr.before.readable.here.fields c hc⟩)
    (fun c place => f (h.fieldValue v c.name) place)
    (fun c place => g (h.fieldValue w c.name) place) fun c hc => ?_
  have hl : h.Link v (h.fieldValue v c.name) := .field c hrecord hc
  have hl' : h.Link w (h.fieldValue w c.name) := .field c hrecord' (hr.order.fields ▸ hc)
  exact hb (hr.fieldValue c.name) (text_joinPath hp rfl) (hu.enter hr.before.acyclic hl)
    (hu'.enter hr.after.acyclic hl') (rank_link hr.before.acyclic hl) (rank_link hr.after.acyclic hl')

theorem fieldsAlike_added (b : Nat) : FieldsAlike h K o (addStructFields h o) b := by
  induction b with
  | zero =>
    intro v w _ _ _ _ _ _ hr hrecord hv
    have hpos := rank_pos (Object.ne_nil_of_record (Object.isRecord_iff.mp hrecord))
    omega
  | succ b ih =>
    intro v w active active' path path' n m hr hrecord hv hw hp hu hu' hn hm
    obtain ⟨n, rfl⟩ : ∃ k, n = k + 1 := ⟨n - 1, by omega⟩
    obtain ⟨m, rfl⟩ : ∃ k, m = k + 1 := ⟨m - 1, by omega⟩
    rw [addStructFields, addStructFields]
    exact alike_fields hr hrecord hp hu hu' (f := diffAdded h o n) (g := diffAdded h o m)
      fun hr hp hu hu' hv' hw' =>
        alike_addedField hr hp hu hu' (by omega) (by omega) (by omega) (by omega) ih

/-! ### Removed values -/

section Removed
variable (hr : h.Reordered K v w) (hp : path.text = path'.text)
variable (hu : Unmet h active v) (hu' : Unmet h active' w)
include hr hp hu hu'

/-- A value that was held by a mapping, or stood alone. -/
theorem alike_removed {x y : Value} (hx : h.view x = .nil) (hy : h.view y = .nil)
    (hn : 8 * b + 2 ≤ n) (hm : 8 * b + 2 ≤ m) (hv : rank h v ≤ b) (hw : rank h w ≤ b)
    (ih : FieldsAlike h K o (unsetStructFields h o) b) : Alike h o active active' path path' (diffValues h o n v x path)
      (diffValues h o m w y path') := by
  obtain ⟨n, rfl⟩ : ∃ k, n = k + 2 := ⟨n - 2, by omega⟩
  obtain ⟨m, rfl⟩ : ∃ k, m = k + 2 := ⟨m - 2, by omega⟩
  by_cases hnil : h.view v = .nil
  · rw [diffValues_nothing n hnil hx, diffValues_nothing m (hr.order.view_nil.mpr hnil) hy]
    exact alike_pure
  · rw [diffValues_removed n hnil hx, diffValues_removed m (mt hr.order.view_nil.mp hnil) hy,
      hr.order.isRecord]
    exact tally_ite (fun hrecord => ih hr hrecord hv hw hp hu hu' (by omega) (by omega))
      fun _ => tally_unset

/-- The value of a removed field. -/
theorem alike_removedField (hn : 8 * b + 3 ≤ n) (hm : 8 * b + 3 ≤ m) (hv : rank h v ≤ b)
    (hw : rank h w ≤ b) (ih : FieldsAlike h K o (unsetStructFields h o) b) :
    Alike h o active active' path path' (diffRemoved h o n v path) (diffRemoved h o m w path') := by
  obtain ⟨n, rfl⟩ : ∃ k, n = k + 1 := ⟨n - 1, by omega⟩
  obtain ⟨m, rfl⟩ : ∃ k, m = k + 1 := ⟨m - 1, by omega⟩
  rw [diffRemoved, diffRemoved, hr.isZero, hr.order.isRecord]
  refine tally_ask fun zero _ => tally_ite (fun _ => alike_pure) fun _ => ?_
  refine tally_ite (fun hrecord => ih hr hrecord hv hw hp hu hu' (by omega) (by omega)) fun _ => ?_
  by_cases hk : (h.view v).kind = .mapping
  · obtain ⟨es, hes, -⟩ := hr.before.entries hk
    obtain ⟨fs, hfs, -⟩ := hr.after.entries (hr.order.kind.trans hk)
    rw [hes, hfs]
    refine alike_entries hr hp hes hfs (f := fun e place => diffValues h o n e.2 .nil place)
      (g := fun d place => diffValues h o m d.2 .nil place) fun e he d hd s _ _ hed place place' hplace => ?_
    have hle := Link.entry hes he
    have hld := Link.entry hfs hd
    have hrank := rank_link hr.before.acyclic hle
    have hrank' := rank_link hr.after.acyclic hld
    exact alike_removed hed hplace (hu.link hle) (hu'.link hld) rfl rfl (by omega) (by omega)
      (by omega) (by omega) ih
  · rw [entries?_none hk, entries?_none (hr.order.kind ▸ hk)]
    exact tally_unset

end Removed

theorem fieldsAlike_removed (b : Nat) : FieldsAlike h K o (unsetStructFields h o) b := by
  induction b with
  | zero =>
    intro v w _ _ _ _ _ _ hr hrecord hv
    have hpos := rank_pos (Object.ne_nil_of_record (Object.isRecord_iff.mp hrecord))
    omega
  | succ b ih =>
    intro v w active active' path path' n m hr hrecord hv hw hp hu hu' hn hm
    obtain ⟨n, rfl⟩ : ∃ k, n = k + 1 := ⟨n - 1, by omega⟩
    obtain ⟨m, rfl⟩ : ∃ k, m = k + 1 := ⟨m - 1, by omega⟩
    rw [unsetStructFields, unsetStructFields]
    exact alike_fields hr hrecord hp hu hu' (f := diffRemoved h o n) (g := diffRemoved h o m)
      fun hr hp hu hu' hv' hw' =>
        alike_removedField hr hp hu hu' (by omega) (by omega) (by omega) (by omega) ih

/-! ### Compared values -/

/-- Whatever lies below two values is compared in the same way as what lies below two others. -/
def BelowAlike (h : Heap) (K : ClassTable) (o : Options) (active active' : List (Mark × Mark))
    (n m : Nat) (old new old' new' : Value) : Prop :=
  ∀ {x y x' y' place place'}, h.Reordered K x x' → h.Reordered K y y' →
    (x = .nil ∨ h.Link old x) → (y = .nil ∨ h.Link new y) → (x' = .nil ∨ h.Link old' x') →
    (y' = .nil ∨ h.Link new' y') → place.text = place'.text →
      Alike h o active active' place place' (diffValues h o n x y place) (diffValues h o m x' y' place')

section Compared
variable (hro : h.Reordered K old old') (hrn : h.Reordered K new new')
variable (hc : (h.view old).cls = (h.view new).cls)
include hro hrn hc

theorem alike_records (hk : (h.view old).kind = .record) (hp : path.text = path'.text)
    (hb : BelowAlike h K o active active' n m old new old' new') :
    Alike h o active active' path path' (diffStructs h o (n + 1) old new path)
      (diffStructs h o (m + 1) old' new' path') := by
  have hform : ∀ {x y : Value}, h.Orderable K x → h.Orderable K y →
      (h.view x).cls = (h.view y).cls → (h.view y).form = (h.view x).form := fun hx hy hc =>
    Object.form_eq hy.follows.here hx.follows.here hc.symm
  have hc' : (h.view old').cls = (h.view new').cls := by rw [hro.order.cls, hrn.order.cls, hc]
  obtain ⟨fs, hfs, hleads⟩ := fields?_leads hk (.inl (hform hro.before hrn.before hc))
  obtain ⟨fs', hfs', hleads'⟩ := fields?_leads (hro.order.kind.trans hk)
    (.inl (hform hro.after hrn.after hc'))
  have hsame := hro.order.fields? hrn.order
  obtain rfl : fs' = fs := Option.some.inj (hfs'.symm.trans (hsame.trans hfs))
  have hnames := unnumbered_fields hro.before.readable.here hrn.before.readable.here hk
    (hform hro.before hrn.before hc).symm hfs
  rw [diffStructs, diffStructs]
  refine tally_fields tallying_renumbered hp hfs hfs' (.inl rfl) (fun f hf => ⟨rfl, hnames f hf⟩)
    (fun f place => diffValues h o n (h.fieldValue old f.name) (h.fieldValue new f.name) place)
    (fun f place => diffValues h o m (h.fieldValue old' f.name) (h.fieldValue new' f.name) place)
    fun f hf => ?_
  exact hb (hro.fieldValue f.name) (hrn.fieldValue f.name) (hleads f hf).1 (hleads f hf).2
    (hleads' f hf).1 (hleads' f hf).2 (text_joinPath hp rfl)

theorem alike_mappings (hk : (h.view old).kind = .mapping) (hp : path.text = path'.text)
    (hb : BelowAlike h K o active active' n m old new old' new') :
    Alike h o active active' path path' (diffMappings h o (n + 1) old new path)
      (diffMappings h o (m + 1) old' new' path') := by
  have hkn := (Object.kind_eq hro.before.follows.here hrn.before.follows.here hc).symm.trans hk
  obtain ⟨as, has, hka⟩ := hro.before.entries hk
  obtain ⟨bs, hbs, hkb⟩ := hrn.before.entries hkn
  obtain ⟨as', has', hka'⟩ := hro.after.entries (hro.order.kind.trans hk)
  obtain ⟨bs', hbs', hkb'⟩ := hrn.after.entries (hrn.order.kind.trans hkn)
  have hfinds : ∀ {cs ds : List (Value × Value)}, h.KeyedBy ds →
      ∀ e ∈ ds, Answers (h.find? e.1 cs) := by
    intro cs ds hk e he
    obtain ⟨s, hs⟩ := hk.texts e he
    exact ⟨_, find?_of_text hs⟩
  have htexts := hro.texts has has'
  have htexts' := hrn.texts hbs hbs'
  refine tally_mappings tallying_renumbered allows_renumbered hp has hbs has' hbs' (hfinds hkb)
    (hfinds hkb') hka.nodup hkb.nodup hka'.nodup hkb'.nodup (fun s => ?_) ?_ (fun s hs => ?_)
    fun s l k hl hk => ?_
  · rw [List.filterMap_append, List.filterMap_append]
    exact (htexts.append htexts').mem_iff
  · exact iff_of_true (List.forall_mem_append.mpr ⟨hka.texts, hkb.texts⟩)
      (List.forall_mem_append.mpr ⟨hka'.texts, hkb'.texts⟩)
  · rw [List.filterMap_append] at hs
    exact (List.mem_append.mp hs).elim (hka.sort s) (hkb.sort s)
  · exact hb (hro.under has has' s) (hrn.under hbs hbs' s) (entry_leads has s) (entry_leads hbs s)
      (entry_leads has' s) (entry_leads hbs' s) (text_joinPath hp (hl.trans hk.symm))

theorem alike_sequences (hk : (h.view old).kind = .sequence) :
    Alike h o active active' path path' (diffSequences h o.strategy old new path)
      (diffSequences h o.strategy old' new' path') := by
  have hkn := (Object.kind_eq hro.before.follows.here hrn.before.follows.here hc).symm.trans hk
  have hk' := hro.order.kind.trans hk
  have hkn' := hrn.order.kind.trans hkn
  obtain ⟨xs, hxs⟩ := Object.items?_of_sequence hk
  obtain ⟨ys, hys⟩ := Object.items?_of_sequence hkn
  obtain ⟨xs', hxs'⟩ := Object.items?_of_sequence hk'
  obtain ⟨ys', hys'⟩ := Object.items?_of_sequence hkn'
  exact tally_sequences ⟨itemsOf_items hk hxs, itemsOf_items hkn hys, itemsOf_items hk' hxs',
    itemsOf_items hkn' hys', hro.items hxs hxs', hrn.items hys hys', hro.deepEqual_eq hrn,
    hrn.deepEqual⟩ id

end Compared

/-- **Two comparisons in other orders fail, or record the same changes in another order.** -/
theorem alike_values (hro : h.Reordered K old old') (hrn : h.Reordered K new new')
    (ho : rank h old ≤ b) (ho' : rank h old' ≤ b) (hv : rank h new ≤ b) (hv' : rank h new' ≤ b)
    (hp : path.text = path'.text) (ha : Ahead h active old) (ha' : Ahead h active' old')
    (hn : 8 * b + 2 ≤ n) (hm : 8 * b + 2 ≤ m) :
    Alike h o active active' path path' (diffValues h o n old new path)
      (diffValues h o m old' new' path') := by
  induction b using Nat.strong_induction_on
    generalizing old new old' new' path path' active active' n m with
  | _ b ih =>
  by_cases hnilo : h.view old = .nil
  · exact alike_added hrn hp ha.unmet ha'.unmet hnilo (hro.order.view_nil.mpr hnilo) hn hm hv hv'
      (fieldsAlike_added b)
  by_cases hniln : h.view new = .nil
  · exact alike_removed hro hp ha.unmet ha'.unmet hniln (hrn.order.view_nil.mpr hniln) hn hm ho ho'
      (fieldsAlike_removed b)
  have hnilo' : h.view old' ≠ .nil := mt hro.order.view_nil.mp hnilo
  have hniln' : h.view new' ≠ .nil := mt hrn.order.view_nil.mp hniln
  obtain ⟨n, rfl⟩ : ∃ k, n = k + 2 := ⟨n - 2, by omega⟩
  obtain ⟨m, rfl⟩ : ∃ k, m = k + 2 := ⟨m - 2, by omega⟩
  rw [diffValues_objects _ hnilo hniln, diffValues_objects _ hnilo' hniln', hro.order.cls,
    hrn.order.cls, hro.order.kind]
  by_cases hc : (h.view old).cls = (h.view new).cls
  swap
  · rw [if_pos hc, if_pos hc]
    exact tally_fails (fun s _ => ⟨_, s, rfl⟩) fun s _ => ⟨_, s, rfl⟩
  rw [if_neg (not_not.mpr hc), if_neg (not_not.mpr hc)]
  have hfresh := pair_fresh (u := new) ha.untouched hnilo
  have hfresh' := pair_fresh (u := new') ha'.untouched hnilo'
  -- whatever is below both values is met for the first time, in either order
  have hbelow : BelowAlike h K o (entered h old new active) (entered h old' new' active') n m old new
      old' new' := by
    intro x y x' y' place place' hrx hry hx hy hx' hy' hplace
    have hrankx := rank_below hro.before.acyclic hnilo hx
    have hranky := rank_below hrn.before.acyclic hniln hy
    have hrankx' := rank_below hro.after.acyclic hnilo' hx'
    have hranky' := rank_below hrn.after.acyclic hniln' hy'
    exact ih (b - 1) (by omega) hrx hry (by omega) (by omega) (by omega) (by omega) hplace
      (ha.enter hro.before.acyclic hniln hx) (ha'.enter hro.after.acyclic hniln' hx') (by omega)
      (by omega)
  have hleaf : (h.view old).kind.isLeaf = true → Alike h o active active' path path'
      (diffScalars h o old new path) (diffScalars h o old' new' path') := by
    intro hl
    obtain rfl := hro.order.eq_of_leaf hl
    obtain rfl := hrn.order.eq_of_leaf <|
      Object.kind_eq hro.before.follows.here hrn.before.follows.here hc ▸ hl
    exact alike_scalars hrn.deepEqual
  cases hk : (h.view old).kind with
  | record => exact Tally.visiting hfresh hfresh' (alike_records hro hrn hc hk hp hbelow)
  | mapping => exact Tally.visiting hfresh hfresh' (alike_mappings hro hrn hc hk hp hbelow)
  | sequence => exact Tally.visiting hfresh hfresh' (alike_sequences hro hrn hc hk)
  | _ => exact hleaf (by rw [hk]; rfl)

end DocDelta.Diff
