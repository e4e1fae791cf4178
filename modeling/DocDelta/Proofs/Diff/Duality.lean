import DocDelta.Proofs.Diff.Places
import DocDelta.Proofs.Diff.Whole
import DocDelta.Proofs.Document.Matched
import DocDelta.Proofs.Value.Zeros

/-! Removing a value touches the paths that adding it touches.

An added field is compared with the zero of its class, a removed one is tested for being zero, so
the two walks tally where the tests agree: on values that are `Reversible`. What has no zero of its
class is set as a whole even where it counts as zero, and then it is not removed. -/
namespace DocDelta.Diff
open Heap Patch Relation

/-! ### Reversible values -/

/-- A field's value that is removed as it is added: it has a zero of its class to be compared with,
or else it does not count as zero, and is no mapping. -/
def Reversible (h : Heap) (v : Value) : Prop :=
  (h.view v).zero? = none → (h.view v).isRecord = false → h.view v ≠ .nil →
    (h.view v).kind ≠ .mapping ∧ h.isZero v = .ok false

/-- A value all of whose fields, wherever adding or removing it comes by them, are reversible. -/
structure Mirrored (h : Heap) (v : Value) : Prop where
  acyclic : h.Acyclic v
  regular : h.Everywhere h.Regular v
  dated : h.Everywhere Dated v
  fields : ∀ w, ReflTransGen h.Link v w → (h.view w).isRecord = true →
    ∀ f ∈ (h.view w).fields, Reversible h (h.fieldValue w f.name)

/-- Whether a value is zero can be told wherever that is asked, or else nothing is ignored: a test
of a record looks at the ignored fields too. -/
def Testable (h : Heap) (o : Options) (v : Value) : Prop :=
  o.ignored = [] ∨ ∀ w, ReflTransGen h.Link v w → Answers (h.isZero w)

section Values
variable {h : Heap} {o : Options} {v w : Value}

theorem Testable.link (ht : Testable h o v) (hl : h.Link v w) : Testable h o w :=
  ht.imp_right fun ht u hu => ht u (.head hl hu)

theorem Mirrored.link (hv : Mirrored h v) (hl : h.Link v w) : Mirrored h w := by
  have hfields : ∀ u, ReflTransGen h.Link w u → (h.view u).isRecord = true →
      ∀ f ∈ (h.view u).fields, Reversible h (h.fieldValue u f.name) :=
    fun u hu => hv.fields u (.head hl hu)
  rcases hl.below with rfl | hw
  · exact ⟨acyclic_nil, everywhere_nil trivial, everywhere_nil trivial, hfields⟩
  · have hw := hw.to_reflTransGen
    exact ⟨hv.acyclic.of_within hw, hv.regular.of_within hw, hv.dated.of_within hw, hfields⟩

/-- Cells whose fields are reversible, and that rank above their parts, make up such values. -/
theorem mirrored_ref (r : Addr → Nat) (hr : ∀ a < h.size, ∀ b ∈ (h.object a).children, r b < r a)
    (hc : ∀ a < h.size, h.Regular (h.view (.ref a)) ∧ Dated (h.view (.ref a)))
    (hf : ∀ a < h.size, (h.view (.ref a)).isRecord = true → ∀ f ∈ (h.view (.ref a)).fields,
      Reversible h (h.fieldValue (.ref a) f.name)) (a : Addr) : Mirrored h (.ref a) := by
  refine ⟨acyclic_ref r hr a, everywhere_ref trivial (fun b hb => (hc b hb).1) a,
    everywhere_ref trivial (fun b hb => (hc b hb).2) a, fun w hw hrecord => ?_⟩
  have href : w = .nil ∨ ∃ b, w = .ref b := by
    clear hrecord
    induction hw with
    | refl => exact .inr ⟨a, rfl⟩
    | tail _ hl ih =>
      rcases hl.below with rfl | hbelow
      · exact .inl rfl
      · rcases ih with rfl | ⟨b, rfl⟩
        · exact .inl (within_nil hbelow.to_reflTransGen)
        · exact .inr (within_ref hbelow.to_reflTransGen)
  rcases href with rfl | ⟨b, rfl⟩
  · cases hrecord
  · by_cases hb : b < h.size
    · exact hf b hb hrecord
    · rw [Heap.view, object_of_size_le (Nat.le_of_not_lt hb)] at hrecord
      cases hrecord

end Values

/-! ### Values of fields -/

section Fields
variable {h : Heap} {o : Options} {v : Value} {path : Label} {active : List (Mark × Mark)} {n m : Nat}

/-- A scalar is altered from the zero of its class unless it is zero. -/
theorem alters_zeroScalar {z : Object Value} (hl : (h.view v).kind.isLeaf = true)
    (he : h.deepEqual (.inline z) v = h.isZero v) :
    Alters active path (h.isZero v) (diffScalars h o (.inline z) v path) := by
  rw [diffScalars, unlessEqual, he]
  refine alters_ask fun hzero => ⟨.set v, trivial, ?_⟩
  rw [isZeroValue, ← isZero_leaf hl, hzero, ask_ok, if_neg (by decide)]
  exact succeeds_set

/-- A value other than a record or mapping is recorded unless it is zero. -/
theorem added_plain (hs : o.strategy = .replace ∨ o.strategy = .append) (hn : h.view v ≠ .nil)
    (hr : (h.view v).isRecord = false) (hk : (h.view v).kind ≠ .mapping) (hrev : Reversible h v)
    (hd : Dated (h.view v)) : Alters active path (h.isZero v) (diffAdded h o (n + 2) v path) := by
  rw [diffAdded]
  simp only [isNil_false hn, hr, Bool.false_eq_true, if_false]
  cases hz : (h.view v).zero? with
  | none =>
    rw [(hrev hz hr hn).2]
    exact ⟨skips_false, fun _ => ⟨.set v, trivial, succeeds_set⟩⟩
  | some z =>
    have hb := Object.zero?_blank hz
    have hequal := deepEqual_zero hz hk hr hd
    have hc : (h.view (.inline z)).cls = (h.view v).cls := hb.cls
    have hkind : (h.view (.inline z)).kind = (h.view v).kind := hb.kind
    dsimp only
    rw [diffValues_objects n (by exact hb.ne_nil) hn, if_neg (not_not.mpr hc), hkind]
    have hscalar : (h.view v).kind.isLeaf = true →
        Alters active path (h.isZero v) (diffScalars h o (.inline z) v path) :=
      fun hl => alters_zeroScalar hl hequal
    cases hkv : (h.view v).kind with
    | record =>
      rw [Object.isRecord_iff.mpr hkv] at hr
      cases hr
    | mapping => exact absurd hkv hk
    | sequence =>
      dsimp only
      rw [visiting_inline hb.ne_nil, ← hequal]
      refine alters_sequence hs hc (hkind.trans hkv) hkv fun xs ys hx _ => ?_
      obtain rfl : xs = [] := (items?_children hx).symm.trans hb.children
      exact answers_ok none
    | _ => exact hscalar (by rw [hkv]; rfl)

/-- A value other than a record or mapping is unset unless it is zero. -/
theorem removed_plain (hr : (h.view v).isRecord = false) (hk : (h.view v).kind ≠ .mapping) :
    Alters active path (h.isZero v) (diffRemoved h o (n + 1) v path) := by
  rw [diffRemoved]
  simp only [hr, Bool.false_eq_true, if_false, entries?_none hk]
  exact alters_ask fun _ => ⟨.unset, trivial, succeeds_unset⟩

/-- An added mapping is gone through by its keys. -/
theorem added_mapping {c : Option Subclass} {es : List (Value × Value)} {z : Object Value}
    (hv : h.view v = .map c es) (hz : (h.view v).zero? = some z) :
    diffAdded h o (n + 3) v path = es.forM fun e => keyStep h o path e.1 fun subpath =>
      ask (valueUnder h e.1 es) >>= fun y => diffValues h o n .nil y subpath := by
  rw [hv] at hz
  obtain rfl := Object.emptyOf_eq_some (.map · []) hz
  have hn : h.view v ≠ .nil := by simp [hv]
  have hkeys : unionKeys h [] es = .ok (es.map (·.1)) := by
    have hfinds : ∀ e ∈ es, Answers (h.find? e.1 []) := fun _ _ => ⟨none, rfl⟩
    have hlacks : ∀ e ∈ es, lacks h [] e.1 = true := fun _ _ => rfl
    rw [unionKeys_eq hfinds, List.filter_eq_self.mpr hlacks]
    rfl
  rw [diffAdded]
  simp only [hv, Object.isNil, Object.isRecord, Bool.false_eq_true, if_false, hz]
  rw [diffValues_objects _ (by simp) hn]
  simp only [hv, view_inline, Object.cls, ne_eq, not_true_eq_false, if_false, Object.kind]
  rw [visiting_inline (by simp), diffMappings]
  simp only [entriesOf, hv, view_inline, entries?_of_map, ask_ok, hkeys]
  rw [forM_map]
  rfl

theorem isZero_map {c : Option Subclass} {es : List (Value × Value)} (hv : h.view v = .map c es) :
    h.isZero v = .ok (es.length == 0) := by
  rw [isZero_counted (.inr (by rw [hv]; rfl)), hv, entryCount]
  simp [Object.items?, entries?_of_map]

/-- A removed mapping is gone through by its entries, if it has any. -/
theorem removed_mapping {c : Option Subclass} {es : List (Value × Value)}
    (hv : h.view v = .map c es) :
    diffRemoved h o (n + 1) v path = es.forM fun e => keyStep h o path e.1 fun subpath =>
      diffValues h o n e.2 .nil subpath := by
  rw [diffRemoved, isZero_map hv, ask_ok]
  simp only [hv, Object.isRecord, Bool.false_eq_true, if_false, entries?_of_map]
  cases es <;> rfl

end Fields

/-! ### The walks -/

/-- Adding and removing the fields of a record touch the same places, from any states that it is
not met in, given so many steps for either. -/
def FieldsTally (h : Heap) (o : Options) (v : Value) : Prop :=
  ∀ active active' path path' n m, path.text = path'.text → Unmet h active v → Unmet h active' v →
    8 * rank h v ≤ n → 8 * rank h v ≤ m →
      Tally SamePlaces active active' path path' (addStructFields h o n v path)
        (unsetStructFields h o m v path')

/-- Adding the fields of a record sets nothing if it is zero, and fails if that cannot be told. -/
def FieldsSkip (h : Heap) (o : Options) (v : Value) : Prop :=
  ∀ active path n, Unmet h active v → 8 * rank h v ≤ n →
    Skips active path (h.isZero v) (addStructFields h o n v path)

section Walks
variable {h : Heap} {o : Options} {v : Value} {path path' : Label}
variable {active active' : List (Mark × Mark)} {n m : Nat}

/-- A value that is held by a mapping, or stands alone. -/
theorem tally_item {u : Value} (hnil : h.view u = .nil) (hp : path.text = path'.text)
    (hu : Unmet h active v) (hu' : Unmet h active' v) (hn : 8 * rank h v + 2 ≤ n)
    (hm : 8 * rank h v + 2 ≤ m) (ih : (h.view v).isRecord = true → FieldsTally h o v) :
    Tally SamePlaces active active' path path' (diffValues h o n u v path)
      (diffValues h o m v u path') := by
  obtain ⟨n, rfl⟩ : ∃ k, n = k + 2 := ⟨n - 2, by omega⟩
  obtain ⟨m, rfl⟩ : ∃ k, m = k + 2 := ⟨m - 2, by omega⟩
  by_cases hv : h.view v = .nil
  · rw [diffValues_nothing n hnil hv, diffValues_nothing m hv hnil]
    exact tallying_places.nothing succeeds_pure succeeds_pure
  · rw [diffValues_added n hnil hv, diffValues_removed m hv hnil]
    cases hr : (h.view v).isRecord with
    | true => exact ih hr active active' path path' n m hp hu hu' (by omega) (by omega)
    | false =>
      exact .inr ⟨_, _, samePlaces_here (a := .set v) (b := .unset) trivial trivial, succeeds_set,
        succeeds_unset⟩

/-- The entries of a mapping: each is found under its own key. -/
theorem tally_entries (hp : path.text = path'.text) {es : List (Value × Value)}
    (hd : (es.filterMap fun e => (h.view e.1).text?).Nodup)
    (hitem : ∀ e ∈ es, ∀ place place' : Label, place.text = place'.text →
      Tally SamePlaces active active' place place' (diffValues h o n .nil e.2 place)
        (diffValues h o m e.2 .nil place')) :
    Tally SamePlaces active active' path path'
      (es.forM fun e => keyStep h o path e.1 fun subpath =>
        ask (valueUnder h e.1 es) >>= fun y => diffValues h o n .nil y subpath)
      (es.forM fun e => keyStep h o path' e.1 fun subpath =>
        diffValues h o m e.2 .nil subpath) := by
  refine tally_forM tallying_places (l := fun e => keyName h e.1) (k := fun e => keyName h e.1)
    (List.forall₂_same.mpr fun e he => ?_)
  cases hs : (h.view e.1).text? with
  | none => exact ⟨rfl, tally_fails (keyStep_fails hs _) (keyStep_fails hs _)⟩
  | some s =>
    have hvalue : valueUnder h e.1 es = .ok e.2 := by
      rw [valueUnder_text hs, entry?_of_mem hd he hs]
      rfl
    refine tally_keyStep tallying_places hp hs hs (fun _ _ hl hk => hl.trans hk.symm)
      fun l k hl hk => ?_
    rw [hvalue, ask_ok]
    exact hitem e he _ _ (text_joinPath hp (hl.trans hk.symm))

/-- An added or removed value of a field. -/
inductive Field.Sort (h : Heap) (v : Value) : Prop
  | nothing (hv : h.view v = .nil)
  | record (hr : (h.view v).isRecord = true)
  | mapping (c : Option Subclass) (es : List (Value × Value)) (z : Object Value)
      (hv : h.view v = .map c es) (hz : (h.view v).zero? = some z)
  | plain (hn : h.view v ≠ .nil) (hr : (h.view v).isRecord = false)
      (hk : (h.view v).kind ≠ .mapping)

theorem field_sort (hrev : Reversible h v) : Field.Sort h v := by
  by_cases hn : h.view v = .nil
  · exact .nothing hn
  cases hr : (h.view v).isRecord with
  | true => exact .record hr
  | false =>
    by_cases hk : (h.view v).kind = .mapping
    · cases hz : (h.view v).zero? with
      | none => exact absurd hk (hrev hz hr hn).1
      | some z =>
        cases hv : h.view v with
        | map c es => exact .mapping c es z hv hz
        | mapView t =>
          rw [hv] at hz
          cases hz
        | _ => simp_all [Object.kind, Object.isRecord]
    · exact .plain hn hr hk

variable (hs : o.strategy = .replace ∨ o.strategy = .append)
include hs

/-- A field that is zero is not added. -/
theorem skips_field (hv : Mirrored h v) (hrev : Reversible h v) (hu : Unmet h active v)
    (hn : 8 * rank h v + 7 ≤ n) (ih : (h.view v).isRecord = true → FieldsSkip h o v) :
    Skips active path (h.isZero v) (diffAdded h o n v path) := by
  obtain ⟨n, rfl⟩ : ∃ k, n = k + 7 := ⟨n - 7, by omega⟩
  cases field_sort hrev with
  | nothing hv =>
    rw [diffAdded, hv]
    exact skips_pure (by rw [isZero_leaf (by rw [hv]; rfl), hv]; rfl)
  | record hr =>
    have hnil := Object.ne_nil_of_record (Object.isRecord_iff.mp hr)
    rw [diffAdded]
    simp only [isNil_false hnil, hr, Bool.false_eq_true, if_false, if_true]
    exact ih hr active path (n + 6) hu (by omega)
  | mapping c es z hv hz =>
    rw [added_mapping hv hz, isZero_map hv]
    cases es with
    | nil => exact skips_pure rfl
    | cons e es => exact skips_false
  | plain hn hr hk => exact (added_plain hs hn hr hk hrev hv.dated.here).toSkips

/-- **A record of zero fields adds nothing**, whichever of them are ignored. -/
theorem fields_skip (hv : Mirrored h v) (ht : Testable h o v) (hr : (h.view v).isRecord = true) :
    FieldsSkip h o v := by
  induction hrank : rank h v using Nat.strong_induction_on generalizing v with
  | _ k ih =>
    intro active path n hu hn
    have hk := Object.isRecord_iff.mp hr
    have hnil := Object.ne_nil_of_record hk
    have hpos := rank_pos hnil
    obtain ⟨n, rfl⟩ : ∃ m, n = m + 1 := ⟨n - 1, by omega⟩
    have htests : (∀ f ∈ (h.view v).fields, (!o.ignores h
        [f.name, f.external, (joinPath path (.plain f.external)).text]) = true) ∨
        Answers (allHold (fun f : Field => h.isZero (h.fieldValue v f.name)) (h.view v).fields) :=
      ht.imp (fun hi f _ => by simp [Options.ignores, hi]) fun ht =>
        isZero_record hv.acyclic hk ▸ ht v .refl
    rw [addStructFields, activeFields_kept (Object.fields?_nil hr), ask_ok,
      isZero_record hv.acyclic hk]
    refine Skips.visiting (hu.fresh hnil) ?_
    rw [forM_map]
    refine skips_filter htests fun f hf => ?_
    have hl : h.Link v (h.fieldValue v f.name) := .field f hr hf
    have hlt := rank_link hv.acyclic hl
    exact (skips_field hs (hv.link hl) (hv.fields v .refl hr f hf) (hu.enter hv.acyclic hl)
      (by omega) fun hr => ih _ (hrank ▸ hlt) (hv.link hl) (ht.link hl) hr rfl).under

/-- The value of a field. -/
theorem tally_field (hp : path.text = path'.text) (hv : Mirrored h v) (ht : Testable h o v)
    (hrev : Reversible h v) (hu : Unmet h active v) (hu' : Unmet h active' v)
    (hn : 8 * rank h v + 7 ≤ n) (hm : 8 * rank h v + 7 ≤ m)
    (ih : ∀ w, w = v ∨ h.Link v w → (h.view w).isRecord = true → FieldsTally h o w) :
    Tally SamePlaces active active' path path' (diffAdded h o n v path)
      (diffRemoved h o m v path') := by
  obtain ⟨n, rfl⟩ : ∃ k, n = k + 7 := ⟨n - 7, by omega⟩
  obtain ⟨m, rfl⟩ : ∃ k, m = k + 7 := ⟨m - 7, by omega⟩
  cases field_sort hrev with
  | nothing hv =>
    have hzero : h.isZero v = .ok true := by
      rw [isZero_leaf (by rw [hv]; rfl), hv]
      rfl
    rw [diffAdded, diffRemoved, hzero, hv]
    exact tallying_places.nothing succeeds_pure succeeds_pure
  | record hr =>
    have hnil := Object.ne_nil_of_record (Object.isRecord_iff.mp hr)
    have hskip := fields_skip hs hv ht hr active path (n + 6) hu (by omega)
    rw [diffAdded, diffRemoved]
    simp only [isNil_false hnil, hr, Bool.false_eq_true, if_false, if_true]
    exact (ih v (.inl rfl) hr active active' path path' (n + 6) (m + 6) hp hu hu' (by omega)
      (by omega)).unless tallying_places hskip
  | mapping c es z hview hz =>
    rw [added_mapping hview hz, removed_mapping hview]
    have hregular := hv.regular.here
    rw [hview] at hregular
    refine tally_entries hp hregular.2 fun e he place place' hplace => ?_
    have hl : h.Link v e.2 := .entry (by rw [hview]; exact entries?_of_map) he
    have hlt := rank_link hv.acyclic hl
    exact tally_item rfl hplace (hu.link hl) (hu'.link hl) (by omega) (by omega) (ih e.2 (.inr hl))
  | plain hn hr hk =>
    exact (added_plain hs hn hr hk hrev hv.dated.here).tally (removed_plain hr hk)

/-- **Adding and removing a record touch the same places.** -/
theorem fields_tally (hv : Mirrored h v) (ht : Testable h o v) (hr : (h.view v).isRecord = true) :
    FieldsTally h o v := by
  induction hrank : rank h v using Nat.strong_induction_on generalizing v with
  | _ k ih =>
    intro active active' path path' n m hp hu hu' hn hm
    have hnil := Object.ne_nil_of_record (Object.isRecord_iff.mp hr)
    have hpos := rank_pos hnil
    obtain ⟨n, rfl⟩ : ∃ i, n = i + 1 := ⟨n - 1, by omega⟩
    obtain ⟨m, rfl⟩ : ∃ i, m = i + 1 := ⟨m - 1, by omega⟩
    rw [addStructFields, unsetStructFields]
    refine Tally.visiting (hu.fresh hnil) (hu'.fresh hnil) ?_
    refine tally_fields tallying_places hp (Object.fields?_nil hr) (Object.fields?_nil hr) (.inl rfl)
      (fun _ _ => rfl) (fun f place => diffAdded h o n (h.fieldValue v f.name) place)
      (fun f place => diffRemoved h o m (h.fieldValue v f.name) place) fun f hf => ?_
    have hl : h.Link v (h.fieldValue v f.name) := .field f hr hf
    have hlt := rank_link hv.acyclic hl
    refine tally_field hs (text_joinPath hp rfl) (hv.link hl) (ht.link hl)
      (hv.fields v .refl hr f hf) (hu.enter hv.acyclic hl) (hu'.enter hv.acyclic hl) (by omega)
      (by omega) fun w hw hr => ?_
    rcases hw with rfl | hw
    · exact ih _ (hrank ▸ hlt) (hv.link hl) (ht.link hl) hr rfl
    · have hbelow := rank_link (hv.link hl).acyclic hw
      exact ih _ (by omega) ((hv.link hl).link hw) ((ht.link hl).link hw) hr rfl

end Walks

/-! ### The patches -/

variable {h : Heap} {v : Value}

theorem tally_compare (hv : Mirrored h v) : Tally SamePlaces [] [] (.plain "") (.plain "")
    (compare h .default .nil v (.plain "")) (compare h .default v .nil (.plain "")) := by
  have hbound : rank h v < h.pairBound v .nil := rank_lt_pairBound v .nil
  have hbound' : rank h v < h.pairBound .nil v := by
    rw [pairBound_comm]
    exact hbound
  have hunmet : Unmet h [] v := fun _ _ _ _ _ => nofun
  refine tally_item rfl rfl hunmet hunmet ?_ ?_ (fields_tally (.inl rfl) hv (.inl rfl))
  · rw [stepBound]
    omega
  · rw [stepBound]
    omega

theorem comparable_added (hn : h.view v ≠ .nil) : Comparable h .nil v := by
  constructor
  · rw [isNil_false hn, Bool.and_false]
    exact Bool.false_ne_true
  · rw [show (h.view .nil).isNil = true from rfl]
    simp

theorem comparable_removed (hn : h.view v ≠ .nil) : Comparable h v .nil := by
  constructor
  · rw [isNil_false hn]
    exact Bool.false_ne_true
  · rw [show (h.view .nil).isNil = true from rfl]
    simp

/-- **Adding and removing are dual.** Let a value without cycles have only reversible fields
wherever adding or removing it comes by them. Then there is a patch that adds it just when there
is one that removes it, and the two record the same paths. -/
theorem diff_dual (hv : Mirrored h v) (hn : h.view v ≠ .nil) :
    ((∃ p, (diff h .default .nil v).1 = .ok p) ↔ ∃ q, (diff h .default v .nil).1 = .ok q) ∧
    ∀ p q, (diff h .default .nil v).1 = .ok p → (diff h .default v .nil).1 = .ok q →
      ∀ path, path ∈ p.paths ↔ path ∈ q.paths := by
  obtain ⟨hboth, hsame⟩ := patches_of_tally
    (searched_acyclic acyclic_nil hv.acyclic hv.acyclic acyclic_nil fun hd =>
      absurd hd Bool.false_ne_true)
    (iff_of_true (comparable_added hn) (comparable_removed hn)) (tally_compare hv)
  refine ⟨hboth, fun p q hp hq path => ?_⟩
  obtain ⟨cs, ds, hplaces, ⟨hcs, -⟩, hds, -⟩ := hsame p q hp hq
  rw [mem_paths_iff hcs, mem_paths_iff hds, hplaces.paths]

/-- A record of zeros and others: numbers, texts, a list, a mapping, a member and a record. -/
def parcel : Heap :=
  ⟨#[.record ⟨"Parcel", .freeform⟩ [("n", 3), ("s", 4), ("xs", 5), ("m", 6), ("e", 7), ("p", 2)],
    .record ⟨"Parcel", .freeform⟩ [("n", 3), ("s", 9)], .int none 0, .text none "",
    .list none [8], .map none [(9, 8)], .member ⟨"Mode", true⟩ "ON" 8, .int none 3, .text none "k"]⟩

theorem diff_dual_parcel :
    Mirrored parcel (.ref 1) ∧ parcel.view (.ref 1) ≠ .nil ∧
    ∃ p q, (diff parcel .default .nil (.ref 1)).1 = .ok p ∧
      (diff parcel .default (.ref 1) .nil).1 = .ok q ∧
      p.paths = ["xs", "m.k", "e", "p.s"] ∧ ∀ path, path ∈ p.paths ↔ path ∈ q.paths := by
  have hfacts : (∀ a < parcel.size, ∀ b ∈ (parcel.object a).children, 10 - b < 10 - a) ∧
      (∀ a < parcel.size, ∀ f ∈ (parcel.view (.ref a)).fields,
        ((parcel.view (parcel.fieldValue (.ref a) f.name)).zero?.isSome = true ∨
          (parcel.view (parcel.fieldValue (.ref a) f.name)).isRecord = true) ∨
        (parcel.view (parcel.fieldValue (.ref a) f.name)).kind ≠ .mapping ∧
          (parcel.isZero (parcel.fieldValue (.ref a) f.name)).toOption = some false) ∧
      (diff parcel .default .nil (.ref 1)).1.toOption.map (·.paths) =
        some ["xs", "m.k", "e", "p.s"] := by decide +kernel
  obtain ⟨hranks, hfields, hrun⟩ := hfacts
  have hcells : ∀ a < parcel.size, parcel.Regular (parcel.view (.ref a)) ∧
      Dated (parcel.view (.ref a)) := by
    intro a ha
    have : a < 10 := ha
    interval_cases a <;> exact ⟨by trivial, trivial⟩
  have hv : Mirrored parcel (.ref 1) := by
    refine mirrored_ref (10 - ·) hranks hcells (fun a ha _ f hf hz hr _ => ?_) 1
    rcases hfields a ha f hf with (hzero | hrecord) | ⟨hk, hzero⟩
    · rw [hz] at hzero
      cases hzero
    · rw [hr] at hrecord
      cases hrecord
    · exact ⟨hk, ok_of_toOption hzero⟩
  have hn : parcel.view (.ref 1) ≠ .nil := nofun
  obtain ⟨p, hp, hpaths⟩ := Option.map_eq_some_iff.mp hrun
  have hadd := ok_of_toOption hp
  obtain ⟨hboth, hsame⟩ := diff_dual hv hn
  obtain ⟨q, hremove⟩ := hboth.mp ⟨p, hadd⟩
  exact ⟨hv, hn, p, q, hadd, hremove, hpaths, hsame p q hadd hremove⟩

/-- A record with a member of a whole-number enumeration that counts as zero. -/
def dial : Heap :=
  ⟨#[.record ⟨"Dial", .freeform⟩ [("e", 2)], .member ⟨"Mode", true⟩ "OFF" 3, .int none 0]⟩

/-- A zero that cannot be made from its class is added, but it is not removed. -/
theorem diff_keeps_dial :
    ¬ ∀ (h : Heap) (v : Value), h.Acyclic v → h.Everywhere h.Regular v → h.Everywhere Dated v →
      h.view v ≠ .nil →
        ((∃ p, (diff h .default .nil v).1 = .ok p) ↔ ∃ q, (diff h .default v .nil).1 = .ok q) ∧
        ∀ p q, (diff h .default .nil v).1 = .ok p → (diff h .default v .nil).1 = .ok q →
          ∀ path, path ∈ p.paths ↔ path ∈ q.paths := by
  intro hall
  have hfacts : (∀ a < dial.size, ∀ b ∈ (dial.object a).children, 4 - b < 4 - a) ∧
      (diff dial .default .nil (.ref 1)).1.toOption.map (·.paths) = some ["e"] ∧
      (diff dial .default (.ref 1) .nil).1.toOption.map (·.paths) = some [] := by decide +kernel
  obtain ⟨hranks, hadded, hremoved⟩ := hfacts
  have hcells : ∀ a < dial.size, dial.Regular (dial.view (.ref a)) ∧ Dated (dial.view (.ref a)) := by
    intro a ha
    have : a < 4 := ha
    interval_cases a <;> exact ⟨trivial, trivial⟩
  obtain ⟨p, hp, hset⟩ := Option.map_eq_some_iff.mp hadded
  obtain ⟨q, hq, hnone⟩ := Option.map_eq_some_iff.mp hremoved
  obtain ⟨-, hsame⟩ := hall dial (.ref 1) (acyclic_ref (4 - ·) hranks 1)
    (everywhere_ref trivial (fun a ha => (hcells a ha).1) 1)
    (everywhere_ref trivial (fun a ha => (hcells a ha).2) 1) nofun
  have hin := (hsame p q (ok_of_toOption hp) (ok_of_toOption hq) "e").mp
    (by rw [hset]; exact List.mem_singleton_self _)
  rw [hnone] at hin
  cases hin

end DocDelta.Diff
