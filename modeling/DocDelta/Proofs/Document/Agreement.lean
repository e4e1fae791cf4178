import DocDelta.Proofs.Document.Matched

/-! When two documents agree.

Documents agree when they are the same once what is blank is dropped: entries that are nothing,
a zero scalar, an empty list, or a map all of whose entries are blank. Equal values have documents
that are the same, and a zero value has a blank one. -/
namespace DocDelta
open Relation

namespace Document
variable (h : Heap)

/-- What may as well be absent: nothing, a zero scalar, an empty list, or a map of blanks. -/
inductive Blank : Option Value → Prop
  | absent : Blank none
  | scalar {d : Value} (hz : h.isZeroScalar (h.view d) = .ok true) : Blank (some d)
  | list {d : Value} (hd : h.view d = .list none []) : Blank (some d)
  | map {d : Value} {es : List (Value × Value)} (hd : h.view d = .map none es)
      (he : ∀ s, Blank (h.entry? s es)) : Blank (some d)

/-- Documents of one shape whose leaves are one object or equal. -/
inductive Same : Value → Value → Prop
  | self (d : Value) : Same d d
  | leaf {d e : Value} (hd : (h.view d).kind.isLeaf = true) (he : (h.view e).kind.isLeaf = true)
      (hm : h.matching d e = .ok true) : Same d e
  | list {d e : Value} {xs ys : List Value} (hd : h.view d = .list none xs)
      (he : h.view e = .list none ys) (hp : List.Forall₂ Same xs ys) : Same d e
  | map {d e : Value} {as bs : List (Value × Value)} (hd : h.view d = .map none as)
      (he : h.view e = .map none bs)
      (hp : ∀ s, Option.Rel Same (h.entry? s as) (h.entry? s bs)) : Same d e

/-- What is at two places agrees: nothing that counts is there, or the same, or maps that agree
under every name. -/
inductive Agree : Option Value → Option Value → Prop
  | blank {c e : Option Value} (hc : Blank h c) (he : Blank h e) : Agree c e
  | same {c e : Value} (hs : Same h c e) : Agree (some c) (some e)
  | map {c e : Value} {as bs : List (Value × Value)} (hc : h.view c = .map none as)
      (he : h.view e = .map none bs)
      (hp : ∀ s, Agree (h.entry? s as) (h.entry? s bs)) : Agree (some c) (some e)

variable {h}

theorem blank_nil {v : Value} (hv : h.view v = .nil) : Blank h (some v) := by
  apply Blank.scalar
  rw [hv]
  rfl

end Document

namespace Heap
open Document
variable {h : Heap} {K : ClassTable} {v w a b : Value}

/-! ### Zero values -/

/-- A whole number that a member stands for is a number itself. -/
theorem numeric?_of_whole? {o : Object Value} {n : Int} (hn : o.whole? = some n) :
    h.numeric? o = some (.real (.ofInt n)) := by
  cases o <;> cases hn <;> rfl

theorem isLeaf_of_whole? {o : Object Value} {n : Int} (hp : h.Plain o) (hn : o.whole? = some n) :
    o.kind.isLeaf = true := by
  cases o with
  | bool b => rfl
  | int c k =>
    cases c with
    | none => rfl
    | some c => exact absurd hp id
  | _ => cases hn

/-- The names of the fields of a fit record are distinct. -/
theorem Fit.fields_nodup (hv : h.Fit K v) (hk : (h.view v).kind = .record) :
    ((h.view v).fields.map (·.external)).Nodup :=
  (Diff.own_fields hv.wellNamed (Object.isRecord_iff.mpr hk)).2.2

/-- Only a member that stands for a whole number is zero, with the number. -/
theorem isZero_of_member {c : EnumClass} {n : String} (hv : h.Fit K v)
    (hview : h.view v = .member c n w) (hz : h.isZeroScalar (h.view v) = .ok true) :
    h.isZero w = .ok true := by
  have hw := hv.of_within (.single (member_part hview))
  rw [hview] at hz
  simp only [isZeroScalar, numeric?, Except.ok.injEq] at hz
  split at hz
  · cases hn : (h.view w).whole? with
    | none =>
      rw [hn] at hz
      cases hz
    | some k =>
      rw [hn] at hz
      have hnum := numeric?_of_whole? (h := h) hn
      rw [isZero_leaf (isLeaf_of_whole? hw.plain.here hn), isZeroScalar_of_numeric hnum, hnum]
      exact hz
  · cases hz

/-- **A zero value has a blank document.** -/
theorem zero_document (hv : h.Fit K v) (hz : h.isZero v = .ok true) :
    ∃ d, h.document v = .ok d ∧ Blank h (some d) := by
  refine hv.acyclic.induction (P := fun v => h.Fit K v → h.isZero v = .ok true →
    ∃ d, h.document v = .ok d ∧ Blank h (some d)) ?_ hv hz
  intro v _ ih hv hz
  cases hk : (h.view v).kind with
  | record =>
    have hnil := Object.ne_nil_of_record hk
    rw [isZero_record hv.acyclic hk, allHold_eq_true] at hz
    have hfield : ∀ f ∈ (h.view v).fields,
        ∃ d, h.document (h.fieldValue v f.name) = .ok d ∧ Blank h (some d) := fun f hf =>
      ih _ (hv.acyclic.fieldValue f.name) (hv.acyclic.rank_fieldValue hnil f.name)
        (hv.fieldValue f.name) (hz f hf)
    obtain ⟨d, hd⟩ := record_document hv.acyclic hk fun f hf =>
      ⟨(hfield f hf).imp fun d hd => hd.1, fun _ => ⟨true, hz f hf⟩⟩
    obtain ⟨es, rfl, hother, hfields⟩ := record_entries hv.acyclic hk (hv.fields_nodup hk) hd
    refine ⟨_, hd, .map rfl fun s => ?_⟩
    by_cases hs : s ∈ (h.view v).fields.map (·.external)
    · obtain ⟨f, hf, rfl⟩ := List.mem_map.mp hs
      rcases hfields f hf with ⟨_, he⟩ | ⟨_, x, hx, he⟩
      · rw [he]
        exact .absent
      · obtain ⟨d, hd, hb⟩ := hfield f hf
        rw [hx] at hd
        cases hd
        rw [he]
        exact hb
    · rw [hother s hs]
      exact .absent
  | mapping =>
    obtain ⟨es, he⟩ := hv.entries hk
    rw [isZero_counted (.inr hk), he.entryCount] at hz
    obtain rfl : es = [] := List.eq_nil_of_length_eq_zero (eq_of_beq (Except.ok.inj hz))
    refine ⟨.map [], ?_, .map rfl fun s => .absent⟩
    rw [document_mapping hv.acyclic hk he.entries]
    rfl
  | sequence =>
    obtain ⟨xs, hx⟩ := Object.items?_of_sequence hk
    rw [isZero_counted (.inl hk), entryCount_items hx] at hz
    obtain rfl : xs = [] := List.eq_nil_of_length_eq_zero (eq_of_beq (Except.ok.inj hz))
    refine ⟨.list [], ?_, .list rfl⟩
    rw [document_sequence hv.acyclic hk hx]
    rfl
  | _ =>
    have hl : (h.view v).kind.isLeaf = true := by
      rw [hk]
      rfl
    rw [isZero_leaf hl] at hz
    rcases document_leaf_cases hv.acyclic hl with ⟨c, n, w, hview, hd⟩ | ⟨_, hd⟩
    · have hw := hv.of_within (.single (member_part hview))
      rw [hd]
      exact ih w hw.acyclic (hv.acyclic.rank_below (.single (member_part hview))) hw
        (isZero_of_member hv hview hz)
    · exact ⟨v, hd, .scalar hz⟩

/-- The zero value of a plain value's class is plain and zero. -/
theorem zero?_zero {x z : Object Value} (hp : h.Plain x) (hz : x.zero? = some z) :
    h.Plain z ∧ h.isZero (.inline z) = .ok true := by
  have hleaf : z.kind.isLeaf = true → h.isZeroScalar z = .ok true → h.isZero (.inline z) = .ok true :=
    fun hl hs => (isZero_leaf (v := .inline z) hl).trans hs
  cases x with
  | bool b => cases hz; exact ⟨trivial, hleaf rfl rfl⟩
  | int c n =>
    obtain rfl := Object.emptyOf_eq_some (.int · 0) hz
    cases c with
    | none => exact ⟨trivial, hleaf rfl rfl⟩
    | some c => exact absurd hp id
  | float c n =>
    obtain rfl := Object.emptyOf_eq_some (.float · Number.Binary64.zero) hz
    have hzero : (Number.Decimal.ofBinary64 Number.Binary64.zero).isZero = true := by decide +kernel
    cases c with
    | none =>
      refine ⟨trivial, hleaf rfl ?_⟩
      simp only [isZeroScalar, numeric?, Option.any_some, Numeric.isZero, hzero]
    | some c => exact absurd hp id
  | decimal d => cases hz; exact ⟨trivial, hleaf rfl rfl⟩
  | text c s =>
    obtain rfl := Object.emptyOf_eq_some (.text · "") hz
    cases c with
    | none => exact ⟨trivial, hleaf rfl rfl⟩
    | some c => exact absurd hp id
  | bytes c s =>
    obtain rfl := Object.emptyOf_eq_some (.bytes · []) hz
    cases c with
    | none => exact ⟨trivial, hleaf rfl rfl⟩
    | some c => exact absurd hp id
  | list c xs =>
    obtain rfl := Object.emptyOf_eq_some (.list · []) hz
    cases c with
    | none => exact ⟨trivial, isZero_counted (.inl rfl)⟩
    | some c => exact absurd hp id
  | tuple c xs =>
    obtain rfl := Object.emptyOf_eq_some (.tuple · []) hz
    cases c with
    | none => exact ⟨trivial, isZero_counted (.inl rfl)⟩
    | some c => exact absurd hp id
  | map c es =>
    obtain rfl := Object.emptyOf_eq_some (.map · []) hz
    cases c with
    | none => exact ⟨List.forall_mem_nil _, isZero_counted (.inr rfl)⟩
    | some c => exact absurd hp id
  | date d =>
    cases hz
    have hproper : Calendar.Date.first.Proper := by decide
    exact ⟨hproper, hleaf rfl rfl⟩
  | time t =>
    cases hz
    have hmidnight : Calendar.Time.midnight.Proper ∧ Calendar.Time.midnight.isMidnight = true := by decide
    rw [hp.1]
    exact ⟨⟨rfl, hmidnight.1⟩, hleaf rfl (congrArg Except.ok hmidnight.2)⟩
  | datetime t =>
    cases hz
    have hfirst : Calendar.Date.first.Proper ∧ Calendar.Time.midnight.Proper ∧
        (Calendar.DateTime.mk Calendar.Date.first Calendar.Time.midnight).isFirst = true := by decide
    rw [hp.1]
    exact ⟨⟨rfl, hfirst.1, hfirst.2.1⟩, hleaf rfl (congrArg Except.ok hfirst.2.2)⟩
  | duration d => cases hz; exact ⟨trivial, hleaf rfl rfl⟩
  | complex re im => exact absurd hp id
  | _ => cases hz

/-- The zero value of the class of a fit value is fit and zero. -/
theorem Fit.zero {z : Object Value} (hv : h.Fit K v) (hr : (h.view v).isRecord = false)
    (hz : (h.view v).zero? = some z) :
    h.Fit K (.inline z) ∧ h.isZero (.inline z) = .ok true := by
  have hblank := Object.zero?_blank hz
  obtain ⟨hplain, hzero⟩ := zero?_zero hv.plain.here hz
  exact ⟨⟨everywhere_of_empty hblank.children hplain,
    everywhere_of_empty hblank.children (hblank.follows hv.named.here),
    wellNamed_of_empty hblank.children (hblank.isRecord.trans hr),
    acyclic_of_empty hblank.children⟩, hzero⟩

/-! ### Values that have documents -/

/-- Fit values can be compared, unless a number in them cannot. -/
theorem Fit.sane (hv : h.Fit K v) (hq : h.Everywhere Quiet v) : h.Sane K v := by
  refine ⟨fun w hw => ?_, hq, hv.named⟩
  have hw := hv.of_within hw
  have hp := hw.plain.here
  have hn := hw.wellNamed.here
  cases hview : h.view w with
  | map c es =>
    rw [hview] at hp hn
    cases c with
    | some c => exact absurd hp id
    | none =>
      refine ⟨fun e he => ?_, hn.nodup⟩
      obtain ⟨s, hs⟩ := Option.isSome_iff_exists.mp (hp e he)
      exact hashable_of_text hs
  | set c xs =>
    rw [hview] at hp
    exact absurd hp (by cases c <;> exact id)
  | frozenset c xs =>
    rw [hview] at hp
    exact absurd hp (by cases c <;> exact id)
  | mapView t =>
    rw [hview] at hp
    exact absurd hp id
  | _ => trivial

/-- **A fit value has a document**, unless a number in it cannot be compared. -/
theorem Fit.document (hv : h.Fit K v) (hq : h.Everywhere Quiet v) : ∃ d, h.document v = .ok d := by
  refine hv.acyclic.induction (P := fun v => h.Fit K v → h.Everywhere Quiet v →
    Answers (h.document v)) ?_ hv hq
  intro v _ ih hv hq
  have hbelow : ∀ w, TransGen h.Part v w → Answers (h.document w) := fun w hw =>
    ih w (hv.acyclic.of_within hw.to_reflTransGen) (hv.acyclic.rank_below hw)
      (hv.of_within hw.to_reflTransGen) (hq.of_within hw.to_reflTransGen)
  cases hk : (h.view v).kind with
  | record =>
    refine record_document hv.acyclic hk fun f hf => ⟨?_, fun _ => ?_⟩
    · rcases fieldValue_part v f.name with he | hp
      · rw [he, document_nil]
        exact answers_ok _
      · exact hbelow _ (.single hp)
    · exact answers_isZero ((hv.sane hq).fieldValue f.name)
  | mapping =>
    obtain ⟨es, he⟩ := hv.entries hk
    rw [document_mapping hv.acyclic hk he.entries]
    refine answers_bind (answers_mapM fun e hm => ?_) fun es _ => answers_ok _
    exact answers_bind (hbelow _ (entries?_below he.entries hm).2) fun d _ => answers_ok _
  | sequence =>
    obtain ⟨xs, hx⟩ := Object.items?_of_sequence hk
    rw [document_sequence hv.acyclic hk hx]
    refine answers_bind (answers_mapM fun x hm => ?_) fun xs _ => answers_ok _
    refine hbelow x (.single (items?_part ?_))
    rw [hx]
    exact hm
  | _ =>
    have hl : (h.view v).kind.isLeaf = true := by
      rw [hk]
      rfl
    rcases document_leaf_cases hv.acyclic hl with ⟨c, n, w, hview, hd⟩ | ⟨_, hd⟩
    · rw [hd]
      exact hbelow w (.single (member_part hview))
    · rw [hd]
      exact answers_ok v

/-! ### Equal values -/

/-- Members of one name stand for equal values. -/
def Coherent (h : Heap) (a b : Value) : Prop :=
  ∀ u w c n x y, h.Within a u → h.Within b w → h.view u = .member c n x →
    h.view w = .member c n y → h.deepEqual x y = .ok true

theorem Coherent.of_within {u w : Value} (hc : h.Coherent a b) (hu : h.Within a u)
    (hw : h.Within b w) : h.Coherent u w :=
  fun _ _ c n x y hx hy => hc _ _ c n x y (hu.trans hx) (hw.trans hy)

theorem coherent_nil_left (b : Value) : h.Coherent .nil b := by
  intro u w c n x y hu _ hx _
  rw [within_nil hu] at hx
  cases hx

theorem coherent_nil_right (a : Value) : h.Coherent a .nil := by
  intro u w c n x y _ hw _ hy
  rw [within_nil hw] at hy
  cases hy

/-- Where there are no members nothing is asked of them. -/
theorem coherent_of_no_members (hm : h.Everywhere (fun o => ∀ c n w, o ≠ .member c n w) a) :
    h.Coherent a b := fun u _ c n x _ hu _ hx _ => absurd hx (hm u hu c n x)

theorem Coherent.fieldValue (hc : h.Coherent a b) (name : String) :
    h.Coherent (h.fieldValue a name) (h.fieldValue b name) := by
  rcases fieldValue_part a name with hx | hx
  · rw [hx]
    exact coherent_nil_left _
  · rcases fieldValue_part b name with hy | hy
    · rw [hy]
      exact coherent_nil_right _
    · exact hc.of_within (.single hx) (.single hy)

/-- Equal members stand for values that are equal, or for whole numbers that match. -/
theorem values_of_members {c : EnumClass} {m n : String} {x y : Value} (hco : h.Coherent a b)
    (ha : h.view a = .member c m x) (hb : h.view b = .member c n y)
    (hm : h.matching a b = .ok true) :
    x = y ∨ h.deepEqual x y = .ok true ∨ ∃ i j, (h.view x).whole? = some i ∧
      (h.view y).whole? = some j ∧ h.matching x y = .ok true := by
  rcases layers_of_matching hm with he | ⟨eq, hs⟩
  · rw [ha, hb] at he
    cases he
    exact .inl rfl
  · rw [ha, hb] at hs
    simp only [sameObject, Bool.and_self] at hs
    split at hs
    · rename_i hw
      simp only [sameObject.numbers, numeric?, hw, if_true] at hs
      cases hx : (h.view x).whole? with
      | none =>
        rw [hx] at hs
        cases hs
      | some i =>
        cases hy : (h.view y).whole? with
        | none =>
          rw [hx, hy] at hs
          cases hs
        | some j =>
          rw [hx, hy] at hs
          exact .inr (.inr ⟨i, j, rfl, rfl, matching_of_whole hx hy hs⟩)
    · simp only [BEq.rfl, Bool.true_and, Except.ok.injEq, beq_iff_eq] at hs
      subst hs
      exact .inr (.inl (hco a b c m x y .refl .refl ha hb))

section Same
variable {d e : Value}

theorem same_whole {i j : Int} (ha : h.Fit K a) (hb : h.Fit K b) (hi : (h.view a).whole? = some i)
    (hj : (h.view b).whole? = some j) (hm : h.matching a b = .ok true)
    (hd : h.document a = .ok d) (hde : h.document b = .ok e) : Same h d e := by
  have hwhole : ∀ {w : Value} {k : Int}, (h.view w).whole? = some k →
      ∀ c n u, h.view w ≠ .member c n u := fun hk c n u hu => by
    rw [hu] at hk
    cases hk
  have hla := isLeaf_of_whole? ha.plain.here hi
  have hlb := isLeaf_of_whole? hb.plain.here hj
  rw [document_leaf hla (hwhole hi)] at hd
  rw [document_leaf hlb (hwhole hj)] at hde
  cases hd
  cases hde
  exact .leaf hla hlb hm

/-- Records with the same fields have the same document where their fields have. -/
theorem same_records (ha : h.Fit K a) (hb : h.Fit K b) (hk : (h.view a).kind = .record)
    (hkb : (h.view b).kind = .record) (hf : (h.view a).fields = (h.view b).fields)
    (hzero : ∀ name, h.isZero (h.fieldValue a name) = .ok true ↔
      h.isZero (h.fieldValue b name) = .ok true)
    (hp : ∀ name x y, h.document (h.fieldValue a name) = .ok x →
      h.document (h.fieldValue b name) = .ok y → Same h x y)
    (hd : h.document a = .ok d) (hde : h.document b = .ok e) : Same h d e := by
  obtain ⟨as, rfl, hothera, hfieldsa⟩ := record_entries ha.acyclic hk (ha.fields_nodup hk) hd
  obtain ⟨bs, rfl, hotherb, hfieldsb⟩ := record_entries hb.acyclic hkb (hb.fields_nodup hkb) hde
  rw [← hf] at hotherb hfieldsb
  refine .map rfl rfl fun s => ?_
  by_cases hs : s ∈ (h.view a).fields.map (·.external)
  · obtain ⟨f, hfm, rfl⟩ := List.mem_map.mp hs
    have homitted : h.Omitted a f ↔ h.Omitted b f := and_congr_right fun _ => hzero f.name
    rcases hfieldsa f hfm with ⟨hoa, hea⟩ | ⟨hka, x, hx, hea⟩
    · rcases hfieldsb f hfm with ⟨_, heb⟩ | ⟨hkb, _⟩
      · rw [hea, heb]
        exact .none
      · exact absurd (homitted.mp hoa) hkb
    · rcases hfieldsb f hfm with ⟨hob, _⟩ | ⟨_, y, hy, heb⟩
      · exact absurd (homitted.mpr hob) hka
      · rw [hea, heb]
        exact .some (hp f.name x y hx hy)
  · rw [hothera s hs, hotherb s hs]
    exact .none

/-- **Equal values have documents that are the same.** -/
theorem same_of_deepEqual (ha : h.Fit K a) (hb : h.Fit K b) (hco : h.Coherent a b)
    (he : h.deepEqual a b = .ok true) (hd : h.document a = .ok d) (hde : h.document b = .ok e) :
    Same h d e := by
  refine ha.acyclic.induction (P := fun a => ∀ b d e, h.Fit K a → h.Fit K b → h.Coherent a b →
    h.deepEqual a b = .ok true → h.document a = .ok d → h.document b = .ok e → Same h d e)
    ?_ b d e ha hb hco he hd hde
  intro a _ ih b d e ha hb hco he hd hde
  obtain ⟨hform, hkind⟩ := forms_of_deepEqual ha hb he
  cases matched_of_deepEqual ha hb he with
  | identical he =>
    rw [← he, hd] at hde
    cases hde
    exact .self d
  | leaf hl hm =>
    rcases document_leaf_cases ha.acyclic hl with ⟨c, m, x, hx, hdx⟩ | ⟨hno, hda⟩
    · have hformb : (h.view b).form = .member c := by
        rw [← hform, hx]
        rfl
      obtain ⟨n, y, hy⟩ := Object.member_of_form hformb
      have hxp := member_part hx
      have hfx := ha.of_within (.single hxp)
      have hfy := hb.of_within (.single (member_part hy))
      rw [hdx] at hd
      rw [document_member hb.acyclic hy] at hde
      rcases values_of_members hco hx hy hm with rfl | heq | ⟨i, j, hi, hj, hmatch⟩
      · rw [hd] at hde
        cases hde
        exact .self d
      · exact ih x hfx.acyclic (ha.acyclic.rank_below (.single hxp)) y d e hfx hfy
          (hco.of_within (.single hxp) (.single (member_part hy))) heq hd hde
      · exact same_whole hfx hfy hi hj hmatch hd hde
    · rcases document_leaf_cases hb.acyclic (hkind ▸ hl) with ⟨c, n, y, hy, _⟩ | ⟨_, hdb⟩
      · obtain ⟨m, x, hx⟩ := Object.member_of_form (hform.trans (congrArg Object.form hy))
        exact absurd hx (hno c m x)
      · rw [hda] at hd
        rw [hdb] at hde
        cases hd
        cases hde
        exact .leaf hl (hkind ▸ hl) hm
  | record hk hf hp =>
    refine same_records ha hb hk (hkind.trans hk) hf
      (fun name => isZero_of_deepEqual (ha.fieldValue name) (hb.fieldValue name) (hp name))
      (fun name x y hx hy => ?_) hd hde
    exact ih _ (ha.acyclic.fieldValue name)
      (ha.acyclic.rank_fieldValue (Object.ne_nil_of_record hk) name) _ x y (ha.fieldValue name)
      (hb.fieldValue name) (hco.fieldValue name) (hp name) hx hy
  | mapping hk has hbs hl hp =>
    obtain ⟨ds, rfl, hds⟩ := mapping_entries ha.acyclic hk has.entries hd
    obtain ⟨es, rfl, hes⟩ := mapping_entries hb.acyclic (hkind.trans hk) hbs.entries hde
    refine .map rfl rfl fun s => ?_
    rcases hp s with ⟨hna, hnb⟩ | ⟨x, y, hx, hy, hxy⟩
    · rw [no_document_at hds hna, no_document_at hes hnb]
      exact .none
    · obtain ⟨d, hsd, hd⟩ := document_at hds hx
      obtain ⟨e, hse, he⟩ := document_at hes hy
      rw [hsd, hse]
      have hxb := has.below hx
      have hyb := hbs.below hy
      exact .some (ih x (ha.acyclic.of_within hxb.to_reflTransGen) (ha.acyclic.rank_below hxb)
        y d e (ha.of_within hxb.to_reflTransGen) (hb.of_within hyb.to_reflTransGen)
        (hco.of_within hxb.to_reflTransGen hyb.to_reflTransGen) hxy hd he)
  | sequence hk hxs hys hp =>
    obtain ⟨ds, rfl, hds⟩ := sequence_items ha.acyclic hk hxs hd
    obtain ⟨es, rfl, hes⟩ := sequence_items hb.acyclic (hkind.trans hk) hys hde
    refine .list rfl rfl (forall₂_square hp hds hes fun x hx y hy d e hxy hd he => ?_)
    have hxp : h.Part a x := items?_part (by rw [hxs]; exact hx)
    have hyp : h.Part b y := items?_part (by rw [hys]; exact hy)
    exact ih x (ha.acyclic.of_within (.single hxp)) (ha.acyclic.rank_below (.single hxp)) y d e
      (ha.of_within (.single hxp)) (hb.of_within (.single hyp))
      (hco.of_within (.single hxp) (.single hyp)) hxy hd he

end Same

end Heap
end DocDelta
