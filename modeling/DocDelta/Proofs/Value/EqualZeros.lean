import DocDelta.Proofs.Diff.Unchanged
import DocDelta.Proofs.Value.Lawful

/-! Equal values and the tests for zero.

Equality compares what times denote, and the tests for zero read the clock: they take the first
moment for zero at any offset, so of two equal times at different offsets one may be zero and the
other not. Apart from that the tests respect deep equality (`isZero_respects_deepEqual`).

A record is zero unless some list of exported fields leads to a value that is not
(`reaches_of_isZeroWithin`). It may be found zero with records taken for granted that are being
tested further up; still everything that its fields lead to is zero then (`zeroTo_of_isZeroWithin`),
by induction on how far they lead, as equality of values that contain themselves is shown. From equal
values the same fields lead to equal ones (`Lawful.reaches`), so neither test finds what the other
does not. -/
namespace DocDelta.Heap
open Number Calendar
variable {h : Heap} {K : ClassTable} {a b v w u : Value} {n k : Nat}

/-! ### Scalars -/

/-- The offset that a time shows, if any. -/
def shownOffset? : Object Value → Option Int
  | .time t => t.offset
  | .datetime x => x.time.offset
  | _ => none

/-- A time without an offset, or no time at all. -/
def Naive : Object Value → Prop
  | .time t => t.offset = none
  | .datetime x => x.time.offset = none
  | _ => True

theorem naive_iff {o : Object Value} : Naive o ↔ shownOffset? o = none := by
  cases o <;> simp [Naive, shownOffset?]

/-- A number of a derived class: it has room for attributes, and those are what is compared. -/
def DerivedNumber : Object Value → Prop
  | .int (some _) _ | .float (some _) _ => True
  | _ => False

theorem derivedNumber_congr {x y : Object Value} (hf : x.form = y.form) :
    DerivedNumber x ↔ DerivedNumber y := by
  have hform : ∀ o : Object Value, DerivedNumber o ↔
      ∃ c, o.form = .derived "int" c ∨ o.form = .derived "float" c := by
    intro o
    cases o with
    | int c n | float c x | text c s | bytes c bs | buffer c bs | list c xs | tuple c xs | set c xs
    | frozenset c xs | map c es =>
      cases c <;> simp [DerivedNumber, Object.form, Form.ofSubclass]
    | _ => simp [DerivedNumber, Object.form]
  rw [hform, hform, hf]

/-- A number is zero when it stands for zero. -/
theorem isZero_iff_sense (n : Numeric) :
    n.isZero = true ↔ n.sense = some (.number (.eq, none)) := by
  cases n with
  | real d =>
    rw [Numeric.isZero, Numeric.sense]
    cases d with
    | nan => simp [Decimal.isZero, Decimal.quantity]
    | infinite n => cases n <;> simp [Decimal.isZero, Decimal.quantity]
    | finite n c e => cases c <;> simp [Decimal.isZero, Decimal.quantity]
  | complex re im =>
    rw [Numeric.isZero, Numeric.sense, Bool.and_eq_true, Binary64.isZero_iff re]
    split
    · rename_i him
      simp [him]
    · rename_i him
      cases (Decimal.ofBinary64 re).quantity <;> cases (Decimal.ofBinary64 im).quantity <;>
        simp [him]

/-- A number that stands for something can be compared with zero. -/
theorem isZeroScalar_eq_of_numeric {x : Object Value} {m : Numeric} {s : Sense}
    (hm : h.numeric? x = some m) (hs : m.sense = some s) : h.isZeroScalar x = .ok m.isZero := by
  cases x with
  | decimal d =>
    cases hm
    obtain ⟨q, hq, -⟩ := Option.map_eq_some_iff.mp hs
    have hquiet : ¬ d.isSignaling = true := fun hd => by
      cases (Decimal.quantity_signaling hd).symm.trans hq
    exact if_neg hquiet
  | bool b | int c n | float c n | complex re im | member c n v => simp [isZeroScalar, hm]
  | _ => cases hm

/-- Scalars other than numbers that stand for the same, at one offset if they are times, are zero
together. -/
theorem isZeroScalar_of_plain {x y : Object Value} {s : Sense} (hf : x.form = y.form)
    (hs : x.sense = some s) (hs' : y.sense = some s) (hmx : h.numeric? x = none)
    (hmy : h.numeric? y = none) (ho : shownOffset? x = shownOffset? y) (hx : Dated x)
    (hy : Dated y) : h.isZeroScalar x = h.isZeroScalar y := by
  cases s
  all_goals cases x <;> first | (simp [Object.sense] at hs; done) | skip
  all_goals cases y <;> first | (simp [Object.sense] at hs'; done) | skip
  -- what stands for the same is of one sort, and of one class here
  case time.time.time t u =>
    cases hs
    have hinstant := (Sense.time.inj (Option.some.inj hs')).2
    have ht : t.offset = u.offset := ho
    have hclock : u.clock = t.clock := by simpa [Time.instant, ht] using hinstant
    simp only [isZeroScalar, Time.isMidnight, hclock]
  case datetime.datetime.datetime t u =>
    cases hs
    have hinstant := (Sense.datetime.inj (Option.some.inj hs')).2
    have ht : t.time.offset = u.time.offset := ho
    have hclock : u.clock = t.clock := by simpa [DateTime.instant, ht] using hinstant
    refine congrArg Except.ok ?_
    rw [Bool.eq_iff_iff, DateTime.isFirst_iff hx.1 hx.2, DateTime.isFirst_iff hy.1 hy.2, hclock]
  case member.member.member =>
    simp only [isZeroScalar, hmx, hmy]
  case bytes.bytes.buffer c bs d ds =>
    cases c <;> cases d <;> simp [Object.form, Form.ofSubclass] at hf
  case bytes.buffer.bytes c bs d ds =>
    cases c <;> cases d <;> simp [Object.form, Form.ofSubclass] at hf
  all_goals
    cases hs
    cases hs'
    rfl

/-- Scalars of one class that stand for the same, at one offset if they are times, are zero
together. -/
theorem isZeroScalar_of_sense {x y : Object Value} {s : Sense} (hf : x.form = y.form)
    (hs : h.sense x = some s) (hs' : h.sense y = some s) (ho : shownOffset? x = shownOffset? y)
    (hx : Dated x) (hy : Dated y) : h.isZeroScalar x = h.isZeroScalar y := by
  unfold sense at hs hs'
  split at hs
  · rename_i m hm
    split at hs'
    · rename_i n hn
      rw [isZeroScalar_eq_of_numeric hm hs, isZeroScalar_eq_of_numeric hn hs', Except.ok.injEq,
        Bool.eq_iff_iff, isZero_iff_sense, isZero_iff_sense, hs, hs']
    · exact absurd hs' (sense_ne_of_numeric hs)
  · rename_i hmx
    split at hs'
    · exact absurd hs (sense_ne_of_numeric hs')
    · rename_i hmy
      exact isZeroScalar_of_plain hf hs hs' hmx hmy ho hx hy

/-- What stands for the same as a time without an offset has none either. -/
theorem naive_of_sense {x y : Object Value} {s : Sense} (hs : h.sense x = some s)
    (hs' : h.sense y = some s) (hn : Naive x) : Naive y := by
  have hplain : ∀ {s : Sense}, y.sense = some s → h.sense x = some s → x.sense = some s := by
    intro s hy hs
    unfold sense at hs
    split at hs
    · exact absurd hy (sense_ne_of_numeric hs)
    · exact hs
  cases y with
  | time u =>
    have hx := hplain hs' hs
    cases hs'
    cases x <;> simp [Object.sense] at hx
    rw [Naive] at hn ⊢
    rw [hn] at hx
    simpa using hx.1.symm
  | datetime u =>
    have hx := hplain hs' hs
    cases hs'
    cases x <;> simp [Object.sense] at hx
    rw [Naive] at hn ⊢
    rw [hn] at hx
    simpa using hx.1.symm
  | _ => trivial

/-- What is no scalar is not zero as one, but for numbers. -/
theorem isZeroScalar_of_object {x : Object Value} (hl : x.kind.isLeaf = false)
    (hd : ¬ DerivedNumber x) : h.isZeroScalar x = .ok false := by
  cases x with
  | int c n | float c n => cases c <;> first | exact absurd trivial hd | cases hl
  | _ => first | rfl | cases hl

theorem isZeroScalar_setItems? {x : Object Value} {xs : List Value} (hx : x.setItems? = some xs) :
    h.isZeroScalar x = .ok false := by
  cases x <;> first | rfl | cases hx

/-- Equal leaves are alike. -/
theorem Lawful.alike (ha : h.Lawful K a) (hb : h.Lawful K b) (he : h.deepEqual a b = .ok true)
    (hl : (h.view a).kind.isLeaf = true) : h.Alike h.Matches a b := by
  have hr := bisimulation_bisimilar a b (deepEqual_eq_true.mp he)
  exact alike_of_matches ha.follows hb.follows (ha.keyed_leaf hl)
    (matches_of_matching ((related_leaf hl).mp hr).2)

/-- Equal leaves, at one offset if they are times, are zero together. -/
theorem Lawful.isZeroScalar_leaf (ha : h.Lawful K a) (hb : h.Lawful K b)
    (he : h.deepEqual a b = .ok true) (hl : (h.view a).kind.isLeaf = true)
    (ho : shownOffset? (h.view a) = shownOffset? (h.view b)) :
    h.isZeroScalar (h.view a) = h.isZeroScalar (h.view b) := by
  cases ha.alike hb he hl with
  | same he => rw [he]
  | sense hs hs' =>
    exact isZeroScalar_of_sense (ha.form_eq hb he) hs hs' ho ha.dated.here hb.dated.here
  | parts hs => cases (Object.whole_of_leaf hl).1.symm.trans hs
  | items hs hs' => rw [isZeroScalar_setItems? hs, isZeroScalar_setItems? hs']

/-- **Equal values, at one offset if they are times, are zero scalars together**, but for numbers of
a derived class. -/
theorem Lawful.isZeroValue_eq (ha : h.Lawful K a) (hb : h.Lawful K b)
    (he : h.deepEqual a b = .ok true) (ho : shownOffset? (h.view a) = shownOffset? (h.view b))
    (hd : ¬ DerivedNumber (h.view a)) : h.isZeroValue a = h.isZeroValue b := by
  unfold isZeroValue
  cases hl : (h.view a).kind.isLeaf with
  | true => exact ha.isZeroScalar_leaf hb he hl ho
  | false =>
    have hlb : (h.view b).kind.isLeaf = false := by rw [← ha.kind_eq hb he, hl]
    have hdb := fun hdb => hd ((derivedNumber_congr (ha.form_eq hb he)).mpr hdb)
    rw [isZeroScalar_of_object hl hd, isZeroScalar_of_object hlb hdb]

/-- What equals a time without an offset has none either. -/
theorem Lawful.naive (ha : h.Lawful K a) (hb : h.Lawful K b) (he : h.deepEqual a b = .ok true)
    (hn : Naive (h.view a)) : Naive (h.view b) := by
  cases hl : (h.view a).kind.isLeaf with
  | false =>
    rw [ha.kind_eq hb he] at hl
    generalize h.view b = y at hl
    cases y <;> trivial
  | true =>
    cases ha.alike hb he hl with
    | same he => exact he ▸ hn
    | sense hs hs' => exact naive_of_sense hs hs' hn
    | parts hs => cases (Object.whole_of_leaf hl).1.symm.trans hs
    | items _ hs' =>
      generalize h.view b = y at hs'
      cases y <;> trivial

/-- Equal values are zero scalars together, unless they show times with an offset or numbers of a
derived class. -/
theorem Lawful.isZeroValue_congr (ha : h.Lawful K a) (hb : h.Lawful K b)
    (he : h.deepEqual a b = .ok true) (hn : Naive (h.view a)) (hd : ¬ DerivedNumber (h.view a))
    {p q : Bool} (hp : h.isZeroValue a = .ok p) (hq : h.isZeroValue b = .ok q) : p = q := by
  have hoffset : shownOffset? (h.view a) = shownOffset? (h.view b) := by
    rw [naive_iff.mp hn, naive_iff.mp (ha.naive hb he hn)]
  exact Except.ok.inj (hp.symm.trans ((ha.isZeroValue_eq hb he hoffset hd).trans hq))

/-! ### What exported fields lead to -/

/-- The value that exported fields lead to, by their names. -/
inductive Reaches (h : Heap) : Value → List String → Value → Prop
  | here (v : Value) : Reaches h v [] v
  | field {v w : Value} {names : List String} {f : Field} (hk : (h.view v).kind = .record)
      (hf : f ∈ (h.view v).fields) (hw : Reaches h (h.fieldValue v f.name) names w) :
      Reaches h v (f.name :: names) w

theorem allHold_eq_false {α : Type} {f : α → Except Fault Bool} {xs : List α}
    (hf : allHold f xs = .ok false) : ∃ x ∈ xs, f x = .ok false := by
  induction xs with
  | nil => cases hf
  | cons x xs ih =>
    obtain ⟨p, hp, hf⟩ := bind_eq_ok.mp hf
    cases p with
    | false => exact ⟨x, List.mem_cons_self .., hp⟩
    | true =>
      obtain ⟨y, hy, hfy⟩ := ih hf
      exact ⟨y, List.mem_cons_of_mem x hy, hfy⟩

/-- A value that is found not to be zero leads to one that is no record and not zero. -/
theorem reaches_of_isZeroWithin {active : List (Option Addr)}
    (hz : h.isZeroWithin n active v = .ok false) :
    ∃ names w, h.Reaches v names w ∧ (h.view w).kind ≠ .record ∧
      h.isZeroEnd (h.view w) = .ok false := by
  induction n generalizing active v with
  | zero => cases hz
  | succ n ih =>
    by_cases hk : (h.view v).kind = .record
    · have hfields : ∃ active, allHold (fun f => h.isZeroWithin n active (h.fieldValue v f.name))
          (h.view v).fields = .ok false := by
        simp only [isZeroWithin, hk] at hz
        split at hz
        · split at hz
          · cases hz
          · exact ⟨_, hz⟩
        · exact ⟨_, hz⟩
      obtain ⟨active, hfields⟩ := hfields
      obtain ⟨f, hf, hz⟩ := allHold_eq_false hfields
      obtain ⟨names, w, hw, hkw, hzw⟩ := ih hz
      exact ⟨f.name :: names, w, .field hk hf hw, hkw, hzw⟩
    · rw [isZeroWithin_end hk] at hz
      exact ⟨[], v, .here v, hk, hz⟩

/-- What fewer than `k` fields lead to is zero unless it is a record. -/
def ZeroTo (h : Heap) (k : Nat) (v : Value) : Prop :=
  ∀ names w, h.Reaches v names w → names.length < k → (h.view w).kind ≠ .record →
    h.isZeroEnd (h.view w) = .ok true

theorem ZeroTo.pred (hv : h.ZeroTo (k + 1) v) : h.ZeroTo k v :=
  fun names w hw hlt => hv names w hw (Nat.lt_succ_of_lt hlt)

theorem zeroTo_end (hk : (h.view v).kind ≠ .record) (hz : h.isZeroEnd (h.view v) = .ok true) :
    h.ZeroTo k v := by
  intro names w hw _ _
  cases hw with
  | here => exact hz
  | field hr => exact absurd hr hk

theorem zeroTo_fields (hk : (h.view v).kind = .record)
    (hf : ∀ f ∈ (h.view v).fields, h.ZeroTo k (h.fieldValue v f.name)) : h.ZeroTo (k + 1) v := by
  intro names w hw hlt hkw
  cases hw with
  | here => exact absurd hk hkw
  | @field _ _ names f _ hm hw => exact hf f hm names w hw (Nat.lt_of_succ_lt_succ hlt) hkw

/-- A value is found to be zero only if everything that `k` fields lead to is, given that it is so
of what is taken for granted. -/
theorem zeroTo_of_isZeroWithin {active : List (Option Addr)}
    (ha : ∀ u m, u.identity h = some m → m ∈ active → h.ZeroTo k u)
    (hz : h.isZeroWithin n active v = .ok true) : h.ZeroTo k v := by
  induction k generalizing n active v with
  | zero => exact fun names w _ hlt => absurd hlt (Nat.not_lt_zero _)
  | succ k ih =>
    have hpred : ∀ u m, u.identity h = some m → m ∈ active → h.ZeroTo k u :=
      fun u m hu hm => (ha u m hu hm).pred
    cases n with
    | zero => cases hz
    | succ n =>
      by_cases hk : (h.view v).kind = .record
      · have hv : h.ZeroTo k v := ih hpred hz
        simp only [isZeroWithin, hk] at hz
        split at hz
        · rename_i m hm
          split at hz
          · rename_i hin
            exact ha v m hm (List.contains_iff_mem.mp hin)
          · refine zeroTo_fields hk fun f hf => ih ?_ (allHold_eq_true.mp hz f hf)
            intro u x hu hx
            rcases List.mem_cons.mp hx with rfl | hx
            · rwa [eq_of_identity (Object.ne_nil_of_record hk) hm hu]
            · exact hpred u x hu hx
        · exact zeroTo_fields hk fun f hf => ih hpred (allHold_eq_true.mp hz f hf)
      · rw [isZeroWithin_end hk] at hz
        exact zeroTo_end hk hz

/-- What the fields of a zero value lead to is zero unless it is a record. -/
theorem isZeroEnd_of_isZero (hz : h.isZero v = .ok true) {names : List String}
    (hw : h.Reaches v names w) (hk : (h.view w).kind ≠ .record) :
    h.isZeroEnd (h.view w) = .ok true :=
  zeroTo_of_isZeroWithin (k := names.length + 1) (fun _ _ _ hm => absurd hm List.not_mem_nil) hz
    names w hw (Nat.lt_succ_self _) hk

/-! ### Equal values -/

theorem lawful_nil : h.Lawful K .nil where
  placed := .inl rfl
  regular := everywhere_nil trivial
  dated := everywhere_nil trivial
  follows := everywhere_nil (Object.follows_nil K)
  keys w hw es hes := by
    obtain rfl := within_nil hw
    cases entries?_nil.symm.trans hes
  items w hw xs hxs := by
    obtain rfl := within_nil hw
    cases hxs

theorem Lawful.fieldValue (hv : h.Lawful K v) (name : String) :
    h.Lawful K (h.fieldValue v name) := by
  rcases within_fieldValue (h := h) (v := v) name with he | hw
  · rw [he]
    exact lawful_nil
  · exact hv.of_within hw

/-- Equal records have the same exported fields. -/
theorem Lawful.fields_eq (ha : h.Lawful K a) (hb : h.Lawful K b) (he : h.deepEqual a b = .ok true)
    (hk : (h.view a).kind = .record) : (h.view a).fields = (h.view b).fields := by
  have hf := ha.form_eq hb he
  rcases related_of_deepEqual (Object.ne_nil_of_record hk) he with rfl | ⟨hs, hr⟩
  · rfl
  · cases hd : (h.view a).isDeclared with
    | true => exact Object.fields_eq_of_declared hf hd
    | false =>
      have hnames := (hr.record_parts hs hk).1
      rw [Object.fields, Object.fields, Object.fields?_names hd,
        Object.fields?_names (Object.isDeclared_eq hf ▸ hd)]
      simp only [List.mapM_cons, hnames]

/-- What exported fields lead to from one of two equal values is equal to what they lead to from the
other. -/
theorem Lawful.reaches (ha : h.Lawful K a) (hb : h.Lawful K b) (he : h.deepEqual a b = .ok true)
    {names : List String} (hu : h.Reaches a names u) :
    ∃ w, h.Reaches b names w ∧ h.Lawful K u ∧ h.Lawful K w ∧ h.deepEqual u w = .ok true := by
  induction hu generalizing b with
  | here => exact ⟨b, .here b, ha, hb, he⟩
  | @field a u names f hk hf _ ih =>
    have hkb : (h.view b).kind = .record := (ha.kind_eq hb he).symm.trans hk
    have hfb : f ∈ (h.view b).fields := ha.fields_eq hb he hk ▸ hf
    obtain ⟨w, hw, hrest⟩ := ih (ha.fieldValue f.name) (hb.fieldValue f.name)
      (fields_equal ha.placed hk hkb he f.name)
    exact ⟨w, .field hkb hfb hw, hrest⟩

/-- Equal sequences and mappings have as many entries. -/
theorem Lawful.entryCount_eq (ha : h.Lawful K a) (hb : h.Lawful K b)
    (he : h.deepEqual a b = .ok true)
    (hk : (h.view a).kind = .sequence ∨ (h.view a).kind = .mapping) :
    h.entryCount (h.view a) = h.entryCount (h.view b) := by
  have hnil : h.view a ≠ .nil := fun hn => by
    rw [hn] at hk
    rcases hk with hk | hk <;> cases hk
  rcases related_of_deepEqual hnil he with rfl | ⟨hs, hr⟩
  · rfl
  rcases hk with hk | hk
  · obtain ⟨xs, hxs⟩ := Object.items?_of_sequence hk
    obtain ⟨ys, hys⟩ := Object.items?_of_sequence ((ha.kind_eq hb he).symm.trans hk)
    have hlength := (hr.sequence_parts hs hk).length_eq
    rw [hxs, hys] at hlength
    simpa only [entryCount, hxs, hys, Option.getD_some] using hlength
  · have hlength := (hr.mapping_parts hs hk).1
    simpa only [entryCount, Object.items?_of_mapping hk,
      Object.items?_of_mapping ((ha.kind_eq hb he).symm.trans hk)] using hlength

/-- Equal values that are no records are zero together, at one offset if they are times. -/
theorem Lawful.isZeroEnd_eq (ha : h.Lawful K a) (hb : h.Lawful K b) (he : h.deepEqual a b = .ok true)
    (hk : (h.view a).kind ≠ .record) (ho : shownOffset? (h.view a) = shownOffset? (h.view b)) :
    h.isZeroEnd (h.view a) = h.isZeroEnd (h.view b) := by
  have hleaf := fun hl => ha.isZeroScalar_leaf hb he hl ho
  unfold isZeroEnd
  rw [← ha.kind_eq hb he]
  cases hka : (h.view a).kind with
  | record => exact absurd hka hk
  | sequence => simp only [ha.entryCount_eq hb he (.inl hka)]
  | mapping => simp only [ha.entryCount_eq hb he (.inr hka)]
  | _ => exact hleaf (by rw [hka]; rfl)

/-- Whether the same exported fields lead to times at the same offset from two values. -/
def SameOffsets (h : Heap) (a b : Value) : Prop :=
  ∀ names u w, h.Reaches a names u → h.Reaches b names w →
    shownOffset? (h.view u) = shownOffset? (h.view w)

/-- It is enough to find a relation between times at the same offset that all fields keep to. -/
theorem sameOffsets_of {R : Value → Value → Prop}
    (hR : ∀ u w, R u w → shownOffset? (h.view u) = shownOffset? (h.view w) ∧
      ∀ f ∈ (h.view u).fields, R (h.fieldValue u f.name) (h.fieldValue w f.name))
    (hab : R a b) : h.SameOffsets a b := by
  intro names u w hu hw
  induction hu generalizing b with
  | here =>
    cases hw
    exact (hR _ _ hab).1
  | @field a u names f _ hf _ ih =>
    generalize hn : f.name :: names = path at hw
    cases hw with
    | here => cases hn
    | field _ _ hw =>
      obtain ⟨hname, rfl⟩ := List.cons.inj hn
      exact ih ((hR _ _ hab).2 f hf) (hname ▸ hw)

theorem SameOffsets.symm (ho : h.SameOffsets a b) : h.SameOffsets b a :=
  fun names u w hu hw => (ho names w u hw hu).symm

/-- A value is not told to be zero where an equal one is told not to be. -/
theorem Lawful.not_isZero (ha : h.Lawful K a) (hb : h.Lawful K b) (he : h.deepEqual a b = .ok true)
    (ho : h.SameOffsets a b) (hz : h.isZero a = .ok true) : h.isZero b ≠ .ok false := by
  intro hzb
  obtain ⟨names, w, hw, hkw, hzw⟩ := reaches_of_isZeroWithin hzb
  obtain ⟨u, hu, hlw, hlu, hwu⟩ := hb.reaches ha (ha.symm hb he) hw
  have hku : (h.view u).kind ≠ .record := hlw.kind_eq hlu hwu ▸ hkw
  have hends := hlw.isZeroEnd_eq hlu hwu hkw (ho names u w hu hw).symm
  rw [hzw, isZeroEnd_of_isZero hz hu hku] at hends
  cases hends

/-- **The tests for zero respect deep equality**, times at different offsets apart. Let two values be
deeply equal, and let the same exported fields lead to times at the same offset from both. Then both
are zero scalars or neither is, but for numbers of a derived class; and if both tests for zero values
come to an answer, it is the same one. They do unless there is a signaling NaN. -/
theorem isZero_respects_deepEqual (h : Heap) (K : ClassTable) (a b : Value) (ha : h.Lawful K a)
    (hb : h.Lawful K b) (he : h.deepEqual a b = .ok true) (ho : h.SameOffsets a b) :
    (¬ DerivedNumber (h.view a) → h.isZeroValue a = h.isZeroValue b) ∧
      (∀ p q, h.isZero a = .ok p → h.isZero b = .ok q → p = q) ∧
      (h.Everywhere Quiet a → h.Everywhere Quiet b → ∃ p, h.isZero a = .ok p ∧ h.isZero b = .ok p) := by
  have hsame : ∀ p q, h.isZero a = .ok p → h.isZero b = .ok q → p = q := by
    intro p q hp hq
    cases p <;> cases q
    · rfl
    · exact absurd hp (hb.not_isZero ha (ha.symm hb he) ho.symm hq)
    · exact absurd hq (ha.not_isZero hb he ho hp)
    · rfl
  refine ⟨ha.isZeroValue_eq hb he (ho [] a b (.here a) (.here b)), hsame, fun hqa hqb => ?_⟩
  obtain ⟨p, hp⟩ := answers_isZero (K := K) ⟨ha.regular, hqa, ha.follows⟩
  obtain ⟨q, hq⟩ := answers_isZero (K := K) ⟨hb.regular, hqb, hb.follows⟩
  exact ⟨p, hp, hsame p q hp hq ▸ hq⟩

/-- Rounds of shifts, one of a single shift that follows itself and one of two that follow each other;
they all begin at the first moment an hour east of Greenwich. -/
def shifts : Heap :=
  ⟨#[.datetime ⟨Date.first, { Time.midnight with offset := some 3600 }⟩,
    .datetime ⟨Date.first, { Time.midnight with offset := some 3600 }⟩,
    .record ⟨"Shift", .freeform⟩ [("begins", 1), ("next", 3)],
    .record ⟨"Shift", .freeform⟩ [("begins", 2), ("next", 5)],
    .record ⟨"Shift", .freeform⟩ [("begins", 1), ("next", 4)]]⟩

theorem lawful_shifts (i : Addr) : shifts.Lawful (fun _ => .record ⟨"Shift", .freeform⟩) (.ref i) := by
  refine lawful_ref (fun a ha => ⟨?_, ?_, ?_⟩) (fun a ha es hes => ?_) (fun a ha xs hxs => ?_) i
  all_goals
    have hsize : a < 6 := ha
    interval_cases a <;> trivial

/-- The values that the same fields lead to from the two rounds. -/
def Following (u w : Value) : Prop :=
  (u = .ref 3 ∧ (w = .ref 4 ∨ w = .ref 5)) ∨ (u = .ref 1 ∧ (w = .ref 1 ∨ w = .ref 2))

theorem sameOffsets_shifts : shifts.SameOffsets (.ref 3) (.ref 4) := by
  refine sameOffsets_of (R := Following) ?_ (.inl ⟨rfl, .inl rfl⟩)
  have hnames : (shifts.view (.ref 3)).fields.map (·.name) = ["begins", "next"] := by
    decide +kernel
  rintro u w (⟨rfl, hw⟩ | ⟨rfl, hw⟩)
  · refine ⟨by rcases hw with rfl | rfl <;> rfl, fun f hf => ?_⟩
    have hname : f.name = "begins" ∨ f.name = "next" :=
      List.mem_pair.mp (hnames ▸ List.mem_map_of_mem hf)
    rcases hw with rfl | rfl <;> rcases hname with hname | hname <;> rw [hname]
    · exact .inr ⟨rfl, .inr rfl⟩
    · exact .inl ⟨rfl, .inr rfl⟩
    · exact .inr ⟨rfl, .inl rfl⟩
    · exact .inl ⟨rfl, .inl rfl⟩
  · refine ⟨by rcases hw with rfl | rfl <;> rfl, fun f hf => ?_⟩
    cases hf

theorem isZero_respects_deepEqual_shifts :
    shifts.deepEqual (.ref 3) (.ref 4) = .ok true ∧ shifts.SameOffsets (.ref 3) (.ref 4) ∧
    shifts.isZeroValue (.ref 3) = shifts.isZeroValue (.ref 4) ∧
    shifts.isZero (.ref 3) = .ok true ∧ shifts.isZero (.ref 4) = .ok true := by
  have hequal : shifts.deepEqual (.ref 3) (.ref 4) = .ok true :=
    ok_of_toOption (by decide +kernel)
  have hzero : shifts.isZero (.ref 3) = .ok true := ok_of_toOption (by decide +kernel)
  have hquiet : ∀ i, shifts.Everywhere Quiet (.ref i) := by
    refine everywhere_ref trivial fun a ha => ?_
    have hsize : a < 6 := ha
    interval_cases a <;> trivial
  obtain ⟨hscalar, hsame, hanswers⟩ := isZero_respects_deepEqual shifts _ (.ref 3) (.ref 4)
    (lawful_shifts 3) (lawful_shifts 4) hequal sameOffsets_shifts
  obtain ⟨p, hp, hp'⟩ := hanswers (hquiet 3) (hquiet 4)
  exact ⟨hequal, sameOffsets_shifts, hscalar nofun, hzero, hsame _ _ hzero hp' ▸ hp'⟩

/-- The first moment, and the same one as it is shown an hour east of Greenwich. -/
def moments : Heap :=
  ⟨#[.datetime ⟨Date.first, { Time.midnight with offset := some 0 }⟩,
    .datetime ⟨Date.first, ⟨1, 0, 0, 0, some 3600⟩⟩,
    .record ⟨"Span", .freeform⟩ [("a", 1), ("b", 2)]]⟩

theorem lawful_moments (i : Addr) : moments.Lawful (fun _ => .record ⟨"Span", .freeform⟩) (.ref i) := by
  refine lawful_ref (fun a ha => ⟨?_, ?_, ?_⟩) (fun a ha es hes => ?_) (fun a ha xs hxs => ?_) i
  all_goals
    have hsize : a < 4 := ha
    interval_cases a <;> trivial

/-- Two times that denote one moment are told apart by their clocks, so of a record that holds both
only one is removed. -/
theorem isZero_tells_moments_apart :
    moments.Lawful (fun _ => .record ⟨"Span", .freeform⟩) (.ref 1) ∧
    moments.Lawful (fun _ => .record ⟨"Span", .freeform⟩) (.ref 2) ∧
    moments.deepEqual (.ref 1) (.ref 2) = .ok true ∧
    moments.isZeroValue (.ref 1) = .ok true ∧ moments.isZeroValue (.ref 2) = .ok false ∧
    moments.isZero (.ref 1) = .ok true ∧ moments.isZero (.ref 2) = .ok false ∧
    ((Diff.diff moments .default (.ref 3) .nil).1.toOption.map fun p =>
      p.groups.map fun g => (g.operator, g.fields.map (·.1.text))) = some [(.unset, ["b"])] := by
  refine ⟨lawful_moments 1, lawful_moments 2, ok_of_toOption ?_, ok_of_toOption ?_,
    ok_of_toOption ?_, ok_of_toOption ?_, ok_of_toOption ?_, ?_⟩ <;> decide +kernel

end DocDelta.Heap
