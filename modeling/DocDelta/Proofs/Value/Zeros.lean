import DocDelta.Proofs.Value.Scalars

/-! Being zero is being equal to the zero of the class.

Two tests tell an empty value: `isZero` looks at the value, and `zero?` makes the empty value of
its class, with which it can be compared. Where there is such a value the tests agree, and they
fail together: only a signaling NaN is refused. -/
namespace DocDelta
open Number Calendar

/-! ### Numbers -/

namespace Number

/-- Zero equals just the zeros. -/
theorem Decimal.same_zero {z d : Decimal} (hz : z.isZero = true) : z.same d = d.isZero := by
  cases hs : z.same d with
  | true => exact hz.symm.trans (Decimal.isZero_of_same hs)
  | false =>
    cases z with
    | finite n c e =>
      cases c with
      | succ c => cases hz
      | zero =>
        cases d with
        | finite m c f =>
          cases c with
          | zero => cases hs
          | succ c => rfl
        | _ => rfl
    | _ => cases hz

theorem Binary64.same_zero (x : Binary64) : Binary64.zero.same x = x.isZero := by
  cases x with
  | finite n units =>
    cases units with
    | zero => rfl
    | succ units => simp [Binary64.same, Binary64.isZero, Binary64.zero]
  | _ => rfl

end Number

/-- A real zero, or the complex one. -/
def Numeric.Zero : Numeric → Prop
  | .real d => d.isZero = true
  | .complex re im => re = Binary64.zero ∧ im = Binary64.zero

/-- Numbers of one sort are zero when they equal its zero. -/
theorem Numeric.same_zero {z n : Numeric} (hz : z.Zero)
    (hsort : (∃ d e, z = .real d ∧ n = .real e) ∨ ∃ a b c d, z = .complex a b ∧ n = .complex c d) :
    z.same n = match n with
      | .real d => if d.isSignaling then .error .invalidOperation else .ok d.isZero
      | .complex re im => .ok (re.isZero && im.isZero) := by
  rcases hsort with ⟨d, e, rfl, rfl⟩ | ⟨a, b, c, d, rfl, rfl⟩
  · have hquiet : d.isSignaling = false := by
      cases d with
      | nan => cases hz
      | _ => rfl
    simp only [Numeric.same, Numeric.same.reals, hquiet, Bool.false_or, Decimal.same_zero hz]
  · obtain ⟨rfl, rfl⟩ := hz
    simp only [Numeric.same, Binary64.same_zero]

namespace Heap
variable {h : Heap} {v : Value} {o z : Object Value}

/-! ### Scalars -/

/-- The date and time of an instant are proper. -/
def Dated : Object Value → Prop
  | .datetime x => x.date.Proper ∧ x.time.Proper
  | _ => True

/-- A number is compared with the zero of its class just as it is tested for being zero. -/
theorem numbers_zero (hz : o.zero? = some z) (hn : (h.numeric? o).isSome = true) :
    sameObject.numbers h z o = h.isZeroScalar o := by
  have hfloat : (Decimal.ofBinary64 Binary64.zero).isZero = true := by
    simp only [Decimal.ofBinary64, Binary64.zero, Nat.zero_mul, Decimal.isZero]
  cases o with
  | bool b =>
    cases hz
    exact Numeric.same_zero (z := .real (.ofInt 0)) rfl (.inl ⟨_, _, rfl, rfl⟩)
  | int c n =>
    obtain rfl := Object.emptyOf_eq_some (.int · 0) hz
    exact Numeric.same_zero (z := .real (.ofInt 0)) rfl (.inl ⟨_, _, rfl, rfl⟩)
  | float c x =>
    obtain rfl := Object.emptyOf_eq_some (.float · Binary64.zero) hz
    have hquiet : (Decimal.ofBinary64 x).isSignaling = false := by cases x <;> rfl
    simp only [sameObject.numbers, numeric?]
    rw [Numeric.same_zero (z := .real (.ofBinary64 .zero)) hfloat (.inl ⟨_, _, rfl, rfl⟩)]
    simp [hquiet, isZeroScalar, numeric?, Numeric.isZero]
  | complex re im =>
    cases hz
    exact Numeric.same_zero (z := .complex .zero .zero) ⟨rfl, rfl⟩ (.inr ⟨_, _, _, _, rfl, rfl⟩)
  | decimal d =>
    cases hz
    exact Numeric.same_zero (z := .real (.finite false 0 0)) rfl (.inl ⟨_, _, rfl, rfl⟩)
  | member c n w => cases hz
  | _ => cases hn

theorem compare_beq {a b : Int} : (some (compare a b) == some Ordering.eq) = decide (a = b) := by
  rw [Bool.eq_iff_iff]
  simp

/-- At the first instant the clock shows the end of day 0. -/
theorem clock_first (offset : Option Int) :
    DateTime.clock ⟨Date.first, { Time.midnight with offset := offset }⟩ = microsPerDay := by
  have hfirst : (Date.first.dayNumber : Int) = 1 := by decide
  simp [DateTime.clock, hfirst, Time.clock, Time.midnight]

theorem clock_midnight (offset : Option Int) :
    Time.clock { Time.midnight with offset := offset } = 0 := by
  simp [Time.clock, Time.midnight]

/-- A scalar is compared with the zero of its class just as it is tested for being zero. -/
theorem sameObject_zero {eq : Value → Value → Except Fault Bool} (hz : o.zero? = some z)
    (hl : o.kind.isLeaf = true) (hd : Dated o) : h.sameObject eq z o = h.isZeroScalar o := by
  cases o with
  | datetime x =>
    cases hz
    simp only [sameObject, isZeroScalar, DateTime.compare?, if_true, DateTime.instant, clock_first,
      compare_beq, Except.ok.injEq]
    rw [Bool.eq_iff_iff, DateTime.isFirst_iff hd.1 hd.2, decide_eq_true_eq]
    omega
  | date d =>
    cases hz
    simp only [sameObject, isZeroScalar, Except.ok.injEq]
    rw [Bool.eq_iff_iff, beq_iff_eq, beq_iff_eq, eq_comm]
  | time t =>
    cases hz
    cases ho : t.offset with
    | none =>
      simp only [sameObject, isZeroScalar, Time.compare?, ho, clock_midnight, compare_beq,
        Time.isMidnight, eq_comm]
    | some x =>
      simp only [sameObject, isZeroScalar, Time.compare?, ho, Time.instant, clock_midnight,
        compare_beq, Time.isMidnight, Except.ok.injEq]
      rw [Bool.eq_iff_iff, decide_eq_true_eq, decide_eq_true_eq]
      omega
  | duration d =>
    cases hz
    simp only [sameObject, isZeroScalar, Except.ok.injEq]
    rw [Bool.eq_iff_iff, beq_iff_eq, beq_iff_eq, eq_comm]
  | text c s =>
    obtain rfl := Object.emptyOf_eq_some (.text · "") hz
    simp only [sameObject, isZeroScalar, Except.ok.injEq]
    rw [Bool.eq_iff_iff, beq_iff_eq, String.isEmpty_iff, eq_comm]
  | bytes c bs =>
    obtain rfl := Object.emptyOf_eq_some (.bytes · []) hz
    cases bs <;> rfl
  | bool b => cases hz; exact numbers_zero (o := .bool b) rfl rfl
  | int c n =>
    obtain rfl := Object.emptyOf_eq_some (.int · 0) hz
    exact numbers_zero (o := .int c n) hz rfl
  | float c x =>
    obtain rfl := Object.emptyOf_eq_some (.float · Binary64.zero) hz
    exact numbers_zero (o := .float c x) hz rfl
  | complex re im => cases hz; exact numbers_zero (o := .complex re im) rfl rfl
  | decimal d => cases hz; exact numbers_zero (o := .decimal d) rfl rfl
  | list c xs => cases hl
  | tuple c xs => cases hl
  | map c es => cases hl
  | _ => cases hz

/-- A scalar that is zero equals the zero of its class. -/
theorem sameObject_of_isZero {eq : Value → Value → Except Fault Bool} (hz : o.zero? = some z)
    (hl : o.kind.isLeaf = true) (hzero : h.isZeroScalar o = .ok true) :
    h.sameObject eq z o = .ok true := by
  cases o with
  | datetime x =>
    -- an improper date may show the first instant too, but here the date itself is the first
    cases hz
    have hfirst : x.date = Date.first ∧ x.time.clock = 0 := by
      simpa [isZeroScalar, DateTime.isFirst, Time.isMidnight] using hzero
    have hclock : x.clock = microsPerDay := by
      have hday : (Date.first.dayNumber : Int) = 1 := by decide
      simp [DateTime.clock, hfirst.1, hfirst.2, hday]
    simp [sameObject, DateTime.compare?, DateTime.instant, clock_first, hclock]
  | _ => exact (sameObject_zero hz hl trivial).trans hzero

/-! ### Values -/

theorem isSame_inline (hz : z ≠ .nil) : Value.isSame h (.inline z) v = false := by
  have hi : (Value.inline z).identity h = none := by
    cases z <;> first | rfl | exact absurd rfl hz
  rw [Value.isSame, hi]

/-- A value in place matches what has an equal layer. -/
theorem matching_inline (hz : z ≠ .nil) :
    ∃ eq, h.matching (.inline z) v = h.sameObject eq z (h.view v) := by
  have hbound : h.pairBound (.inline z) v =
      (h.size * h.size + (Value.inline z).depth + v.depth) + 1 := by
    simp only [pairBound]
    omega
  refine ⟨h.sameWithin (h.size * h.size + (Value.inline z).depth + v.depth), ?_⟩
  rw [matching, matchPart, isSame_inline hz, if_neg (by decide), same, hbound, sameWithin,
    isSame_inline hz, Bool.and_false, if_neg (by decide)]
  rfl

/-- A scalar that is zero is deeply equal to the zero of its class. -/
theorem deepEqual_of_isZero (hz : (h.view v).zero? = some z) (hl : (h.view v).kind.isLeaf = true)
    (hzero : h.isZeroValue v = .ok true) : h.deepEqual (.inline z) v = .ok true := by
  have hb := Object.zero?_blank hz
  have hc : (h.view (.inline z)).cls = (h.view v).cls := hb.cls
  obtain ⟨eq, hm⟩ := matching_inline (h := h) (v := v) hb.ne_nil
  rw [deepEqual_leaf hc (by rw [view_inline, hb.kind, hl]), hm, sameObject_of_isZero hz hl hzero]

/-- **A value is zero when it is deeply equal to the zero of its class.** -/
theorem deepEqual_zero (hz : (h.view v).zero? = some z) (hk : (h.view v).kind ≠ .mapping)
    (hr : (h.view v).isRecord = false) (hd : Dated (h.view v)) :
    h.deepEqual (.inline z) v = h.isZero v := by
  have hb := Object.zero?_blank hz
  have hc : (h.view (.inline z)).cls = (h.view v).cls := hb.cls
  have hkind := hb.kind
  cases hl : (h.view v).kind.isLeaf with
  | true =>
    obtain ⟨eq, hm⟩ := matching_inline (h := h) (v := v) hb.ne_nil
    rw [deepEqual_leaf hc (by rw [view_inline, hkind, hl]), hm, isZero_leaf hl,
      sameObject_zero hz hl hd]
  | false =>
    have hs : (h.view v).kind = .sequence := by
      have hnr : (h.view v).kind ≠ .record := fun hrecord => by
        rw [Object.isRecord_iff.mpr hrecord] at hr
        cases hr
      cases hkv : (h.view v).kind <;> simp_all [Kind.isLeaf]
    obtain ⟨xs, hxs⟩ := Object.items?_of_sequence hs
    obtain ⟨ys, hys⟩ := Object.items?_of_sequence (hkind.trans hs)
    have hempty : ys = [] := (items?_children hys).symm.trans hb.children
    subst hempty
    rw [deepEqual_object (acyclic_of_empty hb.children) hc (by rw [view_inline, hkind, hl]),
      isSame_inline hb.ne_nil, if_neg (by decide), isZero_counted (.inl hs), view_inline, equalParts,
      hkind, hs]
    simp only [hys, hxs, Option.getD_some, entryCount]
    cases xs <;> rfl

end Heap
end DocDelta
