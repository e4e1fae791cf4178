import DocDelta.Proofs.Value.Form
import DocDelta.Proofs.Value.Within
import DocDelta.Value.DeepEqual
import DocDelta.Value.Order

/-! Which tests of values come to an answer.

Equality descends without a memory, so it may be given up on cyclic values, and a signaling
NaN refuses every comparison. On the values that can occur neither shows: keys and items of
sets cannot change, hence cannot be cyclic, and everything else is compared by `deepEqual` and
`isZero`, which remember what they are in the middle of. `answers_isZero` and
`answers_deepEqual` say so for all values without a signaling NaN, cyclic ones too; the pairs
and addresses not met yet (`room`) are what the bound on the depth counts. -/
namespace DocDelta
open Number

/-- A test that asks another first has an answer when both have. -/
theorem bind_eq_ok {ε α β : Type} {x : Except ε α} {f : α → Except ε β} {b : β} :
    x >>= f = .ok b ↔ ∃ a, x = .ok a ∧ f a = .ok b := by
  cases x with
  | error e => exact ⟨fun hx => (by cases hx), fun ⟨a, ha, _⟩ => (by cases ha)⟩
  | ok a =>
    refine ⟨fun hx => ⟨a, rfl, hx⟩, ?_⟩
    rintro ⟨c, hc, hf⟩
    cases hc
    exact hf

theorem ok_of_toOption {ε α : Type} {x : Except ε α} {a : α} (hx : x.toOption = some a) :
    x = .ok a := by
  cases x with
  | error e => cases hx
  | ok b => exact congrArg _ (Option.some.inj hx)

theorem of_mapError {ε ε' α : Type} {x : Except ε α} {f : ε → ε'} {a : α}
    (hx : x.mapError f = .ok a) : x = .ok a := by
  cases x <;> cases hx
  rfl

theorem ok_of_any {ε α : Type} {x : Except ε α} {p : α → Bool} (hx : x.toOption.any p = true) :
    ∃ a, x = .ok a ∧ p a = true := by
  cases x with
  | error e => cases hx
  | ok a => exact ⟨a, rfl, hx⟩

/-! ### Runs -/

section Run
variable {ε σ α β : Type}

theorem run_bind (m : ExceptT ε (StateM σ) α) (f : α → ExceptT ε (StateM σ) β) (s : σ) :
    (m >>= f).run s = match m.run s with
      | (.ok a, t) => (f a).run t
      | (.error e, t) => (.error e, t) := by
  change StateT.bind m (ExceptT.bindCont f) s = _
  unfold StateT.bind ExceptT.run
  rcases m s with ⟨e | a, t⟩ <;> rfl

theorem run_bind_ok {m : ExceptT ε (StateM σ) α} {f : α → ExceptT ε (StateM σ) β} {s t : σ} {b : β}
    (hr : (m >>= f).run s = (.ok b, t)) :
    ∃ a u, m.run s = (.ok a, u) ∧ (f a).run u = (.ok b, t) := by
  rw [run_bind] at hr
  rcases hm : m.run s with ⟨e | a, u⟩
  · rw [hm] at hr
    cases hr
  · rw [hm] at hr
    exact ⟨a, u, rfl, hr⟩

theorem run_bind_eq {m : ExceptT ε (StateM σ) α} {f : α → ExceptT ε (StateM σ) β} {s u : σ} {a : α}
    (hm : m.run s = (.ok a, u)) : (m >>= f).run s = (f a).run u := by
  rw [run_bind, hm]

end Run

/-! ### Tests -/

/-- A test comes to an answer. -/
def Answers {α : Type} (x : Except Fault α) : Prop := ∃ a, x = .ok a

theorem answers_ok {α : Type} (a : α) : Answers (.ok a) := ⟨a, rfl⟩

theorem answers_pure {α : Type} (a : α) : Answers (pure a : Except Fault α) := ⟨a, rfl⟩

theorem answers_bind {α β : Type} {x : Except Fault α} {f : α → Except Fault β} (hx : Answers x)
    (hf : ∀ a, x = .ok a → Answers (f a)) : Answers (x >>= f) := by
  obtain ⟨a, ha⟩ := hx
  obtain ⟨b, hb⟩ := hf a ha
  exact ⟨b, by rw [ha]; exact hb⟩

theorem answers_ite {α : Type} {c : Prop} [Decidable c] {x y : Except Fault α} (hx : Answers x)
    (hy : Answers y) : Answers (if c then x else y) := by
  split
  · exact hx
  · exact hy

theorem answers_allHold {α : Type} {f : α → Except Fault Bool} {xs : List α}
    (hf : ∀ x ∈ xs, Answers (f x)) : Answers (allHold f xs) := by
  induction xs with
  | nil => exact answers_ok true
  | cons x xs ih =>
    refine answers_bind (hf x (List.mem_cons_self ..)) fun b _ => ?_
    exact answers_ite (ih fun y hy => hf y (List.mem_cons_of_mem x hy)) (answers_ok false)

namespace Heap
variable {h : Heap}

/-! ### What values are -/

/-- Keys of maps and items of sets cannot change, no text is a key twice, and a view is one of
a mapping. -/
def Regular (h : Heap) : Object Value → Prop
  | .map _ es => (∀ e ∈ es, h.hashable e.1 = true) ∧ (es.filterMap fun e => (h.view e.1).text?).Nodup
  | .set _ xs | .frozenset _ xs => ∀ x ∈ xs, h.hashable x = true
  | .mapView t => (h.entries? (.mapView t)).isSome = true
  | _ => True

/-- No signaling NaN. -/
def Quiet : Object Value → Prop
  | .decimal d => d.isSignaling = false
  | _ => True

instance (o : Object Value) : Decidable (h.Regular o) :=
  match o with
  | .map _ es => inferInstanceAs (Decidable ((∀ e ∈ es, h.hashable e.1 = true) ∧
      (es.filterMap fun e => (h.view e.1).text?).Nodup))
  | .set _ xs | .frozenset _ xs => inferInstanceAs (Decidable (∀ x ∈ xs, h.hashable x = true))
  | .mapView t => inferInstanceAs (Decidable ((h.entries? (.mapView t)).isSome = true))
  | .nil | .missing | .bool .. | .int .. | .float .. | .complex .. | .decimal .. | .text ..
  | .bytes .. | .buffer .. | .date .. | .time .. | .datetime .. | .duration .. | .member ..
  | .type .. | .list .. | .tuple .. | .record .. => isTrue trivial

instance (o : Object Value) : Decidable (Quiet o) :=
  match o with
  | .decimal d => inferInstanceAs (Decidable (d.isSignaling = false))
  | .nil | .missing | .bool .. | .int .. | .float .. | .complex .. | .text .. | .bytes ..
  | .buffer .. | .date .. | .time .. | .datetime .. | .duration .. | .member .. | .type ..
  | .list .. | .tuple .. | .set .. | .frozenset .. | .map .. | .mapView .. | .record .. =>
    isTrue trivial

/-- What a comparison can be asked about: values that keep these rules and whose classes are
those of one table. -/
structure Sane (h : Heap) (K : ClassTable) (v : Value) : Prop where
  regular : h.Everywhere h.Regular v
  quiet : h.Everywhere Quiet v
  named : h.Everywhere (Object.Follows K) v

section Sane
variable {K : ClassTable} {v w : Value}

theorem Sane.of_within (hv : h.Sane K v) (hw : h.Within v w) : h.Sane K w :=
  ⟨hv.regular.of_within hw, hv.quiet.of_within hw, hv.named.of_within hw⟩

theorem Sane.of_part (hv : h.Sane K v) (hw : h.Part v w) : h.Sane K w := hv.of_within (.single hw)

theorem sane_nil (K : ClassTable) : h.Sane K .nil :=
  ⟨everywhere_nil trivial, everywhere_nil trivial, everywhere_nil (Object.follows_nil K)⟩

theorem Sane.fieldValue (hv : h.Sane K v) (name : String) : h.Sane K (h.fieldValue v name) :=
  ⟨hv.regular.fieldValue trivial name, hv.quiet.fieldValue trivial name,
    hv.named.fieldValue (Object.follows_nil K) name⟩

theorem Sane.of_link (hv : h.Sane K v) (hl : h.Link v w) : h.Sane K w := by
  rcases hl.below with rfl | hw
  · exact sane_nil K
  · exact hv.of_within hw.to_reflTransGen

end Sane

/-- A mapping has entries. -/
theorem Regular.entries {o : Object Value} (ho : h.Regular o) (hk : o.kind = .mapping) :
    ∃ es, h.entries? o = some es := by
  cases o with
  | map c es => exact ⟨es, entries?_of_map⟩
  | mapView t => exact Option.isSome_iff_exists.mp ho
  | int c n => cases c <;> cases hk
  | float c x => cases c <;> cases hk
  | _ => cases hk

theorem Everywhere.hashable_keys {v : Value} (hv : h.Everywhere h.Regular v)
    {es : List (Value × Value)} (he : h.entries? (h.view v) = some es) :
    ∀ e ∈ es, h.hashable e.1 = true := by
  obtain ⟨u, c, hu, hc⟩ := entries?_map he
  have := hv u hu
  rw [hc] at this
  exact this.1

/-! ### Equality -/

theorem numeric?_quiet {o : Object Value} (ho : Quiet o) {d : Decimal}
    (hd : h.numeric? o = some (.real d)) : d.isSignaling = false := by
  cases o with
  | bool b => cases hd; rfl
  | int c n => cases hd; rfl
  | float c x =>
    cases hd
    cases x <;> rfl
  | decimal e =>
    cases hd
    exact ho
  | member c n v =>
    simp only [numeric?] at hd
    split at hd
    · obtain ⟨n, _, hn⟩ := Option.map_eq_some_iff.mp hd
      cases hn
      rfl
    · cases hd
  | _ => cases hd

theorem answers_numbers {a b : Object Value} (ha : Quiet a) (hb : Quiet b) :
    Answers (sameObject.numbers h a b) := by
  have hreals : ∀ {d e : Decimal}, d.isSignaling = false → e.isSignaling = false →
      Answers (Numeric.same.reals d e) := by
    intro d e hd he
    rw [Numeric.same.reals, hd, he]
    exact answers_ok _
  have hfloat : ∀ x : Binary64, (Decimal.ofBinary64 x).isSignaling = false := by
    intro x
    cases x <;> rfl
  unfold sameObject.numbers
  split
  · rename_i x y hx hy
    cases x with
    | real d =>
      have hd := numeric?_quiet ha hx
      cases y with
      | real e => exact hreals hd (numeric?_quiet hb hy)
      | complex re im => exact answers_ite (hreals (hfloat re) hd) (answers_ok _)
    | complex re im =>
      cases y with
      | real e => exact answers_ite (hreals (hfloat re) (numeric?_quiet hb hy)) (answers_ok _)
      | complex re' im' => exact answers_ok _
  · exact answers_ok _

section Parts
variable {eq : Value → Value → Except Fault Bool}

theorem answers_matchPart {a b : Value} (he : Answers (eq a b)) : Answers (matchPart h eq a b) :=
  answers_ite (answers_ok true) he

theorem answers_matchParts {as bs : List Value} (he : ∀ a ∈ as, ∀ b ∈ bs, Answers (eq a b)) :
    Answers (matchParts h eq as bs) := by
  induction as generalizing bs with
  | nil => cases bs <;> exact answers_ok _
  | cons a as ih =>
    cases bs with
    | nil => exact answers_ok _
    | cons b bs =>
      refine answers_bind (answers_matchPart (he a (List.mem_cons_self ..) b (List.mem_cons_self ..)))
        fun r _ => answers_ite (ih fun x hx y hy => ?_) (answers_ok false)
      exact he x (List.mem_cons_of_mem a hx) y (List.mem_cons_of_mem b hy)

theorem answers_hasPart {x : Value} {ys : List Value} (he : ∀ y ∈ ys, Answers (eq y x)) :
    Answers (hasPart h eq x ys) := by
  induction ys with
  | nil => exact answers_ok false
  | cons y ys ih =>
    refine answers_bind (answers_matchPart (he y (List.mem_cons_self ..))) fun r _ =>
      answers_ite (answers_ok true) (ih fun z hz => he z (List.mem_cons_of_mem y hz))

theorem answers_findPart {key : Value} {es : List (Value × Value)}
    (he : ∀ e ∈ es, Answers (eq e.1 key)) : Answers (findPart h eq key es) := by
  induction es with
  | nil => exact answers_ok none
  | cons e es ih =>
    refine answers_bind (answers_matchPart (he e (List.mem_cons_self ..))) fun r _ =>
      answers_ite (answers_ok _) (ih fun d hd => he d (List.mem_cons_of_mem e hd))

theorem answers_coversItems {xs ys : List Value} (he : ∀ y ∈ ys, ∀ x ∈ xs, Answers (eq y x)) :
    Answers (coversItems h eq ys xs) := by
  induction xs with
  | nil => exact answers_ok true
  | cons x xs ih =>
    refine answers_bind (answers_hasPart fun y hy => he y hy x (List.mem_cons_self ..)) fun r _ =>
      answers_ite (ih fun y hy z hz => he y hy z (List.mem_cons_of_mem x hz)) (answers_ok false)

end Parts

/-- The parts of a layer other than a map that equality looks at. -/
def comparedParts : Object Value → List Value
  | .list _ xs | .tuple _ xs | .set _ xs | .frozenset _ xs => xs
  | .record ⟨_, .freeform⟩ _ => []
  | .record _ as => as.map (·.2)
  | _ => []

theorem comparedParts_record {c : RecordClass} (hc : c.isPositional = true ∨ c.isDeclared = true)
    (as : List (String × Value)) : comparedParts (.record c as) = as.map (·.2) := by
  obtain ⟨name, shape⟩ := c
  cases shape with
  | freeform => simp [RecordClass.isPositional, RecordClass.isDeclared] at hc
  | _ => rfl

theorem tupleItems?_compared {o : Object Value} {xs : List Value} (ho : o.tupleItems? = some xs) :
    xs = comparedParts o := by
  cases o with
  | tuple c ys => cases ho; rfl
  | record c as =>
    simp only [Object.tupleItems?] at ho
    split at ho
    · rename_i hc
      cases ho
      exact (comparedParts_record (.inl hc) as).symm
    · cases ho
  | _ => cases ho

/-- Two layers other than maps are compared where their parts are. -/
theorem answers_sameObject {K : ClassTable} {eq : Value → Value → Except Fault Bool}
    {x y : Object Value} (hk : x.kind ≠ .mapping) (hx : Quiet x) (hy : Quiet y)
    (hxk : x.Follows K) (hyk : y.Follows K)
    (hp : ∀ u ∈ comparedParts x, ∀ w ∈ comparedParts y, Answers (eq u w) ∧ Answers (eq w u)) :
    Answers (sameObject h eq x y) := by
  have hparts : ∀ {as bs : List Value}, as = comparedParts x → bs = comparedParts y →
      Answers (matchParts h eq as bs) := by
    rintro as bs rfl rfl
    exact answers_matchParts fun u hu w hw => (hp u hu w hw).1
  have hitems : ∀ {as bs : List Value}, as = comparedParts x → bs = comparedParts y →
      Answers (coversItems h eq bs as) := by
    rintro as bs rfl rfl
    exact answers_coversItems fun u hu w hw => (hp w hw u hu).2
  have hnumbers := answers_numbers (h := h) hx hy
  unfold sameObject
  split
  case h_13 => exact answers_ite (hparts rfl rfl) (answers_ok _)
  case h_14 => exact answers_ite (hitems rfl rfl) (answers_ok _)
  case h_15 => exact answers_ite (hitems rfl rfl) (answers_ok _)
  case h_16 => exact answers_ite (hitems rfl rfl) (answers_ok _)
  case h_17 => exact answers_ite (hitems rfl rfl) (answers_ok _)
  case h_18 => exact absurd rfl hk
  case h_19 => exact absurd rfl hk
  case h_20 =>
    split
    · exact answers_ite hnumbers (answers_ok _)
    · split
      · rename_i hcd
        obtain ⟨hc, hd⟩ := Bool.and_eq_true_iff.mp hcd
        exact hparts (comparedParts_record (.inl hc) _).symm (comparedParts_record (.inl hd) _).symm
      · split
        · rename_i hcd
          obtain ⟨hc, hn⟩ := Bool.and_eq_true_iff.mp hcd
          have hclass := Object.record_class_eq hxk hyk (eq_of_beq hn)
          exact hparts (comparedParts_record (.inr hc) _).symm
            (comparedParts_record (.inr (hclass ▸ hc)) _).symm
        · exact answers_ok _
    · split
      · rename_i has hbs
        exact hparts (tupleItems?_compared has) (tupleItems?_compared hbs)
      · exact hnumbers
  all_goals exact answers_ok _

theorem hashableWithin_mono {n : Nat} {v : Value} (hv : h.hashableWithin n v = true) {m : Nat}
    (hm : n ≤ m) : h.hashableWithin m v = true := by
  induction n generalizing v m with
  | zero => cases hv
  | succ n ih =>
    obtain ⟨m, rfl⟩ : ∃ k, m = k + 1 := ⟨m - 1, by omega⟩
    have hm : n ≤ m := by omega
    unfold hashableWithin at hv ⊢
    generalize h.view v = o at hv ⊢
    have hall : ∀ xs : List Value, xs.all (h.hashableWithin n) = true →
        xs.all (h.hashableWithin m) = true := fun xs hxs =>
      List.all_eq_true.mpr fun x hx => ih (List.all_eq_true.mp hxs x hx) hm
    have hattributes : ∀ as : List (String × Value), as.all (fun a => h.hashableWithin n a.2) = true →
        as.all (fun a => h.hashableWithin m a.2) = true := fun as has =>
      List.all_eq_true.mpr fun a ha => ih (List.all_eq_true.mp has a ha) hm
    cases o with
    | tuple c xs => exact hall xs hv
    | frozenset c xs => exact hall xs hv
    | record c as =>
      obtain ⟨name, shape⟩ := c
      cases shape with
      | declared fields frozen =>
        obtain ⟨hf, has⟩ := Bool.and_eq_true_iff.mp hv
        exact Bool.and_eq_true_iff.mpr ⟨hf, hattributes as has⟩
      | positional fields => exact hattributes as hv
      | freeform => rfl
    | _ => exact hv

/-- A value that cannot change is quiet and no map, and its parts cannot change either. -/
theorem hashableWithin_layer {n : Nat} {v : Value} (hv : h.hashableWithin (n + 1) v = true) :
    Quiet (h.view v) ∧ (h.view v).kind ≠ .mapping ∧
      ∀ w ∈ comparedParts (h.view v), h.hashableWithin n w = true := by
  unfold hashableWithin at hv
  generalize h.view v = o at hv ⊢
  cases o with
  | decimal d =>
    exact ⟨by simpa [Quiet] using hv, by simp [Object.kind, Object.isRecord],
      fun w hw => by cases hw⟩
  | tuple c xs => exact ⟨trivial, by simp [Object.kind], List.all_eq_true.mp hv⟩
  | frozenset c xs =>
    exact ⟨trivial, by simp [Object.kind, Object.isRecord], List.all_eq_true.mp hv⟩
  | record c as =>
    refine ⟨trivial, by simp [Object.kind, Object.isRecord], fun w hw => ?_⟩
    obtain ⟨name, shape⟩ := c
    cases shape with
    | declared fields frozen =>
      obtain ⟨a, ha, rfl⟩ := List.mem_map.mp hw
      exact List.all_eq_true.mp (Bool.and_eq_true_iff.mp hv).2 a ha
    | positional fields =>
      obtain ⟨a, ha, rfl⟩ := List.mem_map.mp hw
      exact List.all_eq_true.mp hv a ha
    | freeform => cases hw
  | list c xs => cases hv
  | set c xs => cases hv
  | map c es => cases hv
  | mapView t => cases hv
  | int c n =>
    exact ⟨trivial, by cases c <;> simp [Object.kind, Object.isRecord], fun w hw => by cases hw⟩
  | float c x =>
    exact ⟨trivial, by cases c <;> simp [Object.kind, Object.isRecord], fun w hw => by cases hw⟩
  | _ => exact ⟨trivial, by simp [Object.kind, Object.isRecord], fun w hw => by cases hw⟩

theorem comparedParts_children {o : Object Value} {w : Value} (hw : w ∈ comparedParts o) :
    w ∈ o.children := by
  cases o with
  | list c xs => exact hw
  | tuple c xs => exact hw
  | set c xs => exact hw
  | frozenset c xs => exact hw
  | record c as =>
    obtain ⟨name, shape⟩ := c
    cases shape with
    | freeform => cases hw
    | _ => exact hw
  | _ => cases hw

section Equality
variable {K : ClassTable} {a b : Value}

/-- Equality of values that cannot change comes to an answer. -/
theorem answers_sameWithin {n : Nat} (ha : h.hashableWithin n a = true)
    (hb : h.hashableWithin n b = true) (hak : h.Everywhere (Object.Follows K) a)
    (hbk : h.Everywhere (Object.Follows K) b) : Answers (h.sameWithin n a b) := by
  induction n generalizing a b with
  | zero => cases ha
  | succ n ih =>
    obtain ⟨hqa, hka, hpa⟩ := hashableWithin_layer ha
    obtain ⟨hqb, _, hpb⟩ := hashableWithin_layer hb
    have hparts : ∀ u ∈ comparedParts (h.view a), ∀ w ∈ comparedParts (h.view b),
        Answers (h.sameWithin n u w) ∧ Answers (h.sameWithin n w u) := by
      intro u hu w hw
      have huk := hak.of_within (.single (comparedParts_children hu))
      have hwk := hbk.of_within (.single (comparedParts_children hw))
      exact ⟨ih (hpa u hu) (hpb w hw) huk hwk, ih (hpb w hw) (hpa u hu) hwk huk⟩
    rw [sameWithin]
    exact answers_ite (answers_ok true)
      (answers_sameObject hka hqa hqb hak.here hbk.here hparts)

theorem layerBound_le_pairBound (a b : Value) : h.layerBound a ≤ h.pairBound a b := by
  have := Nat.le_mul_self h.size
  simp only [layerBound, pairBound]
  omega

theorem pairBound_comm (a b : Value) : h.pairBound a b = h.pairBound b a := by
  simp only [pairBound]
  omega

/-- Keys can be compared. -/
theorem answers_same_keys (ha : h.hashable a = true) (hb : h.hashable b = true)
    (hak : h.Everywhere (Object.Follows K) a) (hbk : h.Everywhere (Object.Follows K) b) :
    Answers (h.same a b) :=
  answers_sameWithin (hashableWithin_mono ha (layerBound_le_pairBound a b))
    (hashableWithin_mono hb (pairBound_comm a b ▸ layerBound_le_pairBound b a)) hak hbk

/-- A key can be looked up among the entries of a mapping. -/
theorem answers_find? {v : Value} {es : List (Value × Value)} (hv : h.Sane K v)
    (he : h.entries? (h.view v) = some es) (ha : h.hashable a = true)
    (hak : h.Everywhere (Object.Follows K) a) : Answers (h.find? a es) :=
  answers_findPart fun e hm => answers_same_keys (hv.regular.hashable_keys he e hm) ha
    (hv.named.of_within (entries?_below he hm).1.to_reflTransGen) hak

/-- An object of the heap that has parts is not the only one. -/
theorem two_le_size {i : Addr} {w : Value} (hp : h.Part (.ref i) w) : 2 ≤ h.size := by
  cases i with
  | zero => cases hp
  | succ i => exact (Nat.le_add_left 2 i).trans (part_lt_size hp)

theorem layerBound_part {w : Value} (hp : h.Part a w) :
    h.layerBound w ≤ h.size * h.size + a.depth := by
  have hd := depth_part hp
  cases a with
  | ref i =>
    have h2 := two_le_size hp
    have : 2 * h.size ≤ h.size * h.size := Nat.mul_le_mul_right _ h2
    have hr : (Value.ref i).depth = 0 := by simp [Value.depth]
    simp only [layerBound]
    omega
  | inline o =>
    have := depth_pos (o := o)
    have := Nat.le_mul_self h.size
    simp only [layerBound]
    omega

/-- The parts of a leaf that equality looks at are the items of a set. -/
theorem hashable_comparedParts {o : Object Value} (ho : h.Regular o) (hk : o.kind.isLeaf = true) :
    ∀ w ∈ comparedParts o, h.hashable w = true := by
  intro w hw
  cases o with
  | set c xs => exact ho w hw
  | frozenset c xs => exact ho w hw
  | list c xs => cases hk
  | tuple c xs => cases hk
  | record c as => cases hk
  | _ => cases hw

/-- Values other than maps can be compared where the parts that equality looks at are keys. -/
theorem answers_matching_parts (hqa : Quiet (h.view a)) (hqb : Quiet (h.view b))
    (hak : h.Everywhere (Object.Follows K) a) (hbk : h.Everywhere (Object.Follows K) b)
    (hmap : (h.view a).kind ≠ .mapping)
    (hpa : ∀ u ∈ comparedParts (h.view a), h.hashable u = true)
    (hpb : ∀ w ∈ comparedParts (h.view b), h.hashable w = true) : Answers (h.matching a b) := by
  have hbound : h.pairBound a b = h.size * h.size + a.depth + b.depth + 1 := by
    simp only [pairBound]
    omega
  have hparts : ∀ u ∈ comparedParts (h.view a), ∀ w ∈ comparedParts (h.view b),
      Answers (h.sameWithin (h.size * h.size + a.depth + b.depth) u w) ∧
        Answers (h.sameWithin (h.size * h.size + a.depth + b.depth) w u) := by
    intro u hu w hw
    have hpu : h.Part a u := comparedParts_children hu
    have hpw : h.Part b w := comparedParts_children hw
    have hhu := hashableWithin_mono (hpa u hu)
      (m := h.size * h.size + a.depth + b.depth) ((layerBound_part hpu).trans (by omega))
    have hhw := hashableWithin_mono (hpb w hw)
      (m := h.size * h.size + a.depth + b.depth) ((layerBound_part hpw).trans (by omega))
    have huk := hak.of_within (.single hpu)
    have hwk := hbk.of_within (.single hpw)
    exact ⟨answers_sameWithin hhu hhw huk hwk, answers_sameWithin hhw hhu hwk huk⟩
  refine answers_matchPart ?_
  rw [same, hbound, sameWithin]
  exact answers_ite (answers_ok true)
    (answers_sameObject hmap hqa hqb hak.here hbk.here hparts)

/-- Leaves can be compared. -/
theorem answers_matching (ha : h.Sane K a) (hb : h.Sane K b)
    (hka : (h.view a).kind.isLeaf = true) (hkb : (h.view b).kind.isLeaf = true) :
    Answers (h.matching a b) := by
  have hmap : (h.view a).kind ≠ .mapping := by
    rintro hm
    rw [hm] at hka
    cases hka
  exact answers_matching_parts ha.quiet.here hb.quiet.here ha.named hb.named hmap
    (hashable_comparedParts ha.regular.here hka) (hashable_comparedParts hb.regular.here hkb)

end Equality

end Heap
end DocDelta
