import DocDelta.Proofs.Value.Answers

/-! Tests that remember what they are in the middle of.

`isZero` and `deepEqual` may be asked about values that contain themselves. What they are in
the middle of grows with every object they enter, so the objects not entered yet (`room`)
bound how far they descend, together with the weight of the values in place, which have no
identity but stand above the heap only so many layers high. Both come to an answer on every
sane value. -/
namespace DocDelta
open Number

/-- How many members of a finite set are not entered yet. -/
def room {α : Type} [DecidableEq α] (U : Finset α) (active : List α) : Nat :=
  (U.filter fun p => p ∉ active).card

section Room
variable {α : Type} [DecidableEq α] {U : Finset α} {active : List α} {p : α}

theorem room_le_card (U : Finset α) (active : List α) : room U active ≤ U.card :=
  Finset.card_filter_le U _

/-- Entering a member leaves less room. -/
theorem room_cons (hp : p ∈ U) (hn : p ∉ active) : room U (p :: active) < room U active := by
  refine Finset.card_lt_card ⟨fun q hq => ?_, fun hsub => ?_⟩
  · obtain ⟨hq, hout⟩ := Finset.mem_filter.mp hq
    exact Finset.mem_filter.mpr ⟨hq, fun hin => hout (List.mem_cons_of_mem p hin)⟩
  · have hpf := hsub (Finset.mem_filter.mpr ⟨hp, hn⟩)
    exact (Finset.mem_filter.mp hpf).2 (List.mem_cons_self ..)

end Room

namespace Heap
open Relation
variable {h : Heap}

/-- The identities of the objects of the heap. -/
def marks (h : Heap) : Finset (Option Addr) := (Finset.range h.size).image some

theorem card_marks (h : Heap) : h.marks.card ≤ h.size :=
  Finset.card_image_le.trans (Finset.card_range _).le

theorem card_pairs (h : Heap) : (h.marks ×ˢ h.marks).card ≤ h.size * h.size := by
  rw [Finset.card_product]
  exact Nat.mul_le_mul (card_marks h) (card_marks h)

theorem identity_mem_marks {v : Value} {m : Option Addr} (hn : h.view v ≠ .nil)
    (hm : v.identity h = some m) : m ∈ h.marks := by
  obtain ⟨a, _, rfl, ha⟩ := identity_eq_some hn hm
  exact Finset.mem_image_of_mem some (Finset.mem_range.mpr ha)

end Heap

namespace Object
variable {α : Type} {o : Object α} {z : Object Value}

theorem emptyOf_eq_some {c : Option Subclass} (make : Option Subclass → Object Value)
    (hz : emptyOf c make = some z) : z = make c := by
  unfold emptyOf at hz
  split at hz
  · cases hz
  · exact (Option.some.inj hz).symm

/-- A value of the same class that holds nothing and compares with everything. -/
structure Blank (o : Object α) (z : Object Value) : Prop where
  form : z.form = o.form
  ne_nil : z ≠ .nil
  children : z.children = []
  regular (h : Heap) : h.Regular z
  quiet : Heap.Quiet z

/-- The zero of a value's class is blank. -/
theorem zero?_blank (hz : o.zero? = some z) : Blank o z := by
  cases o with
  | int c n =>
    obtain rfl := emptyOf_eq_some (.int · 0) hz
    exact ⟨rfl, nofun, rfl, fun _ => trivial, trivial⟩
  | float c x =>
    obtain rfl := emptyOf_eq_some (.float · Binary64.zero) hz
    exact ⟨rfl, nofun, rfl, fun _ => trivial, trivial⟩
  | text c s =>
    obtain rfl := emptyOf_eq_some (.text · "") hz
    exact ⟨rfl, nofun, rfl, fun _ => trivial, trivial⟩
  | bytes c bs =>
    obtain rfl := emptyOf_eq_some (.bytes · []) hz
    exact ⟨rfl, nofun, rfl, fun _ => trivial, trivial⟩
  | list c xs =>
    obtain rfl := emptyOf_eq_some (.list · []) hz
    exact ⟨rfl, nofun, rfl, fun _ => trivial, trivial⟩
  | tuple c xs =>
    obtain rfl := emptyOf_eq_some (.tuple · []) hz
    exact ⟨rfl, nofun, rfl, fun _ => trivial, trivial⟩
  | map c es =>
    obtain rfl := emptyOf_eq_some (.map · []) hz
    exact ⟨rfl, nofun, rfl, fun _ => ⟨nofun, List.nodup_nil⟩, trivial⟩
  | bool b => cases hz; exact ⟨rfl, nofun, rfl, fun _ => trivial, trivial⟩
  | complex re im => cases hz; exact ⟨rfl, nofun, rfl, fun _ => trivial, trivial⟩
  | decimal d => cases hz; exact ⟨rfl, nofun, rfl, fun _ => trivial, rfl⟩
  | date d => cases hz; exact ⟨rfl, nofun, rfl, fun _ => trivial, trivial⟩
  | time t => cases hz; exact ⟨rfl, nofun, rfl, fun _ => trivial, trivial⟩
  | datetime x => cases hz; exact ⟨rfl, nofun, rfl, fun _ => trivial, trivial⟩
  | duration d => cases hz; exact ⟨rfl, nofun, rfl, fun _ => trivial, trivial⟩
  | _ => cases hz

theorem Blank.cls (hb : Blank o z) : z.cls = o.cls := by
  rw [← cls_form, hb.form, cls_form]

theorem Blank.kind (hb : Blank o z) : z.kind = o.kind := by
  rw [← kind_form, hb.form, kind_form]

theorem Blank.follows (hb : Blank o z) {K : ClassTable} (ho : o.Follows K) : z.Follows K := by
  intro n hn
  rw [hb.form]
  exact ho n (hb.cls.symm.trans hn)

theorem Blank.isRecord (hb : Blank o z) : z.isRecord = o.isRecord := by
  rw [Bool.eq_iff_iff, isRecord_iff, isRecord_iff, hb.kind]

end Object

namespace Heap
open Relation
variable {h : Heap}

section Zero
variable {K : ClassTable} {v : Value}

/-- Nothing is within a value in place that holds nothing but itself. -/
theorem within_of_empty {z : Object Value} (hz : z.children = []) {w : Value}
    (hw : h.Within (.inline z) w) : w = .inline z := by
  rcases hw.cases_head with rfl | ⟨u, hu, _⟩
  · rfl
  · have hu : u ∈ z.children := hu
    rw [hz] at hu
    cases hu

/-- What holds of a value in place that holds nothing holds everywhere in it. -/
theorem everywhere_of_empty {P : Object Value → Prop} {z : Object Value} (hz : z.children = [])
    (hp : P z) : h.Everywhere P (.inline z) := by
  intro w hw
  rw [within_of_empty hz hw]
  exact hp

theorem acyclic_of_empty {z : Object Value} (hz : z.children = []) : h.Acyclic (.inline z) := by
  intro w hw ht
  rw [within_of_empty hz hw] at ht
  obtain ⟨u, hu, _⟩ := TransGen.head'_iff.mp ht
  have hu : u ∈ z.children := hu
  rw [hz] at hu
  cases hu

theorem sane_zero {z : Object Value} (hv : h.Sane K v) (hz : (h.view v).zero? = some z) :
    h.Sane K (.inline z) := by
  have hb := Object.zero?_blank hz
  exact ⟨everywhere_of_empty hb.children (hb.regular h), everywhere_of_empty hb.children hb.quiet,
    everywhere_of_empty hb.children (hb.follows hv.named.here)⟩

theorem answers_isZeroScalar {o : Object Value} (ho : Quiet o) : Answers (h.isZeroScalar o) := by
  unfold isZeroScalar
  split
  case h_8 d => exact ⟨d.isZero, if_neg (by rw [show d.isSignaling = false from ho]; decide)⟩
  all_goals exact answers_ok _

/-- Whether a value that is no record is zero. -/
def isZeroEnd (h : Heap) (o : Object Value) : Except Fault Bool :=
  match o.kind with
  | .sequence | .mapping => .ok (h.entryCount o == 0)
  | _ => h.isZeroScalar o

theorem isZeroWithin_end {n : Nat} {active : List (Option Addr)}
    (hk : (h.view v).kind ≠ .record) :
    h.isZeroWithin (n + 1) active v = h.isZeroEnd (h.view v) := by
  rw [isZeroWithin, isZeroEnd]
  cases hv : (h.view v).kind <;> first | rfl | exact absurd hv hk

/-- What holds of the answers at values that are no records, and at records met again, and passes
from the fields of a record to the record, holds of the test. The room bounds how far it descends. -/
theorem isZeroWithin_induction {P : Value → Except Fault Bool → Prop}
    (hend : ∀ v, (h.view v).kind ≠ .record → P v (h.isZeroEnd (h.view v)))
    (hmet : ∀ v, (h.view v).kind = .record → P v (.ok true))
    (hfields : ∀ v test, (h.view v).kind = .record →
      (∀ f ∈ (h.view v).fields, P (h.fieldValue v f.name) (test f)) →
      P v (allHold test (h.view v).fields))
    {n : Nat} {active : List (Option Addr)} (hn : room h.marks active + weight v + 1 ≤ n) :
    P v (h.isZeroWithin n active v) := by
  induction n generalizing active v with
  | zero => omega
  | succ n ih =>
    by_cases hk : (h.view v).kind = .record
    · have hnil := Object.ne_nil_of_record hk
      simp only [isZeroWithin, hk]
      split
      · rename_i m hm
        split
        · exact hmet v hk
        · rename_i hout
          have hfresh : m ∉ active := fun hin => hout (List.contains_iff_mem.mpr hin)
          refine hfields v _ hk fun f _ => ih ?_
          have := room_cons (identity_mem_marks hnil hm) hfresh
          have := weight_fieldValue (h := h) v f.name
          omega
      · rename_i hm
        obtain ⟨o, rfl, ho⟩ := identity_eq_none hm
        refine hfields _ _ hk fun f _ => ih ?_
        have := weight_fieldValue_inline (h := h) ho f.name
        omega
    · rw [isZeroWithin_end hk]
      exact hend v hk

/-- The bound on the layers of a test leaves room for all objects. -/
theorem room_le_layerBound (v : Value) : room h.marks [] + weight v + 1 ≤ h.layerBound v := by
  have := room_le_card h.marks []
  have := card_marks h
  have := weight_le_depth v
  simp only [layerBound]
  omega

theorem answers_isZeroEnd {o : Object Value} (ho : Quiet o) : Answers (h.isZeroEnd o) := by
  unfold isZeroEnd
  split
  · exact answers_ok _
  · exact answers_ok _
  · exact answers_isZeroScalar ho

/-- Every sane value can be tested for being zero. -/
theorem answers_isZero (hv : h.Sane K v) : Answers (h.isZero v) :=
  isZeroWithin_induction (P := fun v answer => h.Sane K v → Answers answer)
    (fun _ _ hv => answers_isZeroEnd hv.quiet.here) (fun _ _ _ => answers_ok true)
    (fun _ _ _ hf hv => answers_allHold fun f hm => hf f hm (hv.fieldValue f.name))
    (room_le_layerBound v) hv

theorem isZero_nil : h.isZero .nil = .ok true := rfl

end Zero

section Equality
variable {K : ClassTable} {a b : Value}

theorem answers_sameKeys {v : Value} {as bs : List (Value × Value)}
    (hb : h.Sane K v) (hbs : h.entries? (h.view v) = some bs)
    (has : ∀ e ∈ as, h.hashable e.1 = true ∧ h.Everywhere (Object.Follows K) e.1) :
    Answers (h.sameKeys as bs) := by
  refine answers_ite (answers_ok false) (answers_allHold fun e he => ?_)
  exact answers_bind (answers_find? hb hbs (has e he).1 (has e he).2) fun _ _ => answers_pure _

/-- What is found under a key is the value of an entry whose key matches it. -/
theorem findPart_match {eq : Value → Value → Except Fault Bool} {key w : Value}
    {es : List (Value × Value)} (hf : findPart h eq key es = .ok (some w)) :
    ∃ e ∈ es, matchPart h eq e.1 key = .ok true ∧ e.2 = w := by
  induction es with
  | nil => cases hf
  | cons e es ih =>
    obtain ⟨found, hfound, hf⟩ := bind_eq_ok.mp hf
    split at hf
    · rename_i htrue
      cases hf
      exact ⟨e, List.mem_cons_self .., htrue ▸ hfound, rfl⟩
    · obtain ⟨d, hd, hm, rfl⟩ := ih hf
      exact ⟨d, List.mem_cons_of_mem e hd, hm, rfl⟩

theorem find?_match {key w : Value} {es : List (Value × Value)}
    (hf : h.find? key es = .ok (some w)) :
    ∃ e ∈ es, matchPart h h.same e.1 key = .ok true ∧ e.2 = w := findPart_match hf

theorem find?_mem {key w : Value} {es : List (Value × Value)}
    (hf : h.find? key es = .ok (some w)) : ∃ e ∈ es, e.2 = w := by
  obtain ⟨e, he, _, hw⟩ := find?_match hf
  exact ⟨e, he, hw⟩

/-- The items of a value are its parts. -/
theorem items?_part {v u : Value} (hu : u ∈ (h.view v).items?.getD []) : h.Part v u := by
  cases hi : (h.view v).items? with
  | none =>
    rw [hi] at hu
    cases hu
  | some xs =>
    rw [hi] at hu
    rw [Part, parts, items?_children hi]
    exact hu

/-- Two objects of one kind can be compared where everything below them can. -/
theorem answers_equalParts {eq : Value → Value → Except Fault Bool} (ha : h.Sane K a)
    (hb : h.Sane K b) (hk : (h.view b).kind = (h.view a).kind)
    (he : ∀ u w, TransGen h.Part a u → TransGen h.Part b w → Answers (eq u w)) :
    Answers (h.equalParts eq (h.view a) (h.view b)) := by
  unfold equalParts
  split
  · refine answers_ite (answers_allHold fun name _ => ?_) (answers_ok false)
    split
    · rename_i x y hx hy
      exact he x y (.single (attribute?_mem hx)) (.single (attribute?_mem hy))
    · exact answers_ok true
  · rename_i hka
    obtain ⟨as, has⟩ := ha.regular.here.entries hka
    obtain ⟨bs, hbs⟩ := hb.regular.here.entries (hk.trans hka)
    have hkeys : ∀ e ∈ as, h.hashable e.1 = true ∧ h.Everywhere (Object.Follows K) e.1 :=
      fun e hm => ⟨ha.regular.hashable_keys has e hm,
        ha.named.of_within (entries?_below has hm).1.to_reflTransGen⟩
    rw [has, hbs]
    refine answers_bind (answers_sameKeys hb hbs hkeys) fun _ _ => answers_ite ?_ (answers_ok false)
    refine answers_allHold fun e hm => ?_
    refine answers_bind (answers_find? hb hbs (hkeys e hm).1 (hkeys e hm).2) fun found hf => ?_
    cases found with
    | none => exact answers_ok false
    | some w =>
      obtain ⟨d, hd, rfl⟩ := find?_mem hf
      exact he e.2 d.2 (entries?_below has hm).2 (entries?_below hbs hd).2
  · refine answers_ite (answers_allHold fun p hp => ?_) (answers_ok false)
    have hmem := List.of_mem_zip hp
    exact he p.1 p.2 (.single (items?_part hmem.1)) (.single (items?_part hmem.2))

/-- With two objects entered there is less room, or what is below them weighs less. -/
theorem room_assume {active inner : Assumed} (ha : h.view a ≠ .nil) (hb : h.view b ≠ .nil)
    (hi : h.assume active a b = some inner) {u w : Value} (hu : TransGen h.Part a u)
    (hw : TransGen h.Part b w) :
    room (h.marks ×ˢ h.marks) inner + weight u + weight w <
      room (h.marks ×ˢ h.marks) active + weight a + weight b := by
  have hwu := weight_below hu
  have hww := weight_below hw
  have hlight : a.identity h = none ∨ b.identity h = none → weight u + weight w < weight a + weight b := by
    rintro (hn | hn)
    · obtain ⟨o, rfl, _⟩ := identity_eq_none hn
      have := weight_below_inline hu
      omega
    · obtain ⟨o, rfl, _⟩ := identity_eq_none hn
      have := weight_below_inline hw
      omega
  unfold assume at hi
  split at hi
  · rename_i x y hx hy
    split at hi
    · cases hi
    · rename_i hout
      cases hi
      have hp := Finset.mk_mem_product (identity_mem_marks ha hx) (identity_mem_marks hb hy)
      have := room_cons hp fun hin => hout (List.contains_iff_mem.mpr hin)
      omega
  · rename_i hsome
    cases hi
    have hnone : a.identity h = none ∨ b.identity h = none := by
      cases hx : a.identity h with
      | none => exact .inl rfl
      | some x =>
        cases hy : b.identity h with
        | none => exact .inr rfl
        | some y => exact absurd hy (hsome x y hx)
    have := hlight hnone
    omega

section Layers
variable {n : Nat} {active : Assumed}

theorem deepEqualWithin_classes (hc : (h.view a).cls ≠ (h.view b).cls) :
    h.deepEqualWithin (n + 1) active a b = .ok false := by
  rw [deepEqualWithin]
  exact if_pos hc

theorem deepEqualWithin_leaf (hc : (h.view a).cls = (h.view b).cls)
    (hl : (h.view a).kind.isLeaf = true) :
    h.deepEqualWithin (n + 1) active a b = h.matching a b := by
  rw [deepEqualWithin, if_neg (not_not.mpr hc)]
  generalize (h.view a).kind = k at hl
  cases k <;> first | rfl | cases hl

theorem deepEqualWithin_object (hc : (h.view a).cls = (h.view b).cls)
    (hl : (h.view a).kind.isLeaf = false) :
    h.deepEqualWithin (n + 1) active a b =
      if Value.isSame h a b then .ok true
      else match h.assume active a b with
        | none => .ok true
        | some inner => h.equalParts (h.deepEqualWithin n inner) (h.view a) (h.view b) := by
  rw [deepEqualWithin, if_neg (not_not.mpr hc)]
  generalize (h.view a).kind = k at hl
  cases k <;> first | rfl | cases hl

end Layers

theorem view_ne_nil_of_object (hl : (h.view a).kind.isLeaf = false) : h.view a ≠ .nil := by
  intro hv
  rw [hv] at hl
  cases hl

theorem answers_deepEqualWithin {n : Nat} {active : Assumed} (ha : h.Sane K a) (hb : h.Sane K b)
    (hn : room (h.marks ×ˢ h.marks) active + weight a + weight b + 1 ≤ n) :
    Answers (h.deepEqualWithin n active a b) := by
  induction n generalizing active a b with
  | zero => omega
  | succ n ih =>
    by_cases hc : (h.view a).cls = (h.view b).cls
    · have hk := Object.kind_eq hb.named.here ha.named.here hc.symm
      cases hl : (h.view a).kind.isLeaf with
      | true =>
        rw [deepEqualWithin_leaf hc hl]
        exact answers_matching ha hb hl (hk ▸ hl)
      | false =>
        rw [deepEqualWithin_object hc hl]
        have hna := view_ne_nil_of_object hl
        have hnb := view_ne_nil_of_object (h := h) (a := b) (hk ▸ hl)
        refine answers_ite (answers_ok true) ?_
        split
        · exact answers_ok true
        · rename_i inner hi
          refine answers_equalParts ha hb hk fun u w hu hw => ?_
          refine ih (ha.of_within hu.to_reflTransGen) (hb.of_within hw.to_reflTransGen) ?_
          have := room_assume hna hnb hi hu hw
          omega
    · rw [deepEqualWithin_classes hc]
      exact answers_ok false

/-- The bound on the steps of a comparison leaves room for all pairs of objects. -/
theorem room_le_pairBound (a b : Value) :
    room (h.marks ×ˢ h.marks) ([] : Assumed) + weight a + weight b + 1 ≤ h.pairBound a b := by
  have := room_le_card (h.marks ×ˢ h.marks) []
  have := card_pairs h
  have := weight_le_depth a
  have := weight_le_depth b
  simp only [pairBound]
  omega

/-- Every two sane values can be compared structurally. -/
theorem answers_deepEqual (ha : h.Sane K a) (hb : h.Sane K b) : Answers (h.deepEqual a b) :=
  answers_deepEqualWithin ha hb (room_le_pairBound a b)

end Equality

end Heap
end DocDelta
