import DocDelta.Proofs.Value.Senses

/-! Everyday values.

On objects of a heap that are made of everyday layers matching is an equivalence, and then so is
deep equality: it does not matter which of two values comes first (`deepEqual_comm`). -/
namespace DocDelta.Heap
variable {h : Heap} {x : Object Value}

/-! ### Layers -/

/-- The layers of everyday values: scalars without a signaling NaN, members of enumerations that
are no whole numbers, lists, tuples, maps, none of a derived class, and records of any class. -/
def Common : Object Value → Prop
  | .nil | .bool _ | .int none _ | .float none _ | .text none _ | .bytes none _ => True
  | .decimal d => d.isSignaling = false
  | .date _ | .time _ | .datetime _ | .duration _ => True
  | .member c _ _ => c.isWhole = false
  | .list none _ | .tuple none _ | .map none _ | .record .. => True
  | _ => False

theorem Common.quiet (hx : Common x) : Quiet x := by
  cases x <;> first | exact hx | trivial

/-- An everyday value other than a record that has no zero of its class is a member. -/
theorem Common.member_of_zero? (hx : Common x) (hz : x.zero? = none) (hr : x.isRecord = false)
    (hn : x ≠ .nil) : ∃ c n v, x = .member c n v ∧ c.isWhole = false := by
  cases x with
  | member c n v => exact ⟨c, n, v, rfl, hx⟩
  | nil => exact absurd rfl hn
  | record c as => cases hr
  | int c _ | float c _ | text c _ | bytes c _ | list c _ | tuple c _ | map c _ =>
    cases c with
    | none => simp [Object.zero?, Object.emptyOf] at hz
    | some c => exact absurd hx id
  | _ => first | exact absurd hx id | cases hz

theorem Common.setItems? (hx : Common x) : x.setItems? = none := by
  cases x <;> first | rfl | exact absurd hx id

/-! ### Values -/

/-- An object of the heap, or nothing, that is made of everyday layers and does not contain itself;
its mappings have no key twice. -/
structure Ordinary (h : Heap) (K : ClassTable) (v : Value) : Prop where
  placed : v = .nil ∨ ∃ a, v = .ref a
  acyclic : h.Acyclic v
  common : h.Everywhere Common v
  regular : h.Everywhere h.Regular v
  dated : h.Everywhere Dated v
  follows : h.Everywhere (Object.Follows K) v
  distinct : ∀ w, h.Within v w → ∀ es, h.entries? (h.view w) = some es →
    es.Pairwise fun d e => h.matching d.1 e.1 ≠ .ok true

variable {K : ClassTable} {v w a b : Value}

theorem ordinary_nil : h.Ordinary K .nil where
  placed := .inl rfl
  acyclic := acyclic_nil
  common := everywhere_nil trivial
  regular := everywhere_nil trivial
  dated := everywhere_nil trivial
  follows := everywhere_nil (Object.follows_nil K)
  distinct w hw es hes := by
    rw [within_nil hw, entries?_none (by nofun)] at hes
    cases hes

theorem Ordinary.of_within (hv : h.Ordinary K v) (hw : h.Within v w) : h.Ordinary K w where
  placed := by
    rcases hv.placed with rfl | ⟨a, rfl⟩
    · exact .inl (within_nil hw)
    · exact .inr (within_ref hw)
  acyclic := hv.acyclic.of_within hw
  common := hv.common.of_within hw
  regular := hv.regular.of_within hw
  dated := hv.dated.of_within hw
  follows := hv.follows.of_within hw
  distinct u hu := hv.distinct u (hw.trans hu)

theorem Ordinary.link (hv : h.Ordinary K v) (hl : h.Link v w) : h.Ordinary K w := by
  rcases hl.below with rfl | hw
  · exact ordinary_nil
  · exact hv.of_within hw.to_reflTransGen

theorem Ordinary.sane (hv : h.Ordinary K v) : h.Sane K v :=
  ⟨hv.regular, hv.common.imp fun _ => Common.quiet, hv.follows⟩

theorem closed_ordinary : h.Closed K (h.Ordinary K) where
  sane _ hv := hv.sane
  part _ _ hv hw := hv.of_within (.single hw)
  distinct v es hv := hv.distinct v .refl es

/-- In a heap whose objects keep these rules and rank above their parts, every object is ordinary. -/
theorem ordinary_ref (r : Addr → Nat) (hr : ∀ a < h.size, ∀ b ∈ (h.object a).children, r b < r a)
    (hc : ∀ a < h.size, Common (h.view (.ref a)) ∧ h.Regular (h.view (.ref a)) ∧
      Dated (h.view (.ref a)) ∧ (h.view (.ref a)).Follows K)
    (hd : ∀ a < h.size, ∀ es ∈ h.entries? (h.view (.ref a)),
      es.Pairwise fun d e => h.matching d.1 e.1 ≠ .ok true) (a : Addr) : h.Ordinary K (.ref a) where
  placed := .inr ⟨a, rfl⟩
  acyclic := acyclic_ref r hr a
  common := everywhere_ref trivial (fun a ha => (hc a ha).1) a
  regular := everywhere_ref trivial (fun a ha => (hc a ha).2.1) a
  dated := everywhere_ref trivial (fun a ha => (hc a ha).2.2.1) a
  follows := everywhere_ref (Object.follows_nil K) (fun a ha => (hc a ha).2.2.2) a
  distinct w hw es hes := by
    obtain ⟨b, rfl⟩ := within_ref hw
    by_cases hb : b < h.size
    · exact hd b hb es hes
    · rw [Heap.view, object_of_size_le (Nat.le_of_not_lt hb)] at hes
      cases hes

/-! ### Matching -/

theorem Ordinary.matching_iff (ha : h.Ordinary K a) (hb : h.Ordinary K b) (hw : (h.view a).Whole) :
    h.matching a b = .ok true ↔
      a = b ∨ ∃ s, h.sense (h.view a) = some s ∧ h.sense (h.view b) = some s :=
  matching_whole ha.follows.here hb.follows.here hw ha.common.here.setItems? ha.placed

/-- On ordinary values matching is an equivalence where they are compared as a whole. -/
theorem equivalence_matching :
    Equivalence fun a b : {v // h.Ordinary K v ∧ (h.view v).Whole} => h.matching a b = .ok true := by
  refine ⟨?_, ?_, ?_⟩
  · rintro ⟨a, ha, hw⟩
    exact (ha.matching_iff ha hw).mpr (.inl rfl)
  · rintro ⟨a, ha, hwa⟩ ⟨b, hb, hwb⟩ hab
    refine (hb.matching_iff ha hwb).mpr ?_
    exact ((ha.matching_iff hb hwa).mp hab).imp Eq.symm fun ⟨s, hs, hs'⟩ => ⟨s, hs', hs⟩
  · rintro ⟨a, ha, hwa⟩ ⟨b, hb, hwb⟩ ⟨c, hc, _⟩ hab hbc
    refine (ha.matching_iff hc hwa).mpr ?_
    rcases (ha.matching_iff hb hwa).mp hab with rfl | ⟨s, hs, hs'⟩
    · exact (ha.matching_iff hc hwa).mp hbc
    · rcases (hb.matching_iff hc hwb).mp hbc with rfl | ⟨t, ht, ht'⟩
      · exact .inr ⟨s, hs, hs'⟩
      · cases hs'.symm.trans ht
        exact .inr ⟨s, hs, ht'⟩

/-- **It does not matter which of two ordinary values comes first.** -/
theorem Ordinary.deepEqual_comm (ha : h.Ordinary K a) (hb : h.Ordinary K b) :
    h.deepEqual a b = h.deepEqual b a := by
  have hequiv := closed_ordinary.equivalence_deepEqual (h := h) (K := K) equivalence_matching
  have hsymm : ∀ {u w : Value}, h.Ordinary K u → h.Ordinary K w → h.deepEqual u w = .ok true →
      h.deepEqual w u = .ok true := fun hu hw => hequiv.symm (x := ⟨_, hu⟩) (y := ⟨_, hw⟩)
  obtain ⟨r, hr⟩ := answers_deepEqual ha.sane hb.sane
  obtain ⟨q, hq⟩ := answers_deepEqual hb.sane ha.sane
  have hrq : r = true ↔ q = true := by
    constructor
    · rintro rfl
      exact Except.ok.inj (hq.symm.trans (hsymm ha hb hr))
    · rintro rfl
      exact Except.ok.inj (hr.symm.trans (hsymm hb ha hq))
  rw [hr, hq, Bool.eq_iff_iff.mpr hrq]

end DocDelta.Heap
