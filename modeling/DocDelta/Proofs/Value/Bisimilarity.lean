import DocDelta.Proofs.Value.Scalars

/-! Structural equality of graphs as a bisimulation.

A bisimulation is a relation whose pairs are one object, or two values of one class whose
parts the relation goes on to hold of. Two values are bisimilar when some bisimulation holds
of them; no reading of the graph, however long, then tells them apart. `deepEqual` finds
that out in finitely many steps: it takes the pairs it is in the middle of to be equal.

Soundness follows the comparison downwards, where a bisimulation never lets it fail. For
completeness the assumptions have to be discharged. `EqualTo k` says that no difference shows
within `k` steps; where that holds of everything assumed it holds of what is found equal, by
induction on `k`, and what is equal to every `k` is bisimilar. -/
namespace DocDelta.Heap
open Relation
variable (h : Heap)

/-! ### Bisimulations -/

/-- What two values have to be for `R` to relate them: one object, or of one class with leaves
that equal each other, the same attributes, the same keys or as many items, and with parts
that `R` relates. -/
inductive Related (R : Value → Value → Prop) (a b : Value) : Prop
  | identical (hs : Value.isSame h a b = true)
  | leaf (hc : (h.view a).cls = (h.view b).cls) (hl : (h.view a).kind.isLeaf = true)
      (hm : h.same a b = .ok true)
  | record (hc : (h.view a).cls = (h.view b).cls) (hk : (h.view a).kind = .record)
      (hn : (h.view a).attributeNames? = (h.view b).attributeNames?)
      (hp : ∀ name x y, (h.view a).attribute? name = some x → (h.view b).attribute? name = some y →
        R x y)
  | mapping (hc : (h.view a).cls = (h.view b).cls) (hk : (h.view a).kind = .mapping)
      (hl : ((h.entries? (h.view a)).getD []).length = ((h.entries? (h.view b)).getD []).length)
      (hp : ∀ e ∈ (h.entries? (h.view a)).getD [], ∃ w,
        h.find? e.1 ((h.entries? (h.view b)).getD []) = .ok (some w) ∧ R e.2 w)
  | sequence (hc : (h.view a).cls = (h.view b).cls) (hk : (h.view a).kind = .sequence)
      (hp : List.Forall₂ R ((h.view a).items?.getD []) ((h.view b).items?.getD []))

/-- A relation that goes on to hold wherever its pairs lead. -/
def Bisimulation (R : Value → Value → Prop) : Prop := ∀ a b, R a b → h.Related R a b

/-- No path into both values leads to a difference. -/
def Bisimilar (a b : Value) : Prop := ∃ R, h.Bisimulation R ∧ R a b

variable {h} {R S : Value → Value → Prop} {a b : Value}

theorem Related.imp (hr : h.Related R a b) (hi : ∀ u w, R u w → S u w) : h.Related S a b := by
  cases hr with
  | identical hs => exact .identical hs
  | leaf hc hl hm => exact .leaf hc hl hm
  | record hc hk hn hp => exact .record hc hk hn fun name x y hx hy => hi _ _ (hp name x y hx hy)
  | mapping hc hk hl hp =>
    refine .mapping hc hk hl fun e he => ?_
    obtain ⟨w, hf, hw⟩ := hp e he
    exact ⟨w, hf, hi _ _ hw⟩
  | sequence hc hk hp => exact .sequence hc hk (hp.imp hi)

theorem Related.classes (hr : h.Related R a b) : (h.view a).cls = (h.view b).cls := by
  cases hr with
  | identical hs => rw [view_eq_of_isSame hs]
  | leaf hc => exact hc
  | record hc => exact hc
  | mapping hc => exact hc
  | sequence hc => exact hc

/-- Leaves are related where they match. -/
theorem related_leaf (hl : (h.view a).kind.isLeaf = true) :
    h.Related R a b ↔ (h.view a).cls = (h.view b).cls ∧ h.matching a b = .ok true := by
  constructor
  · intro hr
    refine ⟨hr.classes, ?_⟩
    rw [matching, matchPart]
    cases hr with
    | identical hs => exact if_pos hs
    | leaf _ _ hm =>
      rw [hm]
      exact ite_self _
    | record _ hk => rw [hk] at hl; cases hl
    | mapping _ hk => rw [hk] at hl; cases hl
    | sequence _ hk => rw [hk] at hl; cases hl
  · rintro ⟨hc, hm⟩
    rw [matching, matchPart] at hm
    split at hm
    · exact .identical ‹_›
    · exact .leaf hc hl hm

/-! What is related and not one object is so part by part. -/

section Inversion
variable (hr : h.Related R a b) (hs : Value.isSame h a b = false)
include hr hs

theorem Related.record_parts (hk : (h.view a).kind = .record) :
    (h.view a).attributeNames? = (h.view b).attributeNames? ∧
      ∀ name x y, (h.view a).attribute? name = some x → (h.view b).attribute? name = some y →
        R x y := by
  cases hr with
  | identical hs' => exact absurd (hs'.symm.trans hs) nofun
  | leaf _ hl => rw [hk] at hl; cases hl
  | record _ _ hn hp => exact ⟨hn, hp⟩
  | mapping _ hk' => rw [hk] at hk'; cases hk'
  | sequence _ hk' => rw [hk] at hk'; cases hk'

theorem Related.mapping_parts (hk : (h.view a).kind = .mapping) :
    ((h.entries? (h.view a)).getD []).length = ((h.entries? (h.view b)).getD []).length ∧
      ∀ e ∈ (h.entries? (h.view a)).getD [], ∃ w,
        h.find? e.1 ((h.entries? (h.view b)).getD []) = .ok (some w) ∧ R e.2 w := by
  cases hr with
  | identical hs' => exact absurd (hs'.symm.trans hs) nofun
  | leaf _ hl => rw [hk] at hl; cases hl
  | record _ hk' => rw [hk] at hk'; cases hk'
  | mapping _ _ hl hp => exact ⟨hl, hp⟩
  | sequence _ hk' => rw [hk] at hk'; cases hk'

theorem Related.sequence_parts (hk : (h.view a).kind = .sequence) :
    List.Forall₂ R ((h.view a).items?.getD []) ((h.view b).items?.getD []) := by
  cases hr with
  | identical hs' => exact absurd (hs'.symm.trans hs) nofun
  | leaf _ hl => rw [hk] at hl; cases hl
  | record _ hk' => rw [hk] at hk'; cases hk'
  | mapping _ hk' => rw [hk] at hk'; cases hk'
  | sequence _ _ hp => exact hp

end Inversion

/-- Bisimilarity is itself a bisimulation. -/
theorem bisimulation_bisimilar : h.Bisimulation h.Bisimilar := by
  rintro a b ⟨R, hR, hab⟩
  exact (hR a b hab).imp fun u w huw => ⟨R, hR, huw⟩

/-! ### What the parts of equal objects are -/

/-- The keys and values of a mapping's entries, if it has any, are below it. -/
theorem below_of_entry {v : Value} {e : Value × Value} (he : e ∈ (h.entries? (h.view v)).getD []) :
    TransGen h.Part v e.1 ∧ TransGen h.Part v e.2 := by
  cases hes : h.entries? (h.view v) with
  | none =>
    rw [hes] at he
    cases he
  | some es =>
    rw [hes] at he
    exact entries?_below hes he

/-- Lists of one length whose places pass a test are related place by place by it. -/
theorem allHold_zip {eq : Value → Value → Except Fault Bool} {as bs : List Value}
    (hl : as.length = bs.length) :
    allHold (fun p => eq p.1 p.2) (as.zip bs) = .ok true ↔
      List.Forall₂ (fun u w => eq u w = .ok true) as bs := by
  induction as generalizing bs with
  | nil =>
    cases bs with
    | nil => exact ⟨fun _ => .nil, fun _ => rfl⟩
    | cons b bs => cases hl
  | cons a as ih =>
    cases bs with
    | nil => cases hl
    | cons b bs =>
      have hl : as.length = bs.length := Nat.succ.inj hl
      rw [List.zip_cons_cons, allHold_eq_true, List.forall_mem_cons, ← allHold_eq_true, ih hl,
        List.forall₂_cons]

/-- The parts of two objects pass a test where the objects are related by it. -/
theorem equalParts_of_related {eq : Value → Value → Except Fault Bool}
    (hl : (h.view a).kind.isLeaf = false) (hs : Value.isSame h a b = false)
    (hr : h.Related (fun u w => eq u w = .ok true) a b) :
    h.equalParts eq (h.view a) (h.view b) = .ok true := by
  unfold equalParts
  cases hr with
  | identical hsame => exact absurd (hsame.symm.trans hs) nofun
  | leaf _ hleaf => exact absurd (hleaf.symm.trans hl) nofun
  | record hc hk hn hp =>
    simp only [hk, if_pos hn]
    refine allHold_eq_true.mpr fun name _ => ?_
    split
    · rename_i x y hx hy
      exact hp name x y hx hy
    · rfl
  | mapping hc hk hlen hp =>
    simp only [hk]
    have hkeys : h.sameKeys ((h.entries? (h.view a)).getD []) ((h.entries? (h.view b)).getD []) =
        .ok true := by
      rw [sameKeys, if_neg (not_not.mpr hlen)]
      refine allHold_eq_true.mpr fun e he => ?_
      obtain ⟨w, hf, _⟩ := hp e he
      exact bind_eq_ok.mpr ⟨some w, hf, rfl⟩
    refine bind_eq_ok.mpr ⟨true, hkeys, allHold_eq_true.mpr fun e he => ?_⟩
    obtain ⟨w, hf, hw⟩ := hp e he
    exact bind_eq_ok.mpr ⟨some w, hf, hw⟩
  | sequence hc hk hp =>
    simp only [hk, if_pos hp.length_eq]
    exact (allHold_zip hp.length_eq).mpr hp

theorem related_of_equalParts {eq : Value → Value → Except Fault Bool}
    (hc : (h.view a).cls = (h.view b).cls) (hl : (h.view a).kind.isLeaf = false)
    (he : h.equalParts eq (h.view a) (h.view b) = .ok true) :
    h.Related (fun u w => eq u w = .ok true) a b := by
  unfold equalParts at he
  split at he
  · rename_i hk
    split at he
    · rename_i hn
      refine .record hc hk hn fun name x y hx hy => ?_
      have hname := (Object.attribute?_isSome.mp (Option.isSome_of_eq_some hx)).1
      simpa [hx, hy] using allHold_eq_true.mp he name hname
    · cases he
  · rename_i hk
    obtain ⟨keys, hkeys, he⟩ := bind_eq_ok.mp he
    split at he
    · rename_i htrue
      subst htrue
      unfold sameKeys at hkeys
      split at hkeys
      · cases hkeys
      · rename_i hlen
        refine .mapping hc hk (not_not.mp hlen) fun e hm => ?_
        obtain ⟨found, hf, hw⟩ := bind_eq_ok.mp (allHold_eq_true.mp he e hm)
        cases found with
        | none => cases hw
        | some w => exact ⟨w, hf, hw⟩
    · cases he
  · rename_i hnr hnm
    have hk : (h.view a).kind = .sequence := by
      cases hk : (h.view a).kind with
      | sequence => rfl
      | record => exact absurd hk hnr
      | mapping => exact absurd hk hnm
      | _ => rw [hk] at hl; cases hl
    dsimp only at he
    split at he
    · rename_i hlen
      exact .sequence hc hk ((allHold_zip hlen).mp he)
    · cases he

/-- What a pair is related by is below it. -/
theorem Related.below (hr : h.Related R a b) :
    h.Related (fun u w => R u w ∧ TransGen h.Part a u ∧ TransGen h.Part b w) a b := by
  cases hr with
  | identical hs => exact .identical hs
  | leaf hc hl hm => exact .leaf hc hl hm
  | record hc hk hn hp =>
    exact .record hc hk hn fun name x y hx hy =>
      ⟨hp name x y hx hy, .single (attribute?_mem hx), .single (attribute?_mem hy)⟩
  | mapping hc hk hl hp =>
    refine .mapping hc hk hl fun e he => ?_
    obtain ⟨w, hf, hw⟩ := hp e he
    obtain ⟨d, hd, rfl⟩ := find?_mem hf
    exact ⟨d.2, hf, hw, (below_of_entry he).2, (below_of_entry hd).2⟩
  | sequence hc hk hp =>
    refine .sequence hc hk ((List.forall₂_iff_zip.mpr ⟨hp.length_eq, fun {u w} hm => ?_⟩))
    have hmem := List.of_mem_zip hm
    exact ⟨(List.forall₂_iff_zip.mp hp).2 hm, .single (items?_part hmem.1),
      .single (items?_part hmem.2)⟩

/-! ### Equality up to a number of steps -/

/-- No difference shows within `k` steps. -/
def EqualTo (h : Heap) : Nat → Value → Value → Prop
  | 0 => fun _ _ => True
  | k + 1 => h.Related (h.EqualTo k)

theorem EqualTo.pred {k : Nat} (hab : h.EqualTo (k + 1) a b) : h.EqualTo k a b := by
  induction k generalizing a b with
  | zero => trivial
  | succ k ih => exact Related.imp hab fun u w huw => ih huw

/-- What is equal to any number of steps is bisimilar: which parts belong together does not
depend on how far is looked. -/
theorem bisimulation_equalTo : h.Bisimulation fun a b => ∀ k, h.EqualTo k a b := by
  intro a b hab
  have hstep : ∀ k, h.Related (h.EqualTo k) a b := fun k => hab (k + 1)
  have hc := (hstep 0).classes
  cases hs : Value.isSame h a b with
  | true => exact .identical hs
  | false =>
    cases hk : (h.view a).kind with
    | record =>
      have hparts := fun k => (hstep k).record_parts hs hk
      exact .record hc hk (hparts 0).1 fun name x y hx hy k => (hparts k).2 name x y hx hy
    | mapping =>
      have hparts := fun k => (hstep k).mapping_parts hs hk
      refine .mapping hc hk (hparts 0).1 fun e he => ?_
      obtain ⟨w, hf, _⟩ := (hparts 0).2 e he
      refine ⟨w, hf, fun k => ?_⟩
      obtain ⟨v, hv, hev⟩ := (hparts k).2 e he
      cases hf.symm.trans hv
      exact hev
    | sequence =>
      have hparts := fun k => List.forall₂_iff_get.mp ((hstep k).sequence_parts hs hk)
      exact .sequence hc hk
        (List.forall₂_iff_get.mpr ⟨(hparts 0).1, fun i hi hj k => (hparts k).2 i hi hj⟩)
    | _ =>
      have hl : (h.view a).kind.isLeaf = true := by rw [hk]; rfl
      exact (related_leaf hl).mpr ((related_leaf hl).mp (hstep 0))

/-! ### The comparison -/

section Comparison
variable {n k : Nat} {active inner : Assumed}

/-- `R` relates all pairs that are assumed to be equal. -/
def Assured (h : Heap) (R : Value → Value → Prop) (active : Assumed) : Prop :=
  ∀ u w x y, u.identity h = some x → w.identity h = some y → (x, y) ∈ active → R u w

theorem Assured.imp (ha : h.Assured R active) (hi : ∀ u w, R u w → S u w) : h.Assured S active :=
  fun u w x y hx hy hm => hi u w (ha u w x y hx hy hm)

theorem eq_of_identity {u : Value} {x : Option Addr} (hn : h.view a ≠ .nil)
    (ha : a.identity h = some x) (hu : u.identity h = some x) : u = a := by
  have hs : Value.isSame h a u = true := by simp [Value.isSame, ha, hu]
  exact (eq_of_isSame hs hn).symm

/-- An object of the class of one that is no leaf is not nothing. -/
theorem view_ne_nil_of_classes (hc : (h.view a).cls = (h.view b).cls)
    (hl : (h.view a).kind.isLeaf = false) : h.view b ≠ .nil := by
  intro hb
  rw [hb] at hc
  have hform : (h.view a).form = .basic "NoneType" :=
    Form.eq_basic ((Object.cls_form _).trans hc)
  rw [← Object.kind_form, hform] at hl
  exact absurd hl (by decide)

/-- A pair is not entered again only where it is assumed. -/
theorem assume_eq_none (hi : h.assume active a b = none) :
    ∃ x y, a.identity h = some x ∧ b.identity h = some y ∧ (x, y) ∈ active := by
  unfold assume at hi
  split at hi
  · rename_i x y hx hy
    split at hi
    · rename_i hin
      exact ⟨x, y, hx, hy, List.contains_iff_mem.mp hin⟩
    · cases hi
  · cases hi

/-- What holds of the pairs assumed so far and of the pair that is entered holds of all that
are assumed from there on. -/
theorem Assured.enter (ha : h.Assured R active) (hna : h.view a ≠ .nil) (hnb : h.view b ≠ .nil)
    (hab : R a b) (hi : h.assume active a b = some inner) : h.Assured R inner := by
  intro u w x y hu hw hm
  unfold assume at hi
  split at hi
  · rename_i x' y' hx hy
    split at hi
    · cases hi
    · cases hi
      rcases List.mem_cons.mp hm with heq | hm
      · cases heq
        rw [eq_of_identity hna hx hu, eq_of_identity hnb hy hw]
        exact hab
      · exact ha u w x y hu hw hm
  · cases hi
    exact ha u w x y hu hw hm

/-- What is found equal shows no difference within `k` steps, if what was assumed does not. -/
theorem equalTo_of_deepEqualWithin (ha : h.Assured (h.EqualTo k) active)
    (he : h.deepEqualWithin n active a b = .ok true) : h.EqualTo k a b := by
  induction k generalizing n active a b with
  | zero => trivial
  | succ k ih =>
    have hpred : h.Assured (h.EqualTo k) active := ha.imp fun _ _ => EqualTo.pred
    have hab : h.EqualTo k a b := ih hpred he
    cases n with
    | zero => cases he
    | succ n =>
      by_cases hc : (h.view a).cls = (h.view b).cls
      · cases hl : (h.view a).kind.isLeaf with
        | true =>
          rw [deepEqualWithin_leaf hc hl] at he
          exact (related_leaf hl).mpr ⟨hc, he⟩
        | false =>
          rw [deepEqualWithin_object hc hl] at he
          split at he
          · exact .identical ‹_›
          · split at he
            · rename_i hi
              obtain ⟨x, y, hx, hy, hm⟩ := assume_eq_none hi
              exact ha a b x y hx hy hm
            · rename_i hi
              have hinner := hpred.enter (view_ne_nil_of_object hl) (view_ne_nil_of_classes hc hl)
                hab hi
              exact (related_of_equalParts hc hl he).imp fun u w huw => ih hinner huw
      · rw [deepEqualWithin_classes hc] at he
        cases he

/-- Where a bisimulation holds the comparison finds no difference. -/
theorem deepEqualWithin_of_bisimulation (hR : h.Bisimulation R) (hab : R a b)
    (hn : room (h.marks ×ˢ h.marks) active + weight a + weight b + 1 ≤ n) :
    h.deepEqualWithin n active a b = .ok true := by
  induction n generalizing active a b with
  | zero => omega
  | succ n ih =>
    have hr := hR a b hab
    have hc := hr.classes
    cases hl : (h.view a).kind.isLeaf with
    | true =>
      rw [deepEqualWithin_leaf hc hl]
      exact ((related_leaf hl).mp hr).2
    | false =>
      rw [deepEqualWithin_object hc hl]
      split
      · rfl
      · rename_i hs
        split
        · rfl
        · rename_i inner hi
          refine equalParts_of_related hl (Bool.not_eq_true _ ▸ hs) (hr.below.imp ?_)
          rintro u w ⟨huw, hu, hw⟩
          have := room_assume (view_ne_nil_of_object hl) (view_ne_nil_of_classes hc hl) hi hu hw
          exact ih huw (by omega)

end Comparison

/-- Deep equality decides bisimilarity. -/
theorem deepEqual_eq_true : h.deepEqual a b = .ok true ↔ h.Bisimilar a b := by
  constructor
  · intro he
    have hall : ∀ k, h.EqualTo k a b := fun k =>
      equalTo_of_deepEqualWithin (fun _ _ _ _ _ _ hm => absurd hm List.not_mem_nil) he
    exact ⟨_, bisimulation_equalTo, hall⟩
  · rintro ⟨R, hR, hab⟩
    exact deepEqualWithin_of_bisimulation hR hab (room_le_pairBound a b)

/-- What stands in the place of equal parts is equal. -/
theorem deepEqual_of_related (hr : h.Related (fun u w => h.deepEqual u w = .ok true) a b) :
    h.deepEqual a b = .ok true := by
  refine deepEqual_eq_true.mpr ⟨fun u w => (u = a ∧ w = b) ∨ h.Bisimilar u w, ?_, .inl ⟨rfl, rfl⟩⟩
  rintro u w (⟨rfl, rfl⟩ | huw)
  · exact hr.imp fun _ _ he => .inr (deepEqual_eq_true.mp he)
  · exact (bisimulation_bisimilar u w huw).imp fun _ _ => .inr

end DocDelta.Heap
