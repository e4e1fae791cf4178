import DocDelta.Proofs.Value.Descent
import DocDelta.Proofs.Value.Scalars

/-! How keys match.

The keys of a map cannot change. Equality takes a key apart where it is a tuple, a positional
record or a declared record (`structure?`), and goes on with its items or attributes; any
other key it compares as a whole. So if matching is an equivalence on the values that are
compared as a whole it is one on all keys made of them (`equivalence_keys`). -/
namespace DocDelta
open Relation

namespace Object

/-- How equality takes a value apart: tuples and positional records by their items, declared
records by class and attributes. -/
def structure? : Object Value → Option (Option String × List Value)
  | .tuple _ xs => some (none, xs)
  | .record ⟨_, .positional _⟩ as => some (none, as.map (·.2))
  | .record ⟨name, .declared ..⟩ as => some (some name, as.map (·.2))
  | _ => none

/-- A value that equality compares as a whole. -/
def Whole (o : Object Value) : Prop := o.structure? = none ∧ o.kind ≠ .sequence ∧ o.kind ≠ .mapping

instance (o : Object Value) : Decidable o.Whole := inferInstanceAs (Decidable (_ ∧ _))

variable {x y : Object Value} {c : Option String} {as bs : List Value}

theorem structure?_children (hx : x.structure? = some (c, as)) : x.children = as := by
  unfold structure? at hx
  split at hx <;> cases hx <;> rfl

theorem comparedParts_structure? (hx : x.structure? = some (c, as)) :
    Heap.comparedParts x = as := by
  unfold structure? at hx
  split at hx <;> cases hx <;> rfl

theorem isFreeform_structure? (hx : x.structure? = some (c, as)) : x.isFreeform = false := by
  unfold structure? at hx
  split at hx <;> cases hx <;> rfl

theorem tupleItems?_eq_some : x.tupleItems? = some as ↔ x.structure? = some (none, as) := by
  cases x with
  | record c ps =>
    obtain ⟨name, shape⟩ := c
    cases shape <;> simp [tupleItems?, structure?, RecordClass.isPositional]
  | _ => simp [tupleItems?, structure?]

/-- Leaves are compared as a whole. -/
theorem whole_of_leaf (hl : x.kind.isLeaf = true) : x.Whole := by
  refine ⟨?_, ?_, ?_⟩
  · cases x <;> first | rfl | cases hl
  · intro hk
    rw [hk] at hl
    cases hl
  · intro hk
    rw [hk] at hl
    cases hl

end Object

namespace Heap
variable {h : Heap} {x y : Object Value} {c : Option String} {as bs : List Value}
variable {eq : Value → Value → Except Fault Bool}

theorem numeric?_structure? (hx : x.structure? = some (c, as)) : h.numeric? x = none := by
  unfold Object.structure? at hx
  split at hx <;> cases hx <;> rfl

theorem kind_ne_mapping_of_structure? (hx : x.structure? = some (c, as)) : x.kind ≠ .mapping := by
  unfold Object.structure? at hx
  split at hx <;> cases hx <;> simp [Object.kind, Object.isRecord]

/-- Layers that are taken apart in one way are compared part by part. -/
theorem sameObject_structure? (hx : x.structure? = some (c, as)) (hy : y.structure? = some (c, bs)) :
    h.sameObject eq x y = matchParts h eq as bs := by
  unfold Object.structure? at hx hy
  split at hx <;> cases hx <;> split at hy <;> cases hy <;>
    simp [sameObject, Object.tupleItems?, RecordClass.isPositional, RecordClass.isDeclared]

/-- Equal layers are taken apart in one way. -/
theorem structure?_of_sameObject {K : ClassTable} (hxk : x.Follows K) (hyk : y.Follows K)
    (hs : h.sameObject eq x y = .ok true) :
    x.structure?.map (·.1) = y.structure?.map (·.1) := by
  have hnumbers : sameObject.numbers h x y = .ok true → x.structure? = none ∧ y.structure? = none := by
    intro hn
    constructor
    · cases hx : x.structure? with
      | none => rfl
      | some p => simp [sameObject.numbers, numeric?_structure? (h := h) hx] at hn
    · cases hy : y.structure? with
      | none => rfl
      | some p => simp [sameObject.numbers, numeric?_structure? (h := h) hy] at hn
  have hentries : ∀ {es}, h.entries? y = some es → y.structure? = none := by
    intro es hes
    cases hy : y.structure? with
    | none => rfl
    | some p => exact absurd (mapping_of_entries hes) (kind_ne_mapping_of_structure? hy)
  unfold sameObject at hs
  split at hs
  case h_18 =>
    split at hs
    · rename_i hb
      rw [hentries hb]
      rfl
    · cases hs
  case h_19 =>
    split at hs
    · rename_i hb
      rw [hentries hb]
      rfl
    · cases hs
  case h_20 =>
    split at hs
    · rfl
    · rename_i c ps d qs _ _ _ _ _ _ _ _ _ _ _ _ _ _ _ _ _ _ _
      obtain ⟨cname, cshape⟩ := c
      obtain ⟨dname, dshape⟩ := d
      split at hs
      · rename_i hpos
        cases cshape <;> cases dshape <;>
          simp [RecordClass.isPositional, Object.structure?] at hpos ⊢
      · split at hs
        · rename_i hdecl
          obtain ⟨hdeclared, hname⟩ := Bool.and_eq_true_iff.mp hdecl
          have hclass := Object.record_class_eq hxk hyk (eq_of_beq hname)
          cases hclass
          cases cshape <;> rfl
        · cases hs
    · split at hs
      · rename_i ha hb
        rw [Object.tupleItems?_eq_some.mp ha, Object.tupleItems?_eq_some.mp hb]
        rfl
      · obtain ⟨hx, hy⟩ := hnumbers hs
        rw [hx, hy]
  all_goals rfl

/-! ### Matching -/

section Matching
variable {a b : Value}

theorem matchParts_eq_true : matchParts h eq as bs = .ok true ↔
    List.Forall₂ (fun u w => matchPart h eq u w = .ok true) as bs := by
  induction as generalizing bs with
  | nil => cases bs <;> simp [matchParts]
  | cons a as ih =>
    cases bs with
    | nil => simp [matchParts]
    | cons b bs =>
      rw [List.forall₂_cons, ← ih, matchParts, bind_eq_ok]
      constructor
      · rintro ⟨r, hr, hrest⟩
        cases r with
        | true => exact ⟨hr, hrest⟩
        | false => cases hrest
      · rintro ⟨hr, hrest⟩
        exact ⟨true, hr, hrest⟩

/-- Lists whose places match do so within one bound. -/
theorem exists_bound_of_matches (hp : List.Forall₂ h.Matches as bs) :
    ∃ n, List.Forall₂ (fun u w => matchPart h (h.sameWithin n) u w = .ok true) as bs := by
  have hmono : ∀ {n m : Nat}, n ≤ m → ∀ u w, matchPart h (h.sameWithin n) u w = .ok true →
      matchPart h (h.sameWithin m) u w = .ok true := fun hm u w =>
    stepwise_yields.matchPart (fun u w => sameWithin_mono hm u w) u w true
  induction hp with
  | nil => exact ⟨0, .nil⟩
  | cons huw _ ih =>
    obtain ⟨n, hn⟩ := ih
    rcases huw with hs | ⟨m, hm⟩
    · exact ⟨n, .cons (if_pos hs) hn⟩
    · refine ⟨max m n, .cons ?_ (hn.imp (hmono (Nat.le_max_right m n)))⟩
      refine hmono (Nat.le_max_left m n) _ _ ?_
      unfold matchPart
      rw [hm]
      exact ite_self _

/-- Values that are taken apart in one way match where their parts do. -/
theorem matches_of_parts (ha : (h.view a).structure? = some (c, as))
    (hb : (h.view b).structure? = some (c, bs)) (hp : List.Forall₂ h.Matches as bs) :
    h.Matches a b := by
  obtain ⟨n, hn⟩ := exists_bound_of_matches hp
  refine .inr ⟨n + 1, ?_⟩
  rw [sameWithin, Object.isFreeform_structure? ha]
  exact (sameObject_structure? ha hb).trans (matchParts_eq_true.mpr hn)

/-- Values that match are one object, or are taken apart in one way into parts that match. -/
theorem parts_of_matches {K : ClassTable} (hak : (h.view a).Follows K) (hbk : (h.view b).Follows K)
    (ha : (h.view a).structure? = some (c, as)) (hm : h.Matches a b) :
    a = b ∨ ∃ bs, (h.view b).structure? = some (c, bs) ∧ List.Forall₂ h.Matches as bs := by
  rcases hm with hs | ⟨n, hn⟩
  · refine .inl (eq_of_isSame hs fun hnil => ?_)
    rw [hnil] at ha
    cases ha
  · cases n with
    | zero => cases hn
    | succ n =>
      rw [sameWithin, Object.isFreeform_structure? ha] at hn
      have hstructure := structure?_of_sameObject hak hbk hn
      rw [ha] at hstructure
      obtain ⟨⟨_, bs⟩, hb, rfl⟩ := Option.map_eq_some_iff.mp hstructure.symm
      refine .inr ⟨bs, hb, ?_⟩
      have hparts := matchParts_eq_true.mp ((sameObject_structure? ha hb).symm.trans hn)
      refine hparts.imp fun u w huw => ?_
      unfold matchPart at huw
      split at huw
      · exact .inl ‹_›
      · exact .inr ⟨n, huw⟩

/-- What matches a value that is compared as a whole is compared as a whole, or not a key. -/
theorem structure?_of_matches {K : ClassTable} (hak : (h.view a).Follows K)
    (hbk : (h.view b).Follows K) (hm : h.Matches a b) (ha : (h.view a).structure? = none) :
    (h.view b).structure? = none := by
  rcases hm with hs | ⟨n, hn⟩
  · rwa [← view_eq_of_isSame hs]
  · cases n with
    | zero => cases hn
    | succ n =>
      rw [sameWithin] at hn
      split at hn
      · rename_i hf
        rwa [← view_eq_of_isSame (Bool.and_eq_true_iff.mp hf).2]
      · have hstructure := structure?_of_sameObject hak hbk hn
        rw [ha] at hstructure
        exact Option.map_eq_none_iff.mp hstructure.symm

end Matching

/-! ### Keys -/

/-- Values that keep the rules of their layers, with everything that they are made of, whose
mappings have no key twice. -/
structure Kept (h : Heap) (K : ClassTable) (S : Value → Prop) : Prop where
  regular : ∀ v, S v → h.Everywhere h.Regular v
  named : ∀ v, S v → h.Everywhere (Object.Follows K) v
  part : ∀ v w, S v → h.Part v w → S w
  distinct : ∀ v es, S v → h.entries? (h.view v) = some es →
    es.Pairwise fun d e => h.matching d.1 e.1 ≠ .ok true

/-- Sane values, with everything that they are made of, whose mappings have no key twice. -/
structure Closed (h : Heap) (K : ClassTable) (S : Value → Prop) : Prop where
  sane : ∀ v, S v → h.Sane K v
  part : ∀ v w, S v → h.Part v w → S w
  distinct : ∀ v es, S v → h.entries? (h.view v) = some es →
    es.Pairwise fun d e => h.matching d.1 e.1 ≠ .ok true

section Keys
variable {K : ClassTable} {S : Value → Prop} {n : Nat} {a b d : Value}

theorem Closed.kept (hS : h.Closed K S) : h.Kept K S :=
  ⟨fun v hv => (hS.sane v hv).regular, fun v hv => (hS.sane v hv).named, hS.part, hS.distinct⟩

theorem Kept.below (hS : h.Kept K S) (ha : S a) (hb : TransGen h.Part a b) : S b := by
  induction hb with
  | single hp => exact hS.part a _ ha hp
  | tail _ hp ih => exact hS.part _ _ ih hp

theorem Kept.follows (hS : h.Kept K S) (ha : S a) : (h.view a).Follows K := (hS.named a ha).here

/-- Values that are compared as a whole can be compared. -/
theorem answers_matching_whole (ha : h.Sane K a) (hb : h.Sane K b) (hwa : (h.view a).Whole)
    (hwb : (h.view b).Whole) : Answers (h.matching a b) := by
  have hparts : ∀ {v : Value}, h.Sane K v → (h.view v).Whole →
      ∀ u ∈ comparedParts (h.view v), h.hashable u = true := by
    intro v hv hw u hu
    cases hl : (h.view v).kind.isLeaf with
    | true => exact hashable_comparedParts hv.regular.here hl u hu
    | false =>
      obtain ⟨hs, hseq, _⟩ := hw
      clear hv
      generalize h.view v = o at *
      cases o with
      | record c as =>
        obtain ⟨name, shape⟩ := c
        cases shape with
        | freeform => cases hu
        | _ => cases hs
      | list c xs => exact absurd rfl hseq
      | tuple c xs => cases hs
      | set c xs => cases hl
      | frozenset c xs => cases hl
      | _ => cases hu
  exact answers_matching_parts ha.quiet.here hb.quiet.here ha.named hb.named hwa.2.2
    (hparts ha hwa) (hparts hb hwb)

/-- Keys that are not taken apart are compared as a whole. -/
theorem whole_of_hashable (ha : h.hashableWithin n a = true) (hs : (h.view a).structure? = none) :
    (h.view a).Whole := by
  cases n with
  | zero => cases ha
  | succ n =>
    refine ⟨hs, ?_, (hashableWithin_layer ha).2.1⟩
    unfold hashableWithin at ha
    generalize h.view a = o at *
    cases o with
    | list c xs => cases ha
    | tuple c xs => cases hs
    | int c n => cases c <;> simp [Object.kind, Object.isRecord]
    | float c x => cases c <;> simp [Object.kind, Object.isRecord]
    | _ => simp [Object.kind, Object.isRecord]

theorem hashable_structure? (ha : h.hashableWithin (n + 1) a = true)
    (hs : (h.view a).structure? = some (c, as)) : ∀ u ∈ as, h.hashableWithin n u = true :=
  Object.comparedParts_structure? hs ▸ (hashableWithin_layer ha).2.2

theorem Kept.structure? (hS : h.Kept K S) (ha : S a)
    (hs : (h.view a).structure? = some (c, as)) : ∀ u ∈ as, S u := by
  intro u hu
  refine hS.part a u ha ?_
  rw [Part, parts, Object.structure?_children hs]
  exact hu

section Induction
variable (hS : h.Kept K S)
include hS

theorem matches_refl (hw : ∀ v, S v → (h.view v).Whole → h.Matches v v)
    (ha : h.hashableWithin n a = true) (hsa : S a) : h.Matches a a := by
  induction n generalizing a with
  | zero => cases ha
  | succ n ih =>
    cases hs : (h.view a).structure? with
    | none => exact hw a hsa (whole_of_hashable ha hs)
    | some p =>
      refine matches_of_parts hs hs (List.forall₂_same.mpr fun u hu => ?_)
      exact ih (hashable_structure? ha hs u hu) (hS.structure? hsa hs u hu)

theorem matches_symm (hw : ∀ u w, S u → S w → (h.view u).Whole → (h.view w).Whole →
      h.Matches u w → h.Matches w u)
    (ha : h.hashableWithin n a = true) (hb : h.hashableWithin n b = true) (hsa : S a) (hsb : S b)
    (hab : h.Matches a b) : h.Matches b a := by
  induction n generalizing a b with
  | zero => cases ha
  | succ n ih =>
    cases hs : (h.view a).structure? with
    | none =>
      have ht := structure?_of_matches (hS.follows hsa) (hS.follows hsb) hab hs
      exact hw a b hsa hsb (whole_of_hashable ha hs) (whole_of_hashable hb ht) hab
    | some p =>
      rcases parts_of_matches (hS.follows hsa) (hS.follows hsb) hs hab with rfl | ⟨bs, ht, hp⟩
      · exact hab
      · obtain ⟨hl, hp⟩ := List.forall₂_iff_get.mp hp
        refine matches_of_parts ht hs (List.forall₂_iff_get.mpr ⟨hl.symm, fun i hi hj => ?_⟩)
        have hu := List.get_mem p.2 ⟨i, hj⟩
        have hv := List.get_mem bs ⟨i, hi⟩
        exact ih (hashable_structure? ha hs _ hu) (hashable_structure? hb ht _ hv)
          (hS.structure? hsa hs _ hu) (hS.structure? hsb ht _ hv) (hp i hj hi)

theorem matches_trans (hw : ∀ u w z, S u → S w → S z → (h.view u).Whole → (h.view w).Whole →
      (h.view z).Whole → h.Matches u w → h.Matches w z → h.Matches u z)
    (ha : h.hashableWithin n a = true) (hb : h.hashableWithin n b = true)
    (hd : h.hashableWithin n d = true) (hsa : S a) (hsb : S b) (hsd : S d)
    (hab : h.Matches a b) (hbd : h.Matches b d) : h.Matches a d := by
  induction n generalizing a b d with
  | zero => cases ha
  | succ n ih =>
    have hka := hS.follows hsa
    have hkb := hS.follows hsb
    have hkd := hS.follows hsd
    cases hs : (h.view a).structure? with
    | none =>
      have ht := structure?_of_matches hka hkb hab hs
      have hu := structure?_of_matches hkb hkd hbd ht
      exact hw a b d hsa hsb hsd (whole_of_hashable ha hs) (whole_of_hashable hb ht)
        (whole_of_hashable hd hu) hab hbd
    | some p =>
      rcases parts_of_matches hka hkb hs hab with rfl | ⟨bs, ht, hp⟩
      · exact hbd
      rcases parts_of_matches hkb hkd ht hbd with rfl | ⟨ds, hu, hq⟩
      · exact hab
      obtain ⟨hl, hp⟩ := List.forall₂_iff_get.mp hp
      obtain ⟨hm, hq⟩ := List.forall₂_iff_get.mp hq
      refine matches_of_parts hs hu (List.forall₂_iff_get.mpr ⟨hl.trans hm, fun i hi hk => ?_⟩)
      have hj : i < bs.length := hl ▸ hi
      have hx := List.get_mem p.2 ⟨i, hi⟩
      have hy := List.get_mem bs ⟨i, hj⟩
      have hz := List.get_mem ds ⟨i, hk⟩
      exact ih (hashable_structure? ha hs _ hx) (hashable_structure? hb ht _ hy)
        (hashable_structure? hd hu _ hz) (hS.structure? hsa hs _ hx) (hS.structure? hsb ht _ hy)
        (hS.structure? hsd hu _ hz) (hp i hi hj) (hq i hj hk)

end Induction

/-- If matching is an equivalence on what is compared as a whole it is one on keys. -/
theorem equivalence_keys (hS : h.Closed K S)
    (hw : Equivalence fun a b : {v // S v ∧ (h.view v).Whole} => h.matching a b = .ok true) :
    Equivalence fun a b : {v // S v ∧ h.hashable v = true} => h.matching a b = .ok true := by
  have hwhole : ∀ {u w : Value}, S u → S w → (h.view u).Whole → (h.view w).Whole → h.Matches u w →
      h.matching u w = .ok true := fun hu hz huw hzw hm =>
    matching_of_matches hm (answers_matching_whole (hS.sane _ hu) (hS.sane _ hz) huw hzw)
  have hkeys : ∀ {u w : Value}, S u → S w → h.hashable u = true → h.hashable w = true →
      h.Matches u w → h.matching u w = .ok true := fun hu hz huh hzh hm =>
    matching_of_matches hm
      (answers_matchPart (answers_same_keys huh hzh (hS.sane _ hu).named (hS.sane _ hz).named))
  have hbound : ∀ {u : Value} {n : Nat}, h.hashable u = true → h.layerBound u ≤ n →
      h.hashableWithin n u = true := fun hu hn => hashableWithin_mono hu hn
  constructor
  · rintro ⟨a, hsa, ha⟩
    refine hkeys hsa hsa ha ha (matches_refl hS.kept (fun v hv hvw => ?_) ha hsa)
    exact matches_of_matching (hw.refl ⟨v, hv, hvw⟩)
  · rintro ⟨a, hsa, ha⟩ ⟨b, hsb, hb⟩ hab
    refine hkeys hsb hsa hb ha (matches_symm hS.kept (fun u w hu hz huw hzw hm => ?_)
      (hbound ha (Nat.le_max_left ..)) (hbound hb (Nat.le_max_right ..)) hsa hsb
      (matches_of_matching hab))
    exact matches_of_matching
      (hw.symm (x := ⟨u, hu, huw⟩) (y := ⟨w, hz, hzw⟩) (hwhole hu hz huw hzw hm))
  · rintro ⟨a, hsa, ha⟩ ⟨b, hsb, hb⟩ ⟨d, hsd, hd⟩ hab hbd
    refine hkeys hsa hsd ha hd (matches_trans hS.kept (fun u w z hu hz hq huw hzw hqw huz hzq => ?_)
      (n := h.layerBound a + h.layerBound b + h.layerBound d)
      (hbound (u := a) ha (by omega)) (hbound (u := b) hb (by omega))
      (hbound (u := d) hd (by omega)) hsa hsb hsd
      (matches_of_matching hab) (matches_of_matching hbd))
    exact matches_of_matching
      (hw.trans (x := ⟨u, hu, huw⟩) (y := ⟨w, hz, hzw⟩) (z := ⟨z, hq, hqw⟩)
        (hwhole hu hz huw hzw huz) (hwhole hz hq hzw hqw hzq))

end Keys

end Heap
end DocDelta
