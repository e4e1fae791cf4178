import Mathlib.Data.Fintype.EquivFin
import DocDelta.Proofs.Value.Bisimilarity
import DocDelta.Proofs.Value.Keys

/-! Deep equality as an equivalence.

Leaves are equal by identity or by meaning, and a meaning can have flaws: a NaN written in
place does not equal itself. Structural equality adds none. On values of a heap whose mappings
have no key twice it is reflexive, symmetric and transitive as soon as matching is so on what
is compared as a whole. Along records and sequences this is immediate; for mappings the keys
of one are found among those of the other, and since no key is there twice and there are as
many on both sides, every key of the other is found among those of the one. -/
namespace DocDelta

/-- Where every member of one list has a partner in another that is no longer, and no two
share one, every member of the other is a partner. -/
theorem exists_partner {α β : Type} {R : α → β → Prop} {as : List α} {bs : List β}
    (hl : as.length = bs.length) (hf : ∀ a ∈ as, ∃ b ∈ bs, R a b)
    (hapart : as.Pairwise fun a a' => ∀ b ∈ bs, R a b → ¬ R a' b) {b : β} (hb : b ∈ bs) :
    ∃ a ∈ as, R a b := by
  have hpartner : ∀ i : Fin as.length, ∃ j : Fin bs.length, R (as.get i) (bs.get j) := by
    intro i
    obtain ⟨b, hb, hr⟩ := hf _ (List.get_mem as i)
    obtain ⟨j, rfl⟩ := List.get_of_mem hb
    exact ⟨j, hr⟩
  choose f hf using hpartner
  have hinj : Function.Injective f := by
    intro i j hij
    by_contra hne
    have hj := hf j
    rw [← hij] at hj
    rcases Nat.lt_or_gt_of_ne (Fin.val_ne_of_ne hne) with hlt | hgt
    · exact List.pairwise_iff_get.mp hapart i j hlt _ (List.get_mem bs _) (hf i) hj
    · exact List.pairwise_iff_get.mp hapart j i hgt _ (List.get_mem bs _) hj (hf i)
  have hsurj := (Finite.injective_iff_surjective_of_equiv (finCongr hl)).mp hinj
  obtain ⟨j, rfl⟩ := List.get_of_mem hb
  obtain ⟨i, rfl⟩ := hsurj j
  exact ⟨_, List.get_mem as i, hf i⟩

namespace Heap
open Relation
variable {h : Heap} {K : ClassTable} {R : Value → Value → Prop} {a b d : Value}

theorem isSame_comm : Value.isSame h a b = Value.isSame h b a := by
  unfold Value.isSame
  cases a.identity h <;> cases b.identity h <;> simp [Bool.beq_comm]

/-- No key matches one that is not found. -/
theorem findPart_none {eq : Value → Value → Except Fault Bool} {key : Value}
    {es : List (Value × Value)} (hf : findPart h eq key es = .ok none) :
    ∀ e ∈ es, matchPart h eq e.1 key ≠ .ok true := by
  induction es with
  | nil => exact nofun
  | cons e es ih =>
    obtain ⟨found, hfound, hf⟩ := bind_eq_ok.mp hf
    rw [List.forall_mem_cons]
    cases found with
    | true => cases hf
    | false => exact ⟨by rw [hfound]; nofun, ih hf⟩

section Kept
variable {S : Value → Prop} (hS : h.Kept K S)
include hS

theorem Kept.of_entry {v : Value} {e : Value × Value} (hv : S v)
    (he : e ∈ (h.entries? (h.view v)).getD []) : S e.1 ∧ S e.2 :=
  ⟨hS.below hv (below_of_entry he).1, hS.below hv (below_of_entry he).2⟩

theorem Kept.hashable_key {v : Value} {e : Value × Value} (hv : S v)
    (he : e ∈ (h.entries? (h.view v)).getD []) : h.hashable e.1 = true := by
  cases hes : h.entries? (h.view v) with
  | none =>
    rw [hes] at he
    cases he
  | some es =>
    rw [hes] at he
    exact (hS.regular v hv).hashable_keys hes e he

theorem Kept.key {v : Value} {e : Value × Value} (hv : S v)
    (he : e ∈ (h.entries? (h.view v)).getD []) : S e.1 ∧ h.hashable e.1 = true :=
  ⟨(hS.of_entry hv he).1, hS.hashable_key hv he⟩

theorem Kept.kind_eq (ha : S a) (hb : S b) (hc : (h.view a).cls = (h.view b).cls) :
    (h.view a).kind = (h.view b).kind := Object.kind_eq (hS.follows ha) (hS.follows hb) hc

/-- What related values of the set are related by is in the set. -/
theorem Kept.related (ha : S a) (hb : S b) (hr : h.Related R a b) :
    h.Related (fun u w => S u ∧ S w ∧ R u w) a b :=
  hr.below.imp fun _ _ huw => ⟨hS.below ha huw.2.1, hS.below hb huw.2.2, huw.1⟩

section Keys
variable (hk : Equivalence fun a b : {v // S v ∧ h.hashable v = true} => h.matching a b = .ok true)
include hk

theorem Kept.entries_apart {v : Value} (hv : S v) :
    ((h.entries? (h.view v)).getD []).Pairwise fun d e =>
      ∀ k, S k → h.hashable k = true → h.matching d.1 k = .ok true →
        h.matching e.1 k ≠ .ok true := by
  cases hes : h.entries? (h.view v) with
  | none => exact .nil
  | some es =>
    have hmem : ∀ e ∈ es, S e.1 ∧ h.hashable e.1 = true := by
      intro e he
      have he : e ∈ (h.entries? (h.view v)).getD [] := by rw [hes]; exact he
      exact hS.key hv he
    refine (hS.distinct v es hv hes).imp_of_mem fun {d e} hd he hne k hsk hhk hdk hek => hne ?_
    have hke := hk.symm (x := ⟨e.1, hmem e he⟩) (y := ⟨k, hsk, hhk⟩) hek
    exact hk.trans (x := ⟨d.1, hmem d hd⟩) (y := ⟨k, hsk, hhk⟩) (z := ⟨e.1, hmem e he⟩) hdk hke

/-- The entry whose key matches is the one that is found. -/
theorem Kept.find?_eq {v key : Value} {e : Value × Value} (hv : S v)
    (he : e ∈ (h.entries? (h.view v)).getD []) (hsk : S key) (hhk : h.hashable key = true)
    (hm : h.matching e.1 key = .ok true) :
    h.find? key ((h.entries? (h.view v)).getD []) = .ok (some e.2) := by
  have hapart := hS.entries_apart hk hv
  have hans : Answers (h.find? key ((h.entries? (h.view v)).getD [])) :=
    answers_findPart fun d hd => answers_same_keys (hS.hashable_key hv hd) hhk
      (hS.named _ (hS.of_entry hv hd).1) (hS.named _ hsk)
  obtain ⟨found, hf⟩ := hans
  cases found with
  | none => exact absurd hm (findPart_none hf e he)
  | some w =>
    obtain ⟨d, hd, hdk, rfl⟩ := find?_match hf
    obtain ⟨i, rfl⟩ := List.get_of_mem hd
    obtain ⟨j, rfl⟩ := List.get_of_mem he
    rcases lt_trichotomy i j with hij | rfl | hij
    · exact absurd hm (List.pairwise_iff_get.mp hapart i j hij key hsk hhk hdk)
    · exact hf
    · exact absurd hdk (List.pairwise_iff_get.mp hapart j i hij key hsk hhk hm)

/-- A value with mappings is bisimilar to itself where its leaves match themselves. -/
theorem Kept.bisimilar_refl
    (hl : ∀ v, S v → (h.view v).kind.isLeaf = true → h.matching v v = .ok true) (ha : S a) :
    h.Bisimilar a a := by
  refine ⟨fun u w => u = w ∧ S u, ?_, rfl, ha⟩
  rintro v _ ⟨rfl, hv⟩
  cases hkind : (h.view v).kind with
  | record =>
    refine .record rfl hkind rfl fun name x y hx hy => ?_
    cases hx.symm.trans hy
    exact ⟨rfl, hS.part v x hv (attribute?_mem hx)⟩
  | mapping =>
    refine .mapping rfl hkind rfl fun e he => ?_
    obtain ⟨hsk, hhk⟩ := hS.key hv he
    exact ⟨e.2, hS.find?_eq hk hv he hsk hhk (hk.refl ⟨e.1, hsk, hhk⟩), rfl,
      (hS.of_entry hv he).2⟩
  | sequence =>
    exact .sequence rfl hkind
      (List.forall₂_same.mpr fun u hu => ⟨rfl, hS.part v u hv (items?_part hu)⟩)
  | _ =>
    have hleaf : (h.view v).kind.isLeaf = true := by rw [hkind]; rfl
    exact (related_leaf hleaf).mpr ⟨rfl, hl v hv hleaf⟩

/-- The keys of mappings that are related are found both ways. -/
theorem Kept.find?_back (ha : S a) (hb : S b)
    (hl : ((h.entries? (h.view a)).getD []).length = ((h.entries? (h.view b)).getD []).length)
    (hp : ∀ e ∈ (h.entries? (h.view a)).getD [], ∃ w,
      h.find? e.1 ((h.entries? (h.view b)).getD []) = .ok (some w) ∧ R e.2 w)
    {e : Value × Value} (he : e ∈ (h.entries? (h.view b)).getD []) :
    ∃ w, h.find? e.1 ((h.entries? (h.view a)).getD []) = .ok (some w) ∧ R w e.2 := by
  have hpartner : ∃ d ∈ (h.entries? (h.view a)).getD [],
      h.matching d.1 e.1 = .ok true ∧ R d.2 e.2 := by
    refine exists_partner (R := fun d e => h.matching d.1 e.1 = .ok true ∧ R d.2 e.2) hl
      (fun d hd => ?_) ?_ he
    · obtain ⟨w, hf, hw⟩ := hp d hd
      obtain ⟨c, hc, hm, rfl⟩ := find?_match hf
      exact ⟨c, hc, hk.symm (x := ⟨c.1, hS.key hb hc⟩) (y := ⟨d.1, hS.key ha hd⟩) hm, hw⟩
    · refine (hS.entries_apart hk ha).imp fun {d d'} hdd c hc hdc hd'c => ?_
      exact hdd c.1 (hS.key hb hc).1 (hS.key hb hc).2 hdc.1 hd'c.1
  obtain ⟨d, hd, hm, hw⟩ := hpartner
  exact ⟨d.2, hS.find?_eq hk ha hd (hS.key hb he).1 (hS.key hb he).2 hm, hw⟩

/-- The keys of mappings that are related one after the other are found in the last. -/
theorem Kept.find?_through {Q : Value → Value → Prop} (ha : S a) (hb : S b) (hd : S d)
    (hp : ∀ e ∈ (h.entries? (h.view a)).getD [], ∃ w,
      h.find? e.1 ((h.entries? (h.view b)).getD []) = .ok (some w) ∧ R e.2 w)
    (hq : ∀ e ∈ (h.entries? (h.view b)).getD [], ∃ w,
      h.find? e.1 ((h.entries? (h.view d)).getD []) = .ok (some w) ∧ Q e.2 w)
    {e : Value × Value} (he : e ∈ (h.entries? (h.view a)).getD []) :
    ∃ w, h.find? e.1 ((h.entries? (h.view d)).getD []) = .ok (some w) ∧ ∃ v, R e.2 v ∧ Q v w := by
  obtain ⟨v, hf, hev⟩ := hp e he
  obtain ⟨c, hc, hce, rfl⟩ := find?_match hf
  obtain ⟨w, hg, hcw⟩ := hq c hc
  obtain ⟨g, hgm, hgc, rfl⟩ := find?_match hg
  have hge := hk.trans (x := ⟨g.1, hS.key hd hgm⟩) (y := ⟨c.1, hS.key hb hc⟩)
    (z := ⟨e.1, hS.key ha he⟩) hgc hce
  exact ⟨g.2, hS.find?_eq hk hd hgm (hS.key ha he).1 (hS.key ha he).2 hge, c.2, hev, hcw⟩

/-- Objects that are related one after the other, part by part, are related. -/
theorem Kept.related_through {Q : Value → Value → Prop} (ha : S a) (hb : S b) (hd : S d)
    (hla : (h.view a).kind.isLeaf = false) (hr : h.Related R a b) (hsr : Value.isSame h a b = false)
    (hq : h.Related Q b d) (hsq : Value.isSame h b d = false) :
    h.Related (fun x y => ∃ v, R x v ∧ Q v y) a d := by
  have hkind := hS.kind_eq ha hb hr.classes
  have hc := hr.classes.trans hq.classes
  cases hr with
  | identical hs => exact absurd (hs.symm.trans hsr) nofun
  | leaf _ hleaf => exact absurd (hleaf.symm.trans hla) nofun
  | record _ hka hn hp =>
    obtain ⟨hm, hq⟩ := hq.record_parts hsq (hkind.symm.trans hka)
    refine .record hc hka (hn.trans hm) fun name x y hx hy => ?_
    have hname := (Object.attribute?_isSome.mp (Option.isSome_of_eq_some hx)).1
    have hrecord := Object.isRecord_iff.mpr (hkind.symm.trans hka)
    obtain ⟨v, hv⟩ := Option.isSome_iff_exists.mp
      (Object.attribute?_isSome.mpr ⟨hn ▸ hname, hrecord⟩)
    exact ⟨v, hp name x v hx hv, hq name v y hv hy⟩
  | mapping _ hka hlen hp =>
    obtain ⟨hm, hq⟩ := hq.mapping_parts hsq (hkind.symm.trans hka)
    exact .mapping hc hka (hlen.trans hm) fun e he => hS.find?_through hk ha hb hd hp hq he
  | sequence _ hka hp =>
    have hq := hq.sequence_parts hsq (hkind.symm.trans hka)
    obtain ⟨hl, hp⟩ := List.forall₂_iff_get.mp hp
    obtain ⟨hm, hq⟩ := List.forall₂_iff_get.mp hq
    refine .sequence hc hka (List.forall₂_iff_get.mpr ⟨hl.trans hm, fun i hi hj => ?_⟩)
    exact ⟨_, hp i hi (hl ▸ hi), hq i (hl ▸ hi) hj⟩

theorem Kept.bisimilar_symm
    (hl : ∀ u w, S u → S w → (h.view u).kind.isLeaf = true → (h.view w).kind.isLeaf = true →
      h.matching u w = .ok true → h.matching w u = .ok true)
    (ha : S a) (hb : S b) (hab : h.Bisimilar a b) : h.Bisimilar b a := by
  refine ⟨fun w u => S u ∧ S w ∧ h.Bisimilar u w, ?_, ha, hb, hab⟩
  rintro w u ⟨hu, hw, huw⟩
  have hr := hS.related hu hw (bisimulation_bisimilar u w huw)
  have hc := hr.classes.symm
  have hkind := hS.kind_eq hw hu hc
  cases hlu : (h.view u).kind.isLeaf with
  | true =>
    have hlw : (h.view w).kind.isLeaf = true := hkind ▸ hlu
    exact (related_leaf hlw).mpr ⟨hc, hl u w hu hw hlu hlw ((related_leaf hlu).mp hr).2⟩
  | false =>
    cases hr with
    | identical hs => exact .identical (isSame_comm.trans hs)
    | leaf _ hleaf => exact absurd (hleaf.symm.trans hlu) nofun
    | record _ hku hn hp =>
      exact .record hc (hkind.trans hku) hn.symm fun name x y hx hy => hp name y x hy hx
    | mapping _ hku hlen hp =>
      exact .mapping hc (hkind.trans hku) hlen.symm fun e he =>
        hS.find?_back hk (R := fun u w => S u ∧ S w ∧ h.Bisimilar u w) hu hw hlen hp he
    | sequence _ hku hp => exact .sequence hc (hkind.trans hku) hp.flip

theorem Kept.bisimilar_trans
    (hl : ∀ u w z, S u → S w → S z → (h.view u).kind.isLeaf = true →
      (h.view w).kind.isLeaf = true → (h.view z).kind.isLeaf = true →
      h.matching u w = .ok true → h.matching w z = .ok true → h.matching u z = .ok true)
    (ha : S a) (hb : S b) (hd : S d) (hab : h.Bisimilar a b) (hbd : h.Bisimilar b d) :
    h.Bisimilar a d := by
  refine ⟨fun u z => h.Bisimilar u z ∨
    ∃ w, S u ∧ S w ∧ S z ∧ h.Bisimilar u w ∧ h.Bisimilar w z, ?_, .inr ⟨b, ha, hb, hd, hab, hbd⟩⟩
  rintro u z (huz | ⟨w, hu, hw, hz, huw, hwz⟩)
  · exact (bisimulation_bisimilar u z huz).imp fun _ _ => .inl
  have hr := hS.related hu hw (bisimulation_bisimilar u w huw)
  have hq := hS.related hw hz (bisimulation_bisimilar w z hwz)
  have hkw := hS.kind_eq hu hw hr.classes
  have hkz := hS.kind_eq hw hz hq.classes
  cases hlu : (h.view u).kind.isLeaf with
  | true =>
    have hlw : (h.view w).kind.isLeaf = true := hkw ▸ hlu
    refine (related_leaf hlu).mpr ⟨hr.classes.trans hq.classes, ?_⟩
    exact hl u w z hu hw hz hlu hlw (hkz ▸ hlw) ((related_leaf hlu).mp hr).2
      ((related_leaf hlw).mp hq).2
  | false =>
    have hlw : (h.view w).kind.isLeaf = false := hkw ▸ hlu
    cases hsr : Value.isSame h u w with
    | true =>
      obtain rfl := eq_of_isSame hsr (view_ne_nil_of_object hlu)
      exact hq.imp fun _ _ hxy => .inl hxy.2.2
    | false =>
      cases hsq : Value.isSame h w z with
      | true =>
        obtain rfl := eq_of_isSame hsq (view_ne_nil_of_object hlw)
        exact hr.imp fun _ _ hxy => .inl hxy.2.2
      | false =>
        refine (hS.related_through hk hu hw hz hlu hr hsr hq hsq).imp fun x y hxy => .inr ?_
        obtain ⟨v, ⟨hsx, hsv, hxv⟩, _, hsy, hvy⟩ := hxy
        exact ⟨v, hsx, hsv, hsy, hxv, hvy⟩

/-- If matching is an equivalence on keys and on leaves, deep equality is one. -/
theorem Kept.equivalence_deepEqual
    (hl : Equivalence fun a b : {v // S v ∧ (h.view v).kind.isLeaf = true} =>
      h.matching a b = .ok true) :
    Equivalence fun a b : {v // S v} => h.deepEqual a b = .ok true := by
  constructor
  · rintro ⟨a, ha⟩
    exact deepEqual_eq_true.mpr
      (hS.bisimilar_refl hk (fun v hv hlv => hl.refl ⟨v, hv, hlv⟩) ha)
  · rintro ⟨a, ha⟩ ⟨b, hb⟩ hab
    exact deepEqual_eq_true.mpr (hS.bisimilar_symm hk
      (fun u w hu hw hlu hlw => hl.symm (x := ⟨u, hu, hlu⟩) (y := ⟨w, hw, hlw⟩)) ha hb
      (deepEqual_eq_true.mp hab))
  · rintro ⟨a, ha⟩ ⟨b, hb⟩ ⟨d, hd⟩ hab hbd
    exact deepEqual_eq_true.mpr (hS.bisimilar_trans hk
      (fun u w z hu hw hz hlu hlw hlz =>
        hl.trans (x := ⟨u, hu, hlu⟩) (y := ⟨w, hw, hlw⟩) (z := ⟨z, hz, hlz⟩))
      ha hb hd (deepEqual_eq_true.mp hab) (deepEqual_eq_true.mp hbd))

end Keys
end Kept

/-- If matching is an equivalence on what is compared as a whole, deep equality is one. -/
theorem Closed.equivalence_deepEqual {S : Value → Prop} (hS : h.Closed K S)
    (hw : Equivalence fun a b : {v // S v ∧ (h.view v).Whole} => h.matching a b = .ok true) :
    Equivalence fun a b : {v // S v} => h.deepEqual a b = .ok true := by
  have hleaf : ∀ {v : Value}, S v ∧ (h.view v).kind.isLeaf = true → S v ∧ (h.view v).Whole :=
    fun hv => ⟨hv.1, Object.whole_of_leaf hv.2⟩
  refine hS.kept.equivalence_deepEqual (equivalence_keys hS hw) ⟨fun a => ?_, fun {a b} => ?_,
    fun {a b d} => ?_⟩
  · exact hw.refl ⟨a, hleaf a.2⟩
  · exact hw.symm (x := ⟨a, hleaf a.2⟩) (y := ⟨b, hleaf b.2⟩)
  · exact hw.trans (x := ⟨a, hleaf a.2⟩) (y := ⟨b, hleaf b.2⟩) (z := ⟨d, hleaf d.2⟩)

/-- A list that holds itself, two lists that hold each other, and a map to either; the numbers
in them are equal and not one object. -/
def knots : Heap :=
  ⟨#[.list none [1, 4], .list none [3, 4], .list none [2, 5], .int none 7, .int none 7,
    .map none [(4, 1)], .map none [(5, 2)]]⟩

theorem closed_knots :
    knots.Closed (fun _ => .basic "list") fun v => ∃ i : Nat, i < 8 ∧ v = .ref i := by
  have hsane : ∀ a, knots.Sane (fun _ => .basic "list") (.ref a) := by
    refine fun a => ⟨everywhere_ref trivial ?_ a, everywhere_ref trivial ?_ a,
      everywhere_ref (Object.follows_nil _) (by decide) a⟩
    · intro a ha
      change a < 8 at ha
      interval_cases a <;> trivial
    · intro a ha
      change a < 8 at ha
      interval_cases a <;> trivial
  refine ⟨?_, ?_, ?_⟩
  · rintro v ⟨i, _, rfl⟩
    exact hsane i
  · rintro v w ⟨i, hi, rfl⟩ hw
    obtain ⟨j, rfl⟩ := part_ref hw
    refine ⟨j, ?_, rfl⟩
    have hchildren : ∀ i < 8, ∀ j ∈ (knots.object i).children, j < 8 := by decide
    have hj : Value.ref j ∈ ((knots.object i).mapChildren Value.ref).children := hw
    rw [children_mapChildren] at hj
    obtain ⟨j', hj', hrefs⟩ := List.mem_map.mp hj
    cases hrefs
    exact hchildren i hi j hj'
  · rintro v es ⟨i, hi, rfl⟩ hes
    have hone : ∀ i < 8, ∀ es ∈ knots.entries? (knots.view (.ref i)), es.length ≤ 1 := by
      intro i hi
      interval_cases i <;> decide
    have := hone i hi es hes
    match es with
    | [] => exact .nil
    | [e] => exact List.pairwise_singleton ..

/-- Of these objects the two numbers match, and each object itself. -/
theorem matching_knots {i j : Nat} (hi : i < 8) (hj : j < 8) :
    knots.matching (.ref i) (.ref j) = .ok true ↔ i = j ∨ (i = 4 ∧ j = 5) ∨ (i = 5 ∧ j = 4) := by
  have hfound : ∀ i < 8, ∀ j < 8, (knots.matching (.ref i) (.ref j)).toOption = some true ↔
      i = j ∨ (i = 4 ∧ j = 5) ∨ (i = 5 ∧ j = 4) := by decide +kernel
  rw [← hfound i hi j hj]
  exact ⟨fun hm => by rw [hm]; rfl, ok_of_toOption⟩

end Heap
end DocDelta
