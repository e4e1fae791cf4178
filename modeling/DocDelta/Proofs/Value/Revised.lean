import DocDelta.Proofs.Value.Held
import DocDelta.Settings.Layer

/-! Heaps in which only maps have changed.

No key is a map or has one in its contents that equality looks at, so keys agree in such a heap as
they did before (`Revises.matching`), and entries are found, put and removed as they would have
been. -/
namespace DocDelta.Heap
variable {h h' H H' : Heap} {K : ClassTable} {k x y v w : Value} {es : List (Value × Value)}
  {q : List Value} {a b : Addr} {n : Nat}

/-! ### Objects other than maps -/

/-- A heap in which maps have changed and objects have come up. -/
structure Revises (h H : Heap) : Prop where
  size : h.size ≤ H.size
  object : ∀ a < h.size, ¬ h.IsMap (.ref a) → H.object a = h.object a
  isMap : ∀ a < h.size, h.IsMap (.ref a) → H.IsMap (.ref a)

theorem Revises.refl (h : Heap) : Revises h h := ⟨Nat.le_refl _, fun _ _ _ => rfl, fun _ _ => id⟩

section Revises
variable (hr : Revises h H)
include hr

theorem Revises.view (ha : a < h.size) (hmap : ¬ h.IsMap (.ref a)) :
    H.view (.ref a) = h.view (.ref a) := by
  rw [Heap.view, hr.object a ha hmap, Heap.view]

theorem Revises.isMap_iff (ha : a < h.size) : H.IsMap (.ref a) ↔ h.IsMap (.ref a) := by
  refine ⟨fun hmap => ?_, hr.isMap a ha⟩
  by_contra hno
  rw [IsMap, mapEntries?, hr.view ha hno] at hmap
  exact hno hmap

theorem Revises.trans (hr' : Revises H H') : Revises h H' where
  size := hr.size.trans hr'.size
  object a ha hmap :=
    (hr'.object a (ha.trans_le hr.size) ((hr.isMap_iff ha).not.mpr hmap)).trans
      (hr.object a ha hmap)
  isMap a ha hmap := hr'.isMap a (ha.trans_le hr.size) (hr.isMap a ha hmap)

/-- A question that an object which is a map answers in one way is answered as before. -/
theorem Revises.of_view {β : Type} (f : Object Value → β) {b : β} (hf : ∀ c es, f (.map c es) = b)
    (ha : a < h.size) : f (H.view (.ref a)) = f (h.view (.ref a)) := by
  by_cases hmap : h.IsMap (.ref a)
  · obtain ⟨c, es, hv⟩ := isMap_ref.mp hmap
    obtain ⟨c', es', hv'⟩ := isMap_ref.mp (hr.isMap a ha hmap)
    rw [hv, hv', hf, hf]
  · rw [hr.view ha hmap]

theorem Revises.identity (ha : a < h.size) :
    (Value.ref a).identity H = (Value.ref a).identity h := by
  have hmark : ∀ g : Heap, (Value.ref a).identity g =
      if (g.view (.ref a)).isNil then some none else some (some a) := by
    intro g
    rw [Heap.view, Value.identity]
    generalize g.object a = o
    cases o <;> rfl
  rw [hmark, hmark, hr.of_view Object.isNil (fun _ _ => rfl) ha]

theorem Revises.isSame (ha : a < h.size) (hb : b < h.size) :
    Value.isSame H (.ref a) (.ref b) = Value.isSame h (.ref a) (.ref b) := by
  unfold Value.isSame
  rw [hr.identity ha, hr.identity hb]

theorem Revises.numeric? (hh : h.Sound K) (a : Addr) :
    H.numeric? (h.view (.ref a)) = h.numeric? (h.view (.ref a)) := by
  cases hv : h.view (.ref a) with
  | member c n v =>
    obtain ⟨b, hb, rfl⟩ := hh.part (member_part hv)
    simp only [Heap.numeric?]
    rw [hr.of_view Object.whole? (fun _ _ => rfl) hb]
  | _ => rfl

end Revises

/-! ### Keys -/

section Congruence
variable {eq eq' : Value → Value → Except Fault Bool}

theorem matchParts_congr {as bs : List Value}
    (he : ∀ u ∈ as, ∀ w ∈ bs, matchPart h' eq' u w = matchPart h eq u w) :
    matchParts h' eq' as bs = matchParts h eq as bs := by
  induction as generalizing bs with
  | nil => cases bs <;> rfl
  | cons a as ih =>
    cases bs with
    | nil => rfl
    | cons b bs =>
      rw [matchParts, matchParts, he a (List.mem_cons_self ..) b (List.mem_cons_self ..),
        ih fun u hu w hw => he u (List.mem_cons_of_mem a hu) w (List.mem_cons_of_mem b hw)]

theorem hasPart_congr {x : Value} {ys : List Value}
    (he : ∀ y ∈ ys, matchPart h' eq' y x = matchPart h eq y x) :
    hasPart h' eq' x ys = hasPart h eq x ys := by
  induction ys with
  | nil => rfl
  | cons y ys ih =>
    rw [hasPart, hasPart, he y (List.mem_cons_self ..),
      ih fun z hz => he z (List.mem_cons_of_mem y hz)]

theorem coversItems_congr {xs ys : List Value}
    (he : ∀ y ∈ ys, ∀ x ∈ xs, matchPart h' eq' y x = matchPart h eq y x) :
    coversItems h' eq' ys xs = coversItems h eq ys xs := by
  induction xs with
  | nil => rfl
  | cons x xs ih =>
    rw [coversItems, coversItems, hasPart_congr fun y hy => he y hy x (List.mem_cons_self ..),
      ih fun y hy z hz => he y hy z (List.mem_cons_of_mem x hz)]

/-- Layers other than maps are compared alike where the parts that equality looks at are. -/
theorem sameObject_congr {x y : Object Value} (hk : x.kind ≠ .mapping) (hxk : x.Follows K)
    (hyk : y.Follows K) (hx : h'.numeric? x = h.numeric? x) (hy : h'.numeric? y = h.numeric? y)
    (he : ∀ u ∈ comparedParts x, ∀ w ∈ comparedParts y,
      matchPart h' eq' u w = matchPart h eq u w ∧ matchPart h' eq' w u = matchPart h eq w u) :
    h'.sameObject eq' x y = h.sameObject eq x y := by
  have hnumbers : sameObject.numbers h' x y = sameObject.numbers h x y := by
    unfold sameObject.numbers
    rw [hx, hy]
  have hparts : ∀ {as bs : List Value}, as = comparedParts x → bs = comparedParts y →
      matchParts h' eq' as bs = matchParts h eq as bs := by
    rintro as bs rfl rfl
    exact matchParts_congr fun u hu w hw => (he u hu w hw).1
  have hitems : ∀ {as bs : List Value}, as = comparedParts x → bs = comparedParts y →
      coversItems h' eq' bs as = coversItems h eq bs as := by
    rintro as bs rfl rfl
    exact coversItems_congr fun w hw u hu => (he u hu w hw).2
  unfold sameObject
  split
  case h_13 => exact congrArg (ite _ · _) (hparts rfl rfl)
  case h_14 => exact congrArg (ite _ · _) (hitems rfl rfl)
  case h_15 => exact congrArg (ite _ · _) (hitems rfl rfl)
  case h_16 => exact congrArg (ite _ · _) (hitems rfl rfl)
  case h_17 => exact congrArg (ite _ · _) (hitems rfl rfl)
  case h_18 => exact absurd rfl hk
  case h_19 => exact absurd rfl hk
  case h_20 =>
    split
    · rw [hnumbers]
    · split
      · rename_i hcd
        obtain ⟨hc, hd⟩ := Bool.and_eq_true_iff.mp hcd
        exact hparts (comparedParts_record (.inl hc) _).symm (comparedParts_record (.inl hd) _).symm
      · split
        · rename_i hcd
          obtain ⟨hc, hn⟩ := Bool.and_eq_true_iff.mp hcd
          have hclass := Object.record_class_eq hxk hyk (eq_of_beq hn)
          exact hparts (comparedParts_record (.inr hc) _).symm
            (comparedParts_record (.inr (hclass ▸ hc)) _).symm
        · rfl
    · split
      · rename_i has hbs
        exact hparts (tupleItems?_compared has) (tupleItems?_compared hbs)
      · exact hnumbers
  all_goals rfl

end Congruence

section Keys
variable (hh : h.Sound K) (hr : Revises h H)
include hh hr

/-- Equality of values that cannot change has its old answer. -/
theorem Revises.sameWithin (ha : a < h.size) (hb : b < h.size)
    (hka : h.hashableWithin n (.ref a) = true) (hkb : h.hashableWithin n (.ref b) = true) :
    H.sameWithin n (.ref a) (.ref b) = h.sameWithin n (.ref a) (.ref b) := by
  induction n generalizing a b with
  | zero => rfl
  | succ n ih =>
    have hleaf : ∀ {c : Addr}, h.hashableWithin (n + 1) (.ref c) = true → ¬ h.IsMap (.ref c) := by
      intro c hc hmap
      obtain ⟨d, es, hv⟩ := isMap_ref.mp hmap
      exact (hashableWithin_layer hc).2.1 (hv ▸ rfl)
    have hpart : ∀ {c : Addr} {u : Value}, h.hashableWithin (n + 1) (.ref c) = true →
        u ∈ comparedParts (h.view (.ref c)) →
          ∃ d < h.size, u = .ref d ∧ h.hashableWithin n (.ref d) = true := by
      intro c u hc hu
      obtain ⟨d, hd, rfl⟩ := hh.part (a := c) (comparedParts_children hu)
      exact ⟨d, hd, rfl, (hashableWithin_layer hc).2.2 _ hu⟩
    rw [Heap.sameWithin, Heap.sameWithin, hr.view ha (hleaf hka), hr.view hb (hleaf hkb),
      hr.isSame ha hb]
    refine congrArg (ite _ _ ·) (sameObject_congr (hashableWithin_layer hka).2.1
      (hh.lawful a ha).follows.here (hh.lawful b hb).follows.here (hr.numeric? hh a)
      (hr.numeric? hh b) fun u hu w hw => ?_)
    obtain ⟨c, hc, rfl, hkc⟩ := hpart hka hu
    obtain ⟨d, hd, rfl, hkd⟩ := hpart hkb hw
    unfold matchPart
    rw [hr.isSame hc hd, hr.isSame hd hc, ih hc hd hkc hkd, ih hd hc hkd hkc]
    exact ⟨rfl, rfl⟩

/-- Keys agree as they did before. -/
theorem Revises.matching (hx : h.IsKey x) (hy : h.IsKey y) :
    H.matching x y = .ok (h.agrees x y) := by
  have hold := matching_agrees (hx.answers hh hy)
  obtain ⟨hkx, a, ha, rfl⟩ := hx
  obtain ⟨hky, b, hb, rfl⟩ := hy
  unfold Heap.matching matchPart at hold ⊢
  rw [hr.isSame ha hb]
  split at hold
  · rw [if_pos ‹_›]
    exact hold
  · rw [if_neg ‹_›]
    have hbound : h.pairBound (.ref a) (.ref b) ≤ H.pairBound (.ref a) (.ref b) := by
      have := Nat.mul_le_mul hr.size hr.size
      simp only [pairBound, Value.depth]
      omega
    refine sameWithin_mono hbound _ _ _ ?_
    rw [hr.sameWithin hh ha hb (hashableWithin_mono hkx (layerBound_le_pairBound ..))
      (hashableWithin_mono hky (pairBound_comm _ _ ▸ layerBound_le_pairBound ..))]
    exact hold

theorem Revises.agrees (hx : h.IsKey x) (hy : h.IsKey y) : H.agrees x y = h.agrees x y := by
  unfold Heap.agrees
  rw [hr.matching hh hx hy]
  rfl

theorem Revises.found? (hes : ∀ e ∈ es, h.IsKey e.1) (hk : h.IsKey k) :
    H.found? k es = h.found? k es := by
  induction es with
  | nil => rfl
  | cons e es ih =>
    obtain ⟨hkey, hes⟩ := List.forall_mem_cons.mp hes
    rw [found?_cons, found?_cons, hr.agrees hh hkey hk, ih hes]

theorem Revises.find? (hes : ∀ e ∈ es, h.IsKey e.1) (hk : h.IsKey k) :
    H.find? k es = .ok (h.found? k es) := by
  induction es with
  | nil => rfl
  | cons e es ih =>
    obtain ⟨hkey, hes⟩ := List.forall_mem_cons.mp hes
    have hfirst : matchPart H H.same e.1 k = .ok (h.agrees e.1 k) := hr.matching hh hkey hk
    rw [Heap.find?, findPart, found?_cons, hfirst]
    refine bind_eq_ok.mpr ⟨_, rfl, ?_⟩
    by_cases he : h.agrees e.1 k = true
    · rw [if_pos he, if_pos he]
    · rw [if_neg he, if_neg he]
      exact ih hes

theorem Revises.putEntry (hes : ∀ e ∈ es, h.IsKey e.1) (hk : h.IsKey k) (v : Value) :
    H.putEntry k v es = .ok (h.amend k (some v) es) := by
  induction es with
  | nil => rfl
  | cons e es ih =>
    obtain ⟨hkey, hes⟩ := List.forall_mem_cons.mp hes
    rw [Heap.putEntry, amend_cons, hr.matching hh hkey hk]
    refine bind_eq_ok.mpr ⟨_, rfl, ?_⟩
    by_cases he : h.agrees e.1 k = true
    · rw [if_pos he, if_pos he]
      rfl
    · rw [if_neg he, if_neg he]
      exact bind_eq_ok.mpr ⟨_, ih hes, rfl⟩

theorem Revises.dropEntry (hes : ∀ e ∈ es, h.IsKey e.1) (hk : h.IsKey k) :
    Settings.dropEntry H k es = .ok (h.amend k none es) := by
  induction es with
  | nil => rfl
  | cons e es ih =>
    obtain ⟨hkey, hes⟩ := List.forall_mem_cons.mp hes
    rw [Settings.dropEntry, amend_cons, hr.matching hh hkey hk]
    refine bind_eq_ok.mpr ⟨_, rfl, ?_⟩
    by_cases he : h.agrees e.1 k = true
    · rw [if_pos he, if_pos he]
      rfl
    · rw [if_neg he, if_neg he]
      exact bind_eq_ok.mpr ⟨_, ih hes, rfl⟩

end Keys

end DocDelta.Heap
