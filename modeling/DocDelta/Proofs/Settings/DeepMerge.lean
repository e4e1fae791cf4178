import DocDelta.Proofs.Settings.Merged

/-! Laying a nested map over an object merges them, and doing it again changes nothing.

Once a map was laid over an object, each of its entries finds what it leaves already there, so
laying it again writes every map as it was. Where an entry left nothing behind an empty map comes
up, gets nothing, and is taken away again (`Merged.void`). -/
namespace DocDelta.Settings
open Heap
variable {h H H₁ H' : Heap} {K : ClassTable} {a b : Addr} {k x v w u : Value}
  {es us : List (Value × Value)} {c : Option Subclass} {q : List Value} {n : Nat}
  {A B : List Value → Option Value}

/-! ### Below a key -/

theorem Merged.below (hm : Merged h u A B) (hview : h.view u = .map c us) (hu : ¬ h.Leaf u)
    (hk : h.IsKey k) (hv : h.found? k us = some v) :
    Merged h v (fun q => A (k :: q)) fun q => B (k :: q) := by
  have hat : ∀ q, h.at? (k :: q) u = h.at? q v := fun q => by
    rw [at?_cons hview, hv, Option.bind_some]
  have hpath : ∀ {q}, h.IsPath q → h.IsPath (k :: q) := fun hq => isPath_cons.mpr ⟨hk, hq⟩
  refine ⟨fun q w hq hw => hm.laid _ w (hpath hq) ((hat q).trans hw), fun q hq hn hp => ?_,
    fun q w y hq _ hw => hm.fits _ w y (hpath hq) (List.cons_ne_nil _ _) ((hat q).trans hw),
    fun q w y hq _ hw => hm.pruned _ w y (hpath hq) (List.cons_ne_nil _ _) ((hat q).trans hw)⟩
  refine hm.other _ (hpath hq) ((hat q).trans hn) fun p w hpq hw => ?_
  cases p with
  | nil =>
    cases hw
    exact hu
  | cons l p =>
    obtain ⟨rfl, hprefix⟩ := List.cons_prefix_cons.mp hpq
    exact hp p w hprefix ((hat p).symm.trans hw)

/-- What a merged map leaves under a key is what its entry leaves there. -/
theorem Merged.laid_under (hm : Merged h u A B) (hview : h.view u = .map c us) (hu : ¬ h.Leaf u)
    (hk : h.IsKey k) (hv : h.found? k us = some v) :
    Laid h v (fun q => A (k :: q)) fun q => B (k :: q) := by
  have hpath : h.IsPath [k] := isPath_cons.mpr ⟨hk, isPath_nil⟩
  have hat : h.at? [k] u = some v := by
    rw [at?_cons hview, hv]
    rfl
  refine ⟨fun hleaf => hm.laid [k] v hpath hat hleaf, fun _ => hm.below hview hu hk hv,
    fun hleaf w hw => ⟨hm.fits [k] v w hpath (List.cons_ne_nil _ _) hat hleaf hw, ?_⟩⟩
  exact hm.pruned [k] v w hpath (List.cons_ne_nil _ _) hat hleaf hw

/-- A map that says nothing but nothing leaves nothing where nothing was. -/
theorem Merged.void (hh : h.Sound K) (hn : h.Levels n (.ref b)) (hmap : h.IsMap (.ref b))
    (hm : Merged h (.ref b) A B) (hA : ∀ k q, h.IsKey k → A (k :: q) = none)
    (hnil : ∀ q w, h.IsPath q → h.at? q (.ref b) = some w → h.Leaf w → kept? h w = none)
    (hk : h.IsKey k) : B [k] = none := by
  induction n generalizing b A B k with
  | zero => exact absurd hmap hn
  | succ n ih =>
    obtain ⟨c, us, hview⟩ := isMap_ref.mp hmap
    have hb : ¬ h.Leaf (.ref b) := (not_leaf_iff hmap.lt_size).mpr hmap
    have hpath : h.IsPath [k] := isPath_cons.mpr ⟨hk, isPath_nil⟩
    have hat : ∀ q, h.at? (k :: q) (.ref b) = (h.found? k us).bind (h.at? q) := at?_cons hview k
    cases hv : h.found? k us with
    | none =>
      have hnone : h.at? [k] (.ref b) = none := by rw [hat, hv]; rfl
      rw [hm.other [k] hpath hnone fun p w hp hw => ?_, hA k [] hk]
      rcases List.prefix_concat_iff.mp (show p <+: [] ++ [k] from hp) with rfl | hp
      · rw [List.nil_append, hnone] at hw
        cases hw
      · rw [List.prefix_nil.mp hp] at hw
        cases hw
        exact hb
    | some v =>
      obtain ⟨x, hx, -⟩ := mem_of_found? hv
      obtain ⟨t, ht, rfl⟩ := hh.part (entry_parts hview hx).2
      have hlaid := hm.laid_under hview hb hk hv
      by_cases hleaf : h.Leaf (.ref t)
      · rw [hlaid.leaf hleaf, hnil [k] _ hpath (by rw [hat, hv]; rfl) hleaf]
      -- A map that was left there would not be empty, but nothing is left in it.
      · rw [Option.eq_none_iff_forall_ne_some]
        intro w hw
        obtain ⟨-, l, hl, hsome⟩ := hlaid.held hleaf w hw
        have hbelow := ih (hn us (mapEntries?_eq_some.mpr ⟨c, hview⟩) _ hx)
          ((not_leaf_iff ht).mp hleaf) (hlaid.merged hleaf) (fun l q _ => hA k (l :: q) hk)
          (fun q w hq hw => hnil (k :: q) w (isPath_cons.mpr ⟨hk, hq⟩) (by rw [hat, hv]; exact hw))
          hl
        rw [hbelow] at hsome
        cases hsome

/-- An entry that was laid suits what it left. -/
theorem Laid.suits (hl : Laid h v A B) (hv : ¬ h.Leaf v) : Suits h v B := by
  intro q y w hq hat hleaf hw
  cases q with
  | nil => exact (hl.held hv w hw).1
  | cons k q => exact (hl.merged hv).fits _ y w hq (List.cons_ne_nil _ _) hat hleaf hw

/-! ### Doing it again -/

/-- A heap in good order that only adds to another. -/
structure Adds (h H H' : Heap) : Prop extends Extends H H' where
  tidy : Tidy h H'

theorem revises_of_extends (hx : Extends H H') : Revises H H' where
  size := hx.size
  object d hd _ := hx.object d hd
  isMap d hd hmap := by rwa [IsMap, mapEntries?, Heap.view, hx.object d hd]

section Again
variable {c' : Option Subclass} (hh : h.Sound K) (hr : Ready h H a b)
include hh hr

/-- What comes up elsewhere makes no difference. -/
theorem Ready.adds (hx : Adds h H H') : Ready h H' a b ∧
    ∀ q, h.IsPath q → H'.at? q (.ref a) = H.at? q (.ref a) := by
  have hat : ∀ q, h.IsPath q → H'.at? q (.ref a) = H.at? q (.ref a) := fun q hq =>
    hr.tidy.frame hh hx.tidy hr.lower.lt_size (fun d hd =>
      hx.object d (hr.tidy.isMap_of_reached hh hr.lower.lt_size hd).lt_size) hq
  have hupper : ∀ d ∈ reached h h (some (.ref b)), d < H.size := fun d hd =>
    (hh.tidy.isMap_of_reached hh hr.upper.lt_size hd).lt_size.trans_le hr.tidy.size
  have hchanged : changed h H' (some (.ref b)) (some (.ref a)) =
      changed h H (some (.ref b)) (some (.ref a)) := changed_congr hat
  refine ⟨⟨hx.tidy, hr.upper, (revises_of_extends hx.toExtends).isMap a hr.lower.lt_size hr.lower,
    hr.alone.congr hat, hchanged ▸ hr.apart, fun d hd => ?_⟩, hat⟩
  rw [hx.object d (hupper d hd), hr.stable d hd]

variable (hu : h.view (.ref b) = .map c us) (hview : H.view (.ref a) = .map c' es) (hk : h.IsKey k)
  (hl : Laid h v (fun q => H.at? (k :: q) (.ref a)) fun q => H.at? (k :: q) (.ref a))
include hu hview hk hl

omit hr hu in
/-- Laying a leaf that has been laid writes the map as it was. -/
theorem exists_updateEntry_again_leaf (ht : Tidy h H) (hv : h.Leaf v) :
    ∃ H', (updateEntry false (updateWithin false n) a k v).run H = .ok ((), H') ∧
      Adds h H H' := by
  obtain ⟨hes, hvalues⟩ := ht.entries a c' es hview
  obtain ⟨H', hrun, hw⟩ := run_updateEntry_leaf hh ht hview hk _ hv
  have hkept : h.found? k es = kept? h v := by
    rw [← hl.leaf hv, ht.at?_cons hh hview hk]
    cases h.found? k es <;> rfl
  rw [← hkept, amend_found?] at hw
  exact ⟨H', hrun, hw.extends hview, hw.tidy ht (isMap_ref.mpr ⟨_, _, hview⟩) hes hvalues⟩

/-- Laying a map that has been laid over what stands under the key changes nothing there. -/
theorem exists_updateEntry_again_found {t : Addr} (hf : h.found? k us = some v) (ht : v = .ref t)
    (hmap : h.IsMap (.ref t)) (hw : h.found? k es = some w)
    (hagain : ∀ d, Ready h H d t → Merged h v (H.at? · (.ref d)) (H.at? · (.ref d)) →
      ∃ H', (updateWithin false n d v).run H = .ok ((), H') ∧ Adds h H H') :
    ∃ H', (updateEntry false (updateWithin false n) a k v).run H = .ok ((), H') ∧
      Adds h H H' := by
  subst ht
  have htl : ¬ h.Leaf (.ref t) := (not_leaf_iff hmap.lt_size).mpr hmap
  obtain ⟨d, rfl, hroom⟩ := room_found hh hr hu hview hk hf hmap (hl.suits htl) hw
  have hat : ∀ q, H.at? (k :: q) (.ref a) = H.at? q (.ref d) := fun q => by
    rw [hr.tidy.at?_cons hh hview hk, hw, Option.bind_some]
  obtain ⟨H₂, hrun₂, hx⟩ := hagain d hroom.ready ((hl.merged htl).congr htl
    (fun l q _ _ => hat (l :: q)) fun l q _ _ => hat (l :: q))
  obtain ⟨cd, esd, hviewd⟩ := isMap_ref.mp hroom.ready.lower
  have hne : esd ≠ [] := by
    obtain ⟨-, l, hlk, hsome⟩ := hl.held htl _ (hat [])
    intro hnil
    have hnone : H.at? [k, l] (.ref a) = none := by
      rw [hat, hr.tidy.at?_cons hh hviewd hlk, hnil]
      rfl
    rw [hnone] at hsome
    cases hsome
  have hsame : ∀ d < H.size, H₂.view (.ref d) = H.view (.ref d) := fun d hd => by
    rw [Heap.view, hx.object d hd, Heap.view]
  have hlay := run_updateUnder hh hr.tidy hview hk hx.tidy
    ((hsame a hr.lower.lt_size).trans hview) hw hrun₂
    ((hsame d hroom.ready.lower.lt_size).trans hviewd)
  rw [if_neg hne] at hlay
  have hvH := hr.tidy.isMap t hmap.lt_size hmap
  exact ⟨H₂, (run_updateEntry_found hh hr.tidy hview hk hvH (by rw [hw]; rfl)).trans hlay, hx⟩

omit hr hu in
/-- Where a map left nothing behind, it leaves nothing in an empty map that comes up. -/
theorem opened_stays_empty {t : Addr} {H₂ : Heap} {cd : Option Subclass}
    {esd : List (Value × Value)} (ht : Tidy h H) (hn : h.Levels n v) (htv : v = .ref t)
    (hmap : h.IsMap (.ref t)) (hw : h.found? k es = none) (ht₁ : Tidy h H₁)
    (ho : Opens H a c' es k H₁) (hup : Updated h H₁ H.size t H₂)
    (hviewd : H₂.view (.ref H.size) = .map cd esd) : esd = [] := by
  subst htv
  have htl : ¬ h.Leaf (.ref t) := (not_leaf_iff hmap.lt_size).mpr hmap
  have hnothing : ∀ q, H.at? (k :: q) (.ref a) = none := fun q => by
    rw [ht.at?_cons hh hview hk, hw]
    rfl
  have hvoid : ∀ l, h.IsKey l → H₂.at? [l] (.ref H.size) = none := fun l hlk => by
    refine hup.merged.void hh hn hmap (fun x q hx => ht₁.at?_empty hh ho.room hx q)
      (fun q w hq hat hwl => ?_) hlk
    rw [← (hl.merged htl).laid q w hq hat hwl]
    exact hnothing q
  have hesd := (hup.tidy.entries H.size cd esd hviewd).1
  rw [List.eq_nil_iff_forall_not_mem]
  intro e hmem
  have hnone := hvoid e.1 (hesd.keys e hmem)
  rw [hup.tidy.at?_cons hh hviewd (hesd.keys e hmem), hesd.found?_mem hmem] at hnone
  cases hnone

/-- Where a map left nothing behind, the empty map that comes up is removed again. -/
theorem exists_updateEntry_again_absent {t : Addr} (hn : h.Levels n v)
    (hf : h.found? k us = some v) (ht : v = .ref t) (hmap : h.IsMap (.ref t))
    (hw : h.found? k es = none) :
    ∃ H', (updateEntry false (updateWithin false n) a k v).run H = .ok ((), H') ∧
      Adds h H H' := by
  subst ht
  have hvH := hr.tidy.isMap t hmap.lt_size hmap
  obtain ⟨H₁, hrun, ho⟩ := run_updateEntry_absent hh hr.tidy hview hk hvH hw
  have hroom := room_absent hh hr hu hview hk hf hmap hw ho
  obtain ⟨H₂, hrun₂, hup⟩ := covers_updateWithin hh hn H₁ H.size hroom.ready hroom.fits
  have hview₂ := hroom.view_kept hr hup
  obtain ⟨cd, esd, hviewd⟩ :=
    isMap_ref.mp (hup.grows.isMap H.size hroom.ready.lower.lt_size hroom.ready.lower)
  have hnil := opened_stays_empty hh hview hk hl hr.tidy hn rfl hmap hw hroom.ready.tidy ho hup
    hviewd
  have hlay := run_updateUnder hh hroom.ready.tidy ho.view hk hup.tidy hview₂ hroom.found hrun₂
    hviewd
  rw [if_pos hnil] at hlay
  obtain ⟨H', hrun', hw'⟩ := hlay
  rw [amend_none_append hw hk.refl] at hw'
  obtain ⟨hes, hvalues⟩ := hr.tidy.entries a c' es hview
  have hgrows₂ := hroom.grows.trans hup.grows
  refine ⟨H', hrun.trans hrun', ⟨hgrows₂.size.trans (Nat.le_of_eq hw'.size.symm), fun e he => ?_⟩,
    hw'.tidy hup.tidy (isMap_ref.mpr ⟨_, _, hview₂⟩) hes fun e he => ?_⟩
  · by_cases hea : e = a
    · subst hea
      exact object_eq_of_view hview hw'.view
    · have hout : e ∉ changed h H (some (.ref t)) (h.found? k es) := by
        rw [hw, changed_none]
        exact Set.notMem_empty e
      rw [hw'.others e hea, hroom.others_kept hup he hea hout]
  · obtain ⟨d, hd, heq⟩ := hvalues e he
    exact ⟨d, hd.trans_le hgrows₂.size, heq⟩

end Again

/-- **Laying a map that was laid changes nothing.** -/
theorem exists_update_again (hh : h.Sound K) (hn : h.Levels n (.ref b)) (hr : Ready h H a b)
    (hm : Merged h (.ref b) (H.at? · (.ref a)) (H.at? · (.ref a))) :
    ∃ H', (updateWithin false n a (.ref b)).run H = .ok ((), H') ∧ Adds h H H' := by
  induction n generalizing b H a with
  | zero => exact absurd hr.upper hn
  | succ n ih =>
    obtain ⟨c, us, hu⟩ := isMap_ref.mp hr.upper
    have hus := hh.indexed hu
    have hstep : ∀ ds e H', ds ++ [e] <+: us → Adds h H H' → ∃ H'',
        (updateEntry false (updateWithin false n) a e.1 e.2).run H' = .ok ((), H'') ∧
          Adds h H H'' := by
      intro ds e H' hds hx
      have hmem : e ∈ us := hds.subset (List.mem_append_right ds (List.mem_singleton_self e))
      have hkey := hus.keys e hmem
      have hf := hus.found?_mem (k := e.1) (v := e.2) hmem
      obtain ⟨hr', hat⟩ := hr.adds hh hx
      obtain ⟨c', es, hview⟩ := isMap_ref.mp hr'.lower
      have hlaid := (hm.laid_under hu (hh.tidy.not_leaf hu) hkey hf).congr
        (fun q hq => (hat _ (isPath_cons.mpr ⟨hkey, hq⟩)).symm)
        fun q hq => (hat _ (isPath_cons.mpr ⟨hkey, hq⟩)).symm
      have hlevels := hn us (mapEntries?_eq_some.mpr ⟨c, hu⟩) e hmem
      obtain ⟨t, ht, hte⟩ := hh.part (entry_parts hu hmem).2
      suffices hlay : ∃ H'', (updateEntry false (updateWithin false n) a e.1 e.2).run H' =
          .ok ((), H'') ∧ Adds h H' H'' by
        obtain ⟨H'', hrun, hx'⟩ := hlay
        exact ⟨H'', hrun, hx.toExtends.trans hx'.toExtends, hx'.tidy⟩
      by_cases hmap : h.IsMap (.ref t)
      · cases hw : h.found? e.1 es with
        | some w =>
          exact exists_updateEntry_again_found hh hr' hu hview hkey hlaid hf hte hmap hw
            fun d hd hmd => hte ▸ ih (hte ▸ hlevels) hd (hte ▸ hmd)
        | none =>
          exact exists_updateEntry_again_absent hh hr' hu hview hkey hlaid hlevels hf hte hmap hw
      · exact exists_updateEntry_again_leaf hh hview hkey hlaid hr'.tidy ⟨t, ht, hte, hte ▸ hmap⟩
    have hentries : ∀ (_ : List (Value × Value)) H', Adds h H H' →
        H'.entries? (H'.view (.ref b)) = some us := by
      intro _ H' hx
      rw [(hr.adds hh hx).1.view_upper hu, entries?_of_map]
    have hstart : Adds h H H := ⟨.refl H, hr.tidy⟩
    obtain ⟨H', hrun, hx⟩ := run_forEntries (I := fun _ => Adds h H) hentries hstep hstart
    exact ⟨H', (run_updateWithin (hentries [] H hstart)).trans hrun, hx⟩

/-! ### The update -/

theorem size_le_pairBound (h : Heap) (v w : Value) : h.size ≤ h.pairBound v w := by
  have := Nat.le_mul_self h.size
  simp only [pairBound]
  omega

theorem update_eq (hrun : (updateWithin false (h.pairBound (.ref a) u) a u).run h = .ok ((), H')) :
    update h false a u = .ok H' := by
  rw [update, hrun]
  rfl

/-- A nested map that can be merged into a map: where it has maps the other has maps or nothing, and
the maps that the other has there stand at no other path, and at none of the upper map. -/
structure Mergeable (h : Heap) (a b : Addr) : Prop where
  lower : h.IsMap (.ref a)
  upper : h.IsMap (.ref b)
  nested : h.Nested (.ref b)
  fits : ∀ q v w, h.IsPath q → h.at? q (.ref b) = some v → h.IsMap v →
    h.at? q (.ref a) = some w → h.IsMap w
  alone : ∀ q v d, h.IsPath q → h.at? q (.ref b) = some v → h.IsMap v →
    h.at? q (.ref a) = some (.ref d) → ∀ r, h.IsPath r →
      (h.at? r (.ref a) = some (.ref d) → h.SamePath q r) ∧ h.at? r (.ref b) ≠ some (.ref d)

theorem not_leaf_at? (hh : h.Sound K) (ha : h.IsMap (.ref a)) (hq : h.IsPath q)
    (hv : h.at? q (.ref a) = some v) : ¬ h.Leaf v ↔ h.IsMap v := by
  obtain ⟨e, he, rfl⟩ := hh.tidy.at?_ref hh ha.lt_size hq hv
  exact not_leaf_iff he

theorem Mergeable.ready (hh : h.Sound K) (hm : Mergeable h a b) : Ready h h a b := by
  refine ⟨hh.tidy, hm.upper, hm.lower, fun q r d hq hr hl _ hqd hrd => ?_, ?_, fun _ _ => rfl⟩
  · obtain ⟨v, hv, hvl⟩ := hl
    exact (hm.alone q v d hq hv ((not_leaf_at? hh hm.upper hq hv).mp hvl) hqd r hr).1 hrd
  · intro d hd hdb
    obtain ⟨-, q, hq, ⟨v, hv, hvl⟩, hqd⟩ := hd
    obtain ⟨-, r, hr, hrd⟩ := hdb
    exact (hm.alone q v d hq hv ((not_leaf_at? hh hm.upper hq hv).mp hvl) hqd r hr).2 hrd

theorem Mergeable.fit (hh : h.Sound K) (hm : Mergeable h a b) :
    Fits h (.ref b) (h.at? · (.ref a)) := fun q v w hq _ hv hl hw =>
  (not_leaf_at? hh hm.lower hq hw).mpr
    (hm.fits q v w hq hv ((not_leaf_at? hh hm.upper hq hv).mp hl) hw)

theorem exists_update (hh : h.Sound K) (hm : Mergeable h a b) :
    ∃ h', update h false a (.ref b) = .ok h' ∧ Updated h h a b h' := by
  have hn := hm.nested.levels.mono (size_le_pairBound h (.ref a) (.ref b))
  obtain ⟨h', hrun, hup⟩ := covers_updateWithin hh hn h a (hm.ready hh) (hm.fit hh)
  exact ⟨h', update_eq hrun, hup⟩

/-- **A nested map is merged into a map.** The update succeeds, and afterwards, at every path of
keys,

- a value of the upper map that is no map stands in the other, or nothing where it is nothing;
- where the upper map holds nothing, and not because a value that is no map ends there, all is as it
  was;
- where the upper map has a map below its top, there is no empty map.

Nothing has changed but the maps that stood where the upper map has maps, and the same update
changes nothing when it is made again. -/
theorem update_merges (hh : h.Sound K) (hm : Mergeable h a b) :
    ∃ h', update h false a (.ref b) = .ok h' ∧
      (∀ q v, h.IsPath q → h.at? q (.ref b) = some v → ¬ h.IsMap v →
        h'.at? q (.ref a) = kept? h v) ∧
      (∀ q, h.IsPath q → h.at? q (.ref b) = none →
        (∀ p v, p <+: q → h.at? p (.ref b) = some v → h.IsMap v) →
          h'.at? q (.ref a) = h.at? q (.ref a)) ∧
      (∀ q v w, h.IsPath q → q ≠ [] → h.at? q (.ref b) = some v → h.IsMap v →
        h'.at? q (.ref a) = some w → h'.mapEntries? w ≠ some []) ∧
      (∀ d < h.size, (∀ q v, h.IsPath q → h.at? q (.ref b) = some v → h.IsMap v →
        h.at? q (.ref a) ≠ some (.ref d)) → h'.object d = h.object d) ∧
      ∃ h'', update h' false a (.ref b) = .ok h'' ∧ Extends h' h'' := by
  obtain ⟨h', hrun, hup⟩ := exists_update hh hm
  have hmerged := hup.merged
  have hleaf : ∀ {q v}, h.IsPath q → h.at? q (.ref b) = some v → (¬ h.Leaf v ↔ h.IsMap v) :=
    fun hq hv => not_leaf_at? hh hm.upper hq hv
  refine ⟨h', hrun, fun q v hq hv hno => ?_, fun q hq hnone hp => ?_,
    fun q v w hq hne hv hmap hw hnil => ?_, fun d hd hout => ?_, ?_⟩
  · exact hmerged.laid q v hq hv (not_not.mp ((hleaf hq hv).not.mpr hno))
  · refine hmerged.other q hq hnone fun p v hpq hv => ?_
    have hpath : h.IsPath p := fun k hk => hq k (hpq.subset hk)
    exact (hleaf hpath hv).mpr (hp p v hpq hv)
  · obtain ⟨k, hk, hsome⟩ := hmerged.pruned q v w hq hne hv ((hleaf hq hv).mpr hmap) hw
    have hnone : h'.at? (q ++ [k]) (.ref a) = none := by
      rw [at?_append, hw, Option.bind_some, Heap.at?, Heap.under?, hnil]
      rfl
    rw [hnone] at hsome
    cases hsome
  · refine hup.others d hd fun hin => ?_
    obtain ⟨-, q, hq, ⟨v, hv, hvl⟩, hqd⟩ := hin
    exact hout q v hq hv ((hleaf hq hv).mp hvl) hqd
  · have hn := hm.nested.levels.mono
      (hup.grows.size.trans (size_le_pairBound h' (.ref a) (.ref b)))
    obtain ⟨h'', hrun', hx⟩ := exists_update_again hh hn ((hm.ready hh).changes hh hup.toChanges)
      ⟨hmerged.laid, fun _ _ _ _ => rfl, hmerged.fits, hmerged.pruned⟩
    exact ⟨h'', update_eq hrun', hx.toExtends⟩

/-- Settings with one map under two keys, a map to lay over them, and settings with the same map
under one key. -/
def drafts : Heap :=
  ⟨#[.text none "diff", .text none "show", .text none "depth", .int none 1, .int none 2,
    .map none [(3, 4)], .map none [(1, 6), (2, 6)], .map none [(3, 5)], .map none [(1, 8)],
    .map none [(1, 6)]]⟩

theorem sound_drafts : drafts.Sound fun _ => .basic "dict" := by
  have hkeys : ∀ a < drafts.size, ∀ es ∈ drafts.entries? (drafts.view (.ref a)),
      es.Pairwise fun d e => (drafts.matching d.1 e.1).toOption ≠ some true := by decide +kernel
  have hitems : ∀ a < drafts.size, (drafts.view (.ref a)).setItems? = none := by decide +kernel
  refine ⟨by decide +kernel, fun a _ => lawful_ref (fun a ha => ?_) (fun a ha es hes => ?_)
    (fun a ha xs hxs => ?_) a⟩
  · have hsize : a < 11 := ha
    interval_cases a <;> exact ⟨by trivial, trivial, nofun⟩
  · exact (hkeys a ha es hes).imp fun hne hm => hne (by rw [hm]; rfl)
  · cases (hitems a ha).symm.trans hxs

/-- The paths of a map with one key that holds a map with one key. -/
theorem at?_chain {d : Addr} {c' : Option Subclass} (ha : h.view (.ref a) = .map c [(k, .ref b)])
    (hb : h.view (.ref b) = .map c' [(x, .ref d)]) (hd : ¬ h.IsMap (.ref d))
    (hw : h.at? q (.ref a) = some w) :
    (q = [] ∧ w = .ref a) ∨ (∃ l, h.agrees k l = true ∧ q = [l] ∧ w = .ref b) ∨
      ∃ l m, q = [l, m] ∧ w = .ref d := by
  have hstep : ∀ {a b k c l r}, h.view (.ref a) = .map c [(k, .ref b)] →
      h.at? (l :: r) (.ref a) = some w → h.agrees k l = true ∧ h.at? r (.ref b) = some w := by
    intro a b k c l r hv hw
    rw [at?_cons hv, found?_cons, found?_nil] at hw
    split at hw
    · exact ⟨‹_›, hw⟩
    · cases hw
  cases q with
  | nil => exact .inl ⟨rfl, (Option.some.inj hw).symm⟩
  | cons l q =>
    obtain ⟨hl, hw⟩ := hstep ha hw
    cases q with
    | nil => exact .inr (.inl ⟨l, hl, rfl, (Option.some.inj hw).symm⟩)
    | cons m q =>
      obtain ⟨-, hw⟩ := hstep hb hw
      cases q with
      | nil => exact .inr (.inr ⟨l, m, rfl, (Option.some.inj hw).symm⟩)
      | cons o q =>
        rw [at?, under?, Option.not_isSome_iff_eq_none.mp hd] at hw
        cases hw

theorem nested_drafts : drafts.Nested (.ref 9) := by
  refine ⟨2, fun es hes e he => ?_⟩
  cases hes
  obtain rfl := List.mem_singleton.mp he
  intro es hes e he
  cases hes
  obtain rfl := List.mem_singleton.mp he
  exact nofun

theorem isKey_drafts {d : Addr} (hd : d = 1 ∨ d = 3) : drafts.IsKey (.ref d) := by
  rcases hd with rfl | rfl <;> exact ⟨by decide +kernel, _, by decide, rfl⟩

theorem mergeable_drafts : Mergeable drafts 10 9 := by
  have hupper : ∀ {q v}, drafts.at? q (.ref 9) = some v → (q = [] ∧ v = .ref 9) ∨
      (∃ l, drafts.agrees (.ref 1) l = true ∧ q = [l] ∧ v = .ref 8) ∨
        ∃ l m, q = [l, m] ∧ v = .ref 5 := fun hv => at?_chain rfl rfl nofun hv
  have hlower : ∀ {q v}, drafts.at? q (.ref 10) = some v → (q = [] ∧ v = .ref 10) ∨
      (∃ l, drafts.agrees (.ref 1) l = true ∧ q = [l] ∧ v = .ref 6) ∨
        ∃ l m, q = [l, m] ∧ v = .ref 4 := fun hv => at?_chain rfl rfl nofun hv
  have hnomap : ∀ {l m v}, drafts.at? [l, m] (.ref 9) = some v → ¬ drafts.IsMap v := by
    intro l m v hv hmap
    rcases hupper hv with ⟨hq, -⟩ | ⟨_, -, hq, -⟩ | ⟨_, _, -, rfl⟩
    · cases hq
    · cases hq
    · cases hmap
  refine ⟨rfl, rfl, nested_drafts, fun q v w _ hv hmap hw => ?_,
    fun q v d hq hv hmap hd r hr => ⟨fun hdr => ?_, fun hdr => ?_⟩⟩
  · rcases hlower hw with ⟨rfl, rfl⟩ | ⟨l, -, rfl, rfl⟩ | ⟨l, m, rfl, rfl⟩
    · rfl
    · rfl
    · exact absurd hmap (hnomap hv)
  · rcases hlower hd with ⟨rfl, he⟩ | ⟨l, hl, rfl, he⟩ | ⟨l, m, rfl, he⟩ <;> cases he <;>
      rcases hlower hdr with ⟨rfl, he⟩ | ⟨l', hl', rfl, he⟩ | ⟨l', m', rfl, he⟩ <;> cases he
    · exact .nil
    · have hone := isKey_drafts (.inl rfl)
      have hback := hone.symm sound_drafts (isPath_cons.mp hq).1 hl
      exact .cons
        ((isPath_cons.mp hq).1.trans sound_drafts hone (isPath_cons.mp hr).1 hback hl') .nil
    · exact absurd hmap (hnomap hv)
  · rcases hlower hd with ⟨-, he⟩ | ⟨_, -, -, he⟩ | ⟨_, _, -, he⟩ <;> cases he <;>
      rcases hupper hdr with ⟨-, he⟩ | ⟨_, -, -, he⟩ | ⟨_, _, -, he⟩ <;> cases he

theorem update_merges_drafts : ∃ h', update drafts false 10 (.ref 9) = .ok h' ∧
    h'.at? [.ref 1, .ref 3] (.ref 10) = some (.ref 5) ∧
    ∃ h'', update h' false 10 (.ref 9) = .ok h'' ∧ Extends h' h'' := by
  obtain ⟨h', hrun, hlaid, -, -, -, hagain⟩ := update_merges sound_drafts mergeable_drafts
  have hpath : drafts.IsPath [.ref 1, .ref 3] :=
    isPath_cons.mpr ⟨isKey_drafts (.inl rfl), isPath_cons.mpr ⟨isKey_drafts (.inr rfl), isPath_nil⟩⟩
  exact ⟨h', hrun, hlaid _ (.ref 5) hpath rfl nofun, hagain⟩

/-- A map that stands under two keys is merged with what is laid under one of them, so that it
changes under the other, where the upper map says nothing. -/
theorem update_shared_drafts :
    drafts.IsMap (.ref 7) ∧ drafts.IsMap (.ref 9) ∧
    drafts.Nested (.ref 7) ∧ drafts.Nested (.ref 9) ∧
    (∀ q v w, drafts.at? q (.ref 9) = some v → drafts.IsMap v → drafts.at? q (.ref 7) = some w →
      drafts.IsMap w) ∧
    (∀ p v, p <+: [.ref 2, .ref 3] → drafts.at? p (.ref 9) = some v → drafts.IsMap v) ∧
    drafts.at? [.ref 2, .ref 3] (.ref 9) = none ∧
    drafts.at? [.ref 2, .ref 3] (.ref 7) = some (.ref 4) ∧
    ∃ h', update drafts false 7 (.ref 9) = .ok h' ∧
      h'.at? [.ref 2, .ref 3] (.ref 7) = some (.ref 5) := by
  refine ⟨rfl, rfl, ⟨2, fun es hes e he => ?_⟩, nested_drafts, fun q v w hv hmap hw => ?_,
    fun p v hp hv => ?_, rfl, rfl, _, rfl, rfl⟩
  · cases hes
    rcases List.mem_pair.mp he with rfl | rfl
    all_goals
      intro es hes e he
      cases hes
      obtain rfl := List.mem_singleton.mp he
      exact nofun
  · rcases at?_chain (h := drafts) (d := 5) rfl rfl nofun hv with ⟨rfl, rfl⟩ | ⟨l, hl, rfl, rfl⟩ |
      ⟨l, m, rfl, rfl⟩
    · cases hw
      rfl
    · have hview : drafts.view (.ref 7) = .map none [(.ref 1, .ref 6), (.ref 2, .ref 6)] := rfl
      rw [at?_cons hview, found?_cons, if_pos hl] at hw
      cases hw
      rfl
    · cases hmap
  · have hp : p ∈ [[], [.ref 2], [.ref 2, .ref 3]] := (List.mem_inits _ _).mpr hp
    rcases hp with _ | ⟨_, _ | ⟨_, _ | ⟨_, hp⟩⟩⟩
    · cases hv
      rfl
    · cases hv
    · cases hv
    · cases hp

end DocDelta.Settings
