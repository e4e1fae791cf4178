import DocDelta.Proofs.Settings.DeepMerge

/-! Laying a map over an object of the heap comes to the same as laying it over a value.

Both do what `Merged` says, and that is all there is to read of the result: which values that are no
maps stand where, and where there are maps (`Merged.readsAlike`). Maps that are laid over values are
made anew, so they are merged even where a map stands at several paths (`exists_lay`). -/
namespace DocDelta.Settings
open Heap
variable {h H : Heap} {K : ClassTable} {cover : Value → Value → Except Fault Value} {a b : Addr}
  {k x t t' m v w u : Value} {w? : Option Value} {es us : List (Value × Value)}
  {c : Option Subclass} {p q : List Value} {n : Nat} {A B B' : List Value → Option Value}

/-! ### Values with maps in place -/

/-- A value in which there are, at all paths, leaves and maps with keys that are told apart. -/
def Neat (h : Heap) (t : Value) : Prop :=
  ∀ q w, h.IsPath q → h.at? q t = some w → ¬ h.Leaf w → ∃ c es, h.view w = .map c es ∧ h.Indexed es

theorem Neat.map (hn : Neat h t) (hl : ¬ h.Leaf t) : ∃ c es, h.view t = .map c es ∧ h.Indexed es :=
  hn [] t isPath_nil rfl hl

theorem neat_empty : Neat h (.map []) := by
  intro q w _ hw _
  cases q with
  | nil =>
    cases hw
    exact ⟨none, [], rfl, indexed_nil⟩
  | cons k q =>
    rw [at?_cons rfl] at hw
    cases hw

theorem not_leaf_inline (o : Object Value) : ¬ h.Leaf (.inline o) := nofun

theorem neat_ref (hh : h.Sound K) (ha : a < h.size) : Neat h (.ref a) := by
  intro q w hq hw hl
  obtain ⟨d, hd, rfl⟩ := hh.tidy.at?_ref hh ha hq hw
  obtain ⟨c, es, hview⟩ := isMap_ref.mp ((not_leaf_iff hd).mp hl)
  exact ⟨c, es, hview, hh.indexed hview⟩

theorem Neat.coherent (hn : Neat h t) (hl : ¬ h.Leaf t) (hh : h.Sound K) :
    Coherent h (h.at? · t) := by
  obtain ⟨c, es, hview, hes⟩ := hn.map hl
  intro k x q hk hx hkx
  show h.at? (k :: q) t = h.at? (x :: q) t
  rw [at?_cons hview, at?_cons hview, found?_congr hh hes.keys hk hx hkx]

section Amend
variable (hview : h.view t = .map c es) (hk : h.IsKey k)
include hview hk

theorem Neat.below (hn : Neat h t) (hf : h.found? k es = some w) : Neat h w := by
  intro q v hq hv hl
  refine hn (k :: q) v (isPath_cons.mpr ⟨hk, hq⟩) ?_ hl
  rw [at?_cons hview, hf, Option.bind_some, hv]

variable (hh : h.Sound K) (hes : h.Indexed es)
include hh hes

/-- What amending a map under a key changes. -/
theorem at?_amend (hx : h.IsKey x) (w : Option Value) (q : List Value) :
    h.at? (x :: q) (.inline (.map c (h.amend k w es))) =
      if h.agrees k x then w.bind (h.at? q) else h.at? (x :: q) t := by
  rw [at?_cons rfl, found?_amend hh hes hk hx, at?_cons hview]
  split <;> rfl

theorem Neat.amend (hn : Neat h t) (hw : ∀ v, w? = some v → Neat h v) :
    Neat h (.inline (.map c (h.amend k w? es))) := by
  intro q v hq hv hl
  cases q with
  | nil =>
    cases hv
    exact ⟨c, _, rfl, hes.amend hk w?⟩
  | cons x q =>
    obtain ⟨hx, hq'⟩ := isPath_cons.mp hq
    rw [at?_amend hview hk hh hes hx] at hv
    split at hv
    · obtain ⟨y, hy, hv⟩ := Option.bind_eq_some_iff.mp hv
      exact hw y hy q v hq' hv hl
    · exact hn _ v hq hv hl

end Amend

/-! ### Laying an entry -/

/-- What laying an entry over a value leaves. -/
structure EntryLaid (h : Heap) (t k v t' : Value) : Prop where
  neat : Neat h t'
  map : ¬ h.Leaf t'
  laid : Laid h v (fun q => h.at? (k :: q) t) fun q => h.at? (k :: q) t'
  elsewhere : ∀ x q, h.IsKey x → h.agrees k x = false → h.IsPath q →
    h.at? (x :: q) t' = h.at? (x :: q) t

/-- What laying a map over a value leaves. -/
structure Covered (h : Heap) (u t t' : Value) : Prop where
  neat : Neat h t'
  map : ¬ h.Leaf t'
  merged : Merged h u (h.at? · t) (h.at? · t')

section Entry
variable (hh : h.Sound K) (hview : h.view t = .map c es) (hes : h.Indexed es) (hk : h.IsKey k)
include hh hview hes hk

theorem layEntry_leaf (hv : h.Leaf v) : layEntry h false cover t k v =
    .ok (.inline (.map c (h.amend k (kept? h v) es))) := by
  have hmap : ¬ (h.mapEntries? v).isSome = true := by
    obtain ⟨_, -, rfl, hno⟩ := hv
    exact hno
  rw [layEntry, if_neg hmap]
  by_cases hn : (h.view v).isNil = true
  · rw [if_pos (by simpa using hn), discard_map hh (.refl h) hview hes hk, kept?, if_pos hn]
  · rw [if_neg (by simpa using hn), assign_map hh (.refl h) hview hes hk, kept?, if_neg hn]

/-- What a map is laid over is what stands under its key, or an empty map. -/
theorem below_map : below h t k = .ok (t, (h.found? k es).getD (.map [])) := by
  rw [below, hview]
  exact bind_eq_ok.mpr ⟨_, (Revises.refl h).find? hh hes.keys hk, rfl⟩

/-- A map that was laid stays under its key, unless it ended up empty. -/
theorem layEntry_map (hv : h.IsMap v) (hcover : cover ((h.found? k es).getD (.map [])) v = .ok m) :
    layEntry h false cover t k v =
      .ok (.inline (.map c (h.amend k (if h.truthy m then some m else none) es))) := by
  rw [layEntry, if_pos (show (h.mapEntries? v).isSome = true from hv)]
  refine bind_eq_ok.mpr ⟨_, below_map hh hview hes hk, bind_eq_ok.mpr ⟨_, hcover, ?_⟩⟩
  cases h.truthy m with
  | true => exact assign_map hh (.refl h) hview hes hk m
  | false => exact remove_map hh (.refl h) hview hes hk

/-- What amending a map leaves. -/
theorem entryLaid_amend (hn : Neat h t) (hw : ∀ v, w? = some v → Neat h v)
    (hl : Laid h v (fun q => h.at? (k :: q) t) fun q => w?.bind (h.at? q)) :
    EntryLaid h t k v (.inline (.map c (h.amend k w? es))) where
  neat := hn.amend hview hk hh hes hw
  map := not_leaf_inline _
  laid := hl.congr (fun _ _ => rfl) fun q _ => by rw [at?_amend hview hk hh hes hk, if_pos hk.refl]
  elsewhere x q hx hkx _ := by rw [at?_amend hview hk hh hes hx, if_neg (by simp [hkx])]

theorem exists_layEntry_leaf (hn : Neat h t) (hv : h.Leaf v) :
    ∃ t', layEntry h false cover t k v = .ok t' ∧ EntryLaid h t k v t' := by
  refine ⟨_, layEntry_leaf hh hview hes hk hv, entryLaid_amend hh hview hes hk hn (fun w hw => ?_)
    ⟨fun _ => by cases kept? h v <;> rfl, fun hno => absurd hv hno, fun hno => absurd hv hno⟩⟩
  obtain rfl := eq_of_kept? hw
  obtain ⟨d, hd, rfl, -⟩ := hv
  exact neat_ref hh hd

theorem exists_layEntry_map (hn : Neat h t) (hv : h.IsMap (.ref b))
    (hsuits : Suits h (.ref b) fun q => h.at? (k :: q) t)
    (hcover : ∀ l, Neat h l → ¬ h.Leaf l → Fits h (.ref b) (h.at? · l) →
      ∃ m, cover l (.ref b) = .ok m ∧ Covered h (.ref b) l m) :
    ∃ t', layEntry h false cover t k (.ref b) = .ok t' ∧ EntryLaid h t k (.ref b) t' := by
  have hbl : ¬ h.Leaf (.ref b) := (not_leaf_iff hv.lt_size).mpr hv
  have hat : ∀ q, h.at? (k :: q) t = (h.found? k es).bind (h.at? q) := at?_cons hview k
  obtain ⟨l, hl⟩ : ∃ l, (h.found? k es).getD (.map []) = l := ⟨_, rfl⟩
  have hreads : ∀ x q, h.at? (k :: x :: q) t = h.at? (x :: q) l := by
    intro x q
    rw [hat, ← hl]
    cases h.found? k es with
    | some w => rfl
    | none => rw [Option.getD_none, at?_cons rfl]; rfl
  have hlower : Neat h l ∧ ¬ h.Leaf l := by
    cases hf : h.found? k es with
    | none => exact hl ▸ hf ▸ ⟨neat_empty, not_leaf_inline _⟩
    | some w =>
      rw [hf, Option.getD_some] at hl
      subst hl
      exact ⟨hn.below hview hk hf, hsuits [] _ w isPath_nil rfl hbl ((hat []).trans (by rw [hf]; rfl))⟩
  obtain ⟨m, hm, hcov⟩ := hcover l hlower.1 hlower.2 fun q v w hq hne hv hvl hw => by
    cases q with
    | nil => exact absurd rfl hne
    | cons x q => exact hsuits _ v w hq hv hvl ((hreads x q).trans hw)
  obtain ⟨cm, ems, hviewm, hems⟩ := hcov.neat.map hcov.map
  refine ⟨_, layEntry_map hh hview hes hk hv (hl ▸ hm), entryLaid_amend hh hview hes hk hn
    (fun w hw => ?_) ⟨fun hno => absurd hno hbl, fun _ => ?_, fun _ w hw => ?_⟩⟩
  · split at hw <;> cases hw
    exact hcov.neat
  · refine hcov.merged.congr hbl (fun x q _ _ => (hreads x q).symm) fun x q _ _ => ?_
    show h.at? (x :: q) m = _
    rw [truthy_map hviewm]
    cases ems with
    | nil => rw [at?_cons hviewm]; rfl
    | cons e ems => rfl
  · rw [truthy_map hviewm] at hw ⊢
    cases ems with
    | nil => cases hw
    | cons e ems =>
      cases hw
      have hmem : (e.1, e.2) ∈ e :: ems := List.mem_cons_self ..
      refine ⟨hcov.map, e.1, hems.keys e hmem, ?_⟩
      show (h.at? [e.1] m).isSome = true
      rw [at?_cons hviewm, hems.found?_mem hmem]
      rfl

end Entry

/-! ### Laying a map -/

/-- What every item of a list preserves, going through it does. -/
theorem exists_foldlM {α β : Type} {I : List α → β → Prop} {f : β → α → Except Fault β}
    {xs : List α} {y : β}
    (hstep : ∀ ds x y, ds ++ [x] <+: xs → I ds y → ∃ y', f y x = .ok y' ∧ I (ds ++ [x]) y')
    (hI : I [] y) : ∃ y', xs.foldlM f y = .ok y' ∧ I xs y' := by
  induction xs using List.reverseRecOn with
  | nil => exact ⟨y, rfl, hI⟩
  | append_singleton xs x ih =>
    obtain ⟨y₁, hrun, hI₁⟩ := ih fun ds x' y hds =>
      hstep ds x' y (hds.trans (List.prefix_append xs [x]))
    obtain ⟨y₂, hlast, hI₂⟩ := hstep xs x y₁ List.prefix_rfl hI₁
    refine ⟨y₂, ?_, hI₂⟩
    rw [List.foldlM_append]
    refine bind_eq_ok.mpr ⟨y₁, hrun, ?_⟩
    rw [List.foldlM_cons]
    exact bind_eq_ok.mpr ⟨y₂, hlast, rfl⟩

/-- A value over which a map has been laid as far as the entries `ds`. -/
structure Half (h : Heap) (t : Value) (ds : List (Value × Value)) (t' : Value) : Prop where
  neat : Neat h t'
  map : ¬ h.Leaf t'
  partly : Partly h ds (h.at? · t) (h.at? · t')

/-- **A map is merged into every value that it fits.** -/
theorem exists_layWithin (hh : h.Sound K) (hn : h.Levels n (.ref b)) (hb : h.IsMap (.ref b))
    (ht : Neat h t) (hl : ¬ h.Leaf t) (hfits : Fits h (.ref b) (h.at? · t)) :
    ∃ t', layWithin h false n t (.ref b) = .ok t' ∧ Covered h (.ref b) t t' := by
  induction n generalizing b t with
  | zero => exact absurd hb hn
  | succ n ih =>
    obtain ⟨c, us, hu⟩ := isMap_ref.mp hb
    have hus := hh.indexed hu
    have hstep : ∀ ds e y, ds ++ [e] <+: us → Half h t ds y → ∃ y',
        layEntry h false (layWithin h false n) y e.1 e.2 = .ok y' ∧ Half h t (ds ++ [e]) y' := by
      intro ds e y hds hy
      have hmem : e ∈ us := hds.subset (List.mem_append_right ds (List.mem_singleton_self e))
      have hkey := hus.keys e hmem
      have hindexed := hus.sublist hds.sublist
      obtain ⟨c', es, hview, hes⟩ := hy.neat.map hy.map
      obtain ⟨d, hd, hde⟩ := hh.part (entry_parts hu hmem).2
      suffices hlay : ∃ y', layEntry h false (layWithin h false n) y e.1 e.2 = .ok y' ∧
          EntryLaid h y e.1 e.2 y' by
        obtain ⟨y', hrun, he⟩ := hlay
        exact ⟨y', hrun, he.neat, he.map, hy.partly.step hh (ht.coherent hl hh)
          (he.neat.coherent he.map hh) hindexed he.laid he.elsewhere⟩
      by_cases hmap : h.IsMap (.ref d)
      · have hlevels := hn us (mapEntries?_eq_some.mpr ⟨c, hu⟩) e hmem
        rw [hde] at hlevels ⊢
        have hsuits := (hfits.suits hu hkey (hde ▸ hus.found?_mem hmem)).congr fun q hq =>
          (hy.partly.ahead e.1 hkey hindexed.found?_fresh q hq).symm
        exact exists_layEntry_map hh hview hes hkey hy.neat hmap hsuits
          fun l hln hll hlf => ih hlevels hmap hln hll hlf
      · exact exists_layEntry_leaf hh hview hes hkey hy.neat ⟨d, hd, hde, hde ▸ hmap⟩
    obtain ⟨t', hrun, ht'⟩ := exists_foldlM hstep ⟨ht, hl, partly_nil⟩
    refine ⟨t', ?_, ht'.neat, ht'.map, ht'.partly.merged hu (hh.tidy.not_leaf hu)⟩
    rw [layWithin, hu, entries?_of_map]
    exact hrun

theorem size_le_layerBound (h : Heap) (v : Value) : h.size ≤ h.layerBound v := by
  simp only [layerBound]
  omega

/-- **A nested map is merged into a map**, whatever the two have in common, when it is laid over it
as a value. -/
theorem exists_lay (hh : h.Sound K) (ha : h.IsMap (.ref a)) (hb : h.IsMap (.ref b))
    (hn : h.Nested (.ref b)) (hfits : Fits h (.ref b) (h.at? · (.ref a))) :
    ∃ t, lay h false (.ref a) (.ref b) = .ok t ∧ Covered h (.ref b) (.ref a) t :=
  exists_layWithin hh (hn.levels.mono (size_le_layerBound h (.ref b))) hb (neat_ref hh ha.lt_size)
    ((not_leaf_iff ha.lt_size).mpr ha) hfits

/-! ### The same merge -/

/-- There is nothing below leaves, and nothing below nothing. -/
def Grounded (h : Heap) (B : List Value → Option Value) : Prop :=
  ∀ p k q, (B (p ++ k :: q)).isSome = true → ∃ w, B p = some w ∧ ¬ h.Leaf w

theorem grounded_at? (ht : Tidy h H) (v : Value) : Grounded h (H.at? · v) := by
  intro p k q hs
  dsimp only at hs
  rw [at?_append] at hs
  obtain ⟨y, hy⟩ := Option.isSome_iff_exists.mp hs
  obtain ⟨w, hw, hwy⟩ := Option.bind_eq_some_iff.mp hy
  refine ⟨w, hw, fun hl => ?_⟩
  cases (ht.at?_leaf hl k q).symm.trans hwy

/-- Two readings that show the same leaf, or both a map, or both nothing. -/
structure ReadsAlike (h : Heap) (y y' : Option Value) : Prop where
  isSome : y.isSome = y'.isSome
  leaf : ∀ v, h.Leaf v → (y = some v ↔ y' = some v)

section Alike
variable (hm : Merged h u A B) (hm' : Merged h u A B')
include hm

/-- Nothing is left below a leaf of the upper map. -/
theorem Merged.below_leaf (hB : Grounded h B) (hp : h.IsPath p) (hv : h.at? p u = some v)
    (hl : h.Leaf v) (k : Value) (q : List Value) : B (p ++ k :: q) = none := by
  rw [← Option.not_isSome_iff_eq_none]
  intro hs
  obtain ⟨w, hw, hwl⟩ := hB p k q hs
  rw [hm.laid p v hp hv hl] at hw
  exact hwl (eq_of_kept? hw ▸ hl)

include hm'

/-- What was laid over the same map reads the same where the upper map has no map. -/
theorem Merged.eq_of_not_map (hB : Grounded h B) (hB' : Grounded h B') (hq : h.IsPath q)
    (hno : ∀ v, h.at? q u = some v → h.Leaf v) : B q = B' q := by
  cases hv : h.at? q u with
  | some v => rw [hm.laid q v hq hv (hno v hv), hm'.laid q v hq hv (hno v hv)]
  | none =>
    by_cases habove : ∀ p v, p <+: q → h.at? p u = some v → ¬ h.Leaf v
    · rw [hm.other q hq hv habove, hm'.other q hq hv habove]
    · push Not at habove
      obtain ⟨p, v, ⟨r, rfl⟩, hpv, hl⟩ := habove
      have hp : h.IsPath p := fun k hk => hq k (List.mem_append_left r hk)
      cases r with
      | nil =>
        rw [List.append_nil, hpv] at hv
        cases hv
      | cons k r => rw [hm.below_leaf hB hp hpv hl, hm'.below_leaf hB' hp hpv hl]

/-- Where the upper map has a map and one of two results has one, so has the other: it has an entry,
or a map in which there is one. -/
theorem Merged.isSome_of (hB : Grounded h B) (hB' : Grounded h B') (hq : h.IsPath q) (hne : q ≠ [])
    (hv : h.at? q u = some v) (hn : h.Levels n v) (hs : (B q).isSome = true) :
    (B' q).isSome = true := by
  induction n using Nat.strong_induction_on generalizing q v with
  | _ n ih =>
    by_cases hl : h.Leaf v
    · rwa [← hm.eq_of_not_map hm' hB hB' hq fun w hw => Option.some.inj (hv.symm.trans hw) ▸ hl]
    · obtain ⟨w, hw⟩ := Option.isSome_iff_exists.mp hs
      obtain ⟨k, hk, hsome⟩ := hm.pruned q v w hq hne hv hl hw
      have hqk : h.IsPath (q ++ [k]) := isPath_concat.mpr ⟨hq, hk⟩
      suffices hbelow : (B' (q ++ [k])).isSome = true by
        obtain ⟨w', hw', -⟩ := hB' q k [] hbelow
        rw [hw']
        rfl
      cases hvk : h.at? (q ++ [k]) u with
      | none =>
        rwa [← hm.eq_of_not_map hm' hB hB' hqk fun x hx => by cases hvk.symm.trans hx]
      | some x =>
        have hunder : h.under? v k = some x := by
          rw [at?_append, hv, Option.bind_some, at?] at hvk
          obtain ⟨y, hy, hyx⟩ := Option.bind_eq_some_iff.mp hvk
          cases hyx
          exact hy
        obtain ⟨i, rfl, hi⟩ := hn.under hunder
        exact ih i (Nat.lt_succ_self i) hqk (by simp) hvk hi hsome

/-- **What was laid over the same map reads the same.** -/
theorem Merged.readsAlike (hB : Grounded h B) (hB' : Grounded h B') (hn : h.Nested u)
    (hq : h.IsPath q) (hne : q ≠ []) : ReadsAlike h (B q) (B' q) := by
  by_cases hno : ∀ v, h.at? q u = some v → h.Leaf v
  · rw [hm.eq_of_not_map hm' hB hB' hq hno]
    exact ⟨rfl, fun _ _ => Iff.rfl⟩
  · push Not at hno
    obtain ⟨v, hv, hl⟩ := hno
    obtain ⟨n, hn⟩ := hn.at? hv
    have hleafless : ∀ {C : List Value → Option Value}, Merged h u A C → ∀ w, h.Leaf w →
        C q ≠ some w := fun hm w hw hC => hm.fits q v w hq hne hv hl hC hw
    refine ⟨Bool.eq_iff_iff.mpr ⟨hm.isSome_of hm' hB hB' hq hne hv hn,
      hm'.isSome_of hm hB' hB hq hne hv hn⟩, fun w hw => ?_⟩
    exact ⟨fun hy => absurd hy (hleafless hm w hw), fun hy => absurd hy (hleafless hm' w hw)⟩

end Alike

/-- **Merging in place is merging values.** Where a nested map can be merged into a map of the heap,
what this leaves reads, at every path of keys, as what laying one over the other as values gives. -/
theorem update_reads_as_lay (hh : h.Sound K) (hm : Mergeable h a b) :
    ∃ h' t, update h false a (.ref b) = .ok h' ∧ lay h false (.ref a) (.ref b) = .ok t ∧
      ∀ q, h.IsPath q → ReadsAlike h (h'.at? q (.ref a)) (h.at? q t) := by
  obtain ⟨h', hrun, hup⟩ := exists_update hh hm
  obtain ⟨t, hlay, hcov⟩ := exists_lay hh hm.lower hm.upper hm.nested (hm.fit hh)
  refine ⟨h', t, hrun, hlay, fun q hq => ?_⟩
  cases q with
  | nil =>
    have ha : ¬ h.Leaf (.ref a) := (not_leaf_iff hm.lower.lt_size).mpr hm.lower
    refine ⟨rfl, fun v hv => ⟨fun he => absurd hv ?_, fun he => absurd hv ?_⟩⟩
    · exact Option.some.inj he ▸ ha
    · exact Option.some.inj he ▸ hcov.map
  | cons k q =>
    exact hup.merged.readsAlike hcov.merged (grounded_at? hup.tidy _) (grounded_at? hh.tidy _)
      hm.nested hq (List.cons_ne_nil _ _)

end DocDelta.Settings
