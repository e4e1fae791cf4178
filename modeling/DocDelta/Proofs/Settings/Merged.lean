import DocDelta.Proofs.Settings.Updating

/-! What a map reads as after another was laid over it.

`Merged` says it path by path, and is put together from what each entry leaves under its key
(`Partly.merged`). An entry changes nothing that is seen under another key, as long as what is
changed stands at one path only, so by induction on the levels of the upper map all of it is merged
(`covers_updateWithin`). -/
namespace DocDelta.Settings
open Heap
variable {h H H₁ H' : Heap} {K : ClassTable} {cover : Addr → Value → Updating Unit} {a b : Addr}
  {k x v w u : Value} {es us : List (Value × Value)} {c : Option Subclass} {q : List Value}
  {n : Nat} {A A' B B' : List Value → Option Value}

/-! ### Laws

`A` and `B` are what the paths lead to in an object before and after the map `u` is laid over it. -/

/-- Where a value has a map, there is a map or nothing. -/
def Suits (h : Heap) (v : Value) (A : List Value → Option Value) : Prop :=
  ∀ q y w, h.IsPath q → h.at? q v = some y → ¬ h.Leaf y → A q = some w → ¬ h.Leaf w

/-- Where the upper map has a map below its top, there is a map or nothing. -/
def Fits (h : Heap) (u : Value) (A : List Value → Option Value) : Prop :=
  ∀ q v w, h.IsPath q → q ≠ [] → h.at? q u = some v → ¬ h.Leaf v → A q = some w → ¬ h.Leaf w

theorem Suits.fits (hs : Suits h v A) : Fits h v A := fun q y w hq _ => hs q y w hq

theorem Suits.congr (hs : Suits h v A) (he : ∀ q, h.IsPath q → A q = A' q) : Suits h v A' :=
  fun q y w hq hy hl hw => hs q y w hq hy hl ((he q hq).trans hw)

/-- What fits a map suits its values. -/
theorem Fits.suits (hf : Fits h u A) (hview : h.view u = .map c us) (hk : h.IsKey k)
    (hv : h.found? k us = some v) : Suits h v fun q => A (k :: q) := by
  intro q y w hq hy hl hw
  refine hf (k :: q) y w (isPath_cons.mpr ⟨hk, hq⟩) (List.cons_ne_nil _ _) ?_ hl hw
  rw [at?_cons hview, hv, Option.bind_some, hy]

/-- A map was laid over another: its leaves stand where it has them, or remove what stood there,
where it says nothing all is as it was, and no map on its paths is left empty. -/
structure Merged (h : Heap) (u : Value) (A B : List Value → Option Value) : Prop where
  laid : ∀ q v, h.IsPath q → h.at? q u = some v → h.Leaf v → B q = kept? h v
  other : ∀ q, h.IsPath q → h.at? q u = none →
    (∀ p v, p <+: q → h.at? p u = some v → ¬ h.Leaf v) → B q = A q
  fits : Fits h u B
  pruned : ∀ q v w, h.IsPath q → q ≠ [] → h.at? q u = some v → ¬ h.Leaf v → B q = some w →
    ∃ k, h.IsKey k ∧ (B (q ++ [k])).isSome = true

/-- What an entry leaves under its key, where `A` and `B` are read below the key. -/
structure Laid (h : Heap) (v : Value) (A B : List Value → Option Value) : Prop where
  leaf : h.Leaf v → B [] = kept? h v
  merged : ¬ h.Leaf v → Merged h v A B
  held : ¬ h.Leaf v → ∀ w, B [] = some w →
    ¬ h.Leaf w ∧ ∃ k, h.IsKey k ∧ (B [k]).isSome = true

/-- Only what is below the top counts. -/
theorem Merged.congr (hm : Merged h u A B) (hu : ¬ h.Leaf u)
    (hA : ∀ k q, h.IsKey k → h.IsPath q → A (k :: q) = A' (k :: q))
    (hB : ∀ k q, h.IsKey k → h.IsPath q → B (k :: q) = B' (k :: q)) : Merged h u A' B' := by
  have hB' : ∀ q, h.IsPath q → q ≠ [] → B q = B' q := by
    intro q hq hne
    cases q with
    | nil => exact absurd rfl hne
    | cons k q => exact hB k q (isPath_cons.mp hq).1 (isPath_cons.mp hq).2
  refine ⟨fun q v hq hv hleaf => ?_, fun q hq hnone hp => ?_, fun q v w hq hne hv hleaf hw => ?_,
    fun q v w hq hne hv hleaf hw => ?_⟩
  · cases q with
    | nil =>
      cases hv
      exact absurd hleaf hu
    | cons k q => rw [← hB' _ hq (List.cons_ne_nil _ _), hm.laid _ v hq hv hleaf]
  · cases q with
    | nil => cases hnone
    | cons k q =>
      obtain ⟨hk, hq'⟩ := isPath_cons.mp hq
      rw [← hB k q hk hq', hm.other _ hq hnone hp, hA k q hk hq']
  · exact hm.fits q v w hq hne hv hleaf (hB' q hq hne ▸ hw)
  · obtain ⟨k, hk, hsome⟩ := hm.pruned q v w hq hne hv hleaf (hB' q hq hne ▸ hw)
    exact ⟨k, hk, by rwa [← hB' _ (isPath_concat.mpr ⟨hq, hk⟩) (by simp)]⟩

theorem Laid.congr (hl : Laid h v A B) (hA : ∀ q, h.IsPath q → A q = A' q)
    (hB : ∀ q, h.IsPath q → B q = B' q) : Laid h v A' B' where
  leaf hleaf := by rw [← hB [] isPath_nil, hl.leaf hleaf]
  merged hleaf := (hl.merged hleaf).congr hleaf
    (fun k q hk hq => hA _ (isPath_cons.mpr ⟨hk, hq⟩))
    fun k q hk hq => hB _ (isPath_cons.mpr ⟨hk, hq⟩)
  held hleaf w hw := by
    obtain ⟨hmap, k, hk, hsome⟩ := hl.held hleaf w (by rw [hB [] isPath_nil, hw])
    exact ⟨hmap, k, hk, by rwa [← hB _ (isPath_cons.mpr ⟨hk, isPath_nil⟩)]⟩

/-- A map was laid over another as far as the entries `ds`: each of them was laid under its key, and
nothing happened under other keys. -/
structure Partly (h : Heap) (ds : List (Value × Value)) (A B : List Value → Option Value) :
    Prop where
  ahead : ∀ k, h.IsKey k → h.found? k ds = none → ∀ q, h.IsPath q → B (k :: q) = A (k :: q)
  done : ∀ k v, h.IsKey k → h.found? k ds = some v →
    Laid h v (fun q => A (k :: q)) fun q => B (k :: q)

theorem partly_nil : Partly h [] A A := ⟨fun _ _ _ _ _ => rfl, fun _ _ _ hv => by cases hv⟩

/-- Keys that agree lead to the same values. -/
def Coherent (h : Heap) (A : List Value → Option Value) : Prop :=
  ∀ k x q, h.IsKey k → h.IsKey x → h.agrees k x = true → A (k :: q) = A (x :: q)

/-- **Laying the next entry**, which has its effect under its key only. -/
theorem Partly.step {ds : List (Value × Value)} {e : Value × Value}
    {A B C : List Value → Option Value} (hh : h.Sound K) (hA : Coherent h A) (hC : Coherent h C)
    (hds : h.Indexed (ds ++ [e])) (hp : Partly h ds A B)
    (hl : Laid h e.2 (fun q => B (e.1 :: q)) fun q => C (e.1 :: q))
    (helse : ∀ x q, h.IsKey x → h.agrees e.1 x = false → h.IsPath q → C (x :: q) = B (x :: q)) :
    Partly h (ds ++ [e]) A C := by
  have hkey := hds.keys e (List.mem_append_right ds (List.mem_singleton_self e))
  have hkeys : ∀ d ∈ ds, h.IsKey d.1 := fun d hd => hds.keys d (List.mem_append_left [e] hd)
  have hfresh := hds.found?_fresh
  have hfound : ∀ k, h.found? k (ds ++ [e]) =
      (h.found? k ds).or (if h.agrees e.1 k then some e.2 else none) := fun k => by
    rw [found?_append, found?_cons, found?_nil]
  refine ⟨fun k hk hf q hq => ?_, fun k v hk hf => ?_⟩
  · rw [hfound, Option.or_eq_none_iff] at hf
    have hek : h.agrees e.1 k = false := by
      by_contra hek
      rw [if_pos (Bool.eq_true_of_not_eq_false hek)] at hf
      cases hf.2
    rw [helse k q hk hek hq, hp.ahead k hk hf.1 q hq]
  · rw [hfound] at hf
    by_cases hek : h.agrees e.1 k = true
    · rw [← found?_congr hh hkeys hkey hk hek, hfresh, if_pos hek, Option.none_or] at hf
      cases hf
      refine hl.congr (fun q hq => ?_) fun q _ => hC e.1 k q hkey hk hek
      rw [hp.ahead e.1 hkey hfresh q hq, hA e.1 k q hkey hk hek]
    · rw [if_neg hek, Option.or_none] at hf
      exact (hp.done k v hk hf).congr (fun _ _ => rfl) fun q hq =>
        (helse k q hk (Bool.eq_false_iff.mpr hek) hq).symm

/-- **A map was laid over another when all of its entries were.** -/
theorem Partly.merged (hview : h.view u = .map c us) (hu : ¬ h.Leaf u) (hp : Partly h us A B) :
    Merged h u A B := by
  have hunder : ∀ {k q w}, h.at? (k :: q) u = some w →
      ∃ v, h.found? k us = some v ∧ h.at? q v = some w := by
    intro k q w hw
    rw [at?_cons hview] at hw
    exact Option.bind_eq_some_iff.mp hw
  -- Below a leaf of the upper map there is nothing.
  have hleafless : ∀ {v k q w}, h.at? (k :: q) v = some w → ¬ h.Leaf v := by
    intro v k q w hw hleaf
    cases (at?_leaf hleaf k q).symm.trans hw
  refine ⟨fun q v hq hv hleaf => ?_, fun q hq hn habove => ?_, fun q v w hq hne hv hleaf hw => ?_,
    fun q v w hq hne hv hleaf hw => ?_⟩
  · cases q with
    | nil =>
      cases hv
      exact absurd hleaf hu
    | cons k q =>
      obtain ⟨hk, hq⟩ := isPath_cons.mp hq
      obtain ⟨v', hv', hat⟩ := hunder hv
      cases q with
      | nil =>
        cases hat
        exact (hp.done k v hk hv').leaf hleaf
      | cons l q => exact ((hp.done k v' hk hv').merged (hleafless hat)).laid _ v hq hat hleaf
  · cases q with
    | nil => cases hn
    | cons k q =>
      obtain ⟨hk, hq⟩ := isPath_cons.mp hq
      cases hv : h.found? k us with
      | none => exact hp.ahead k hk hv q hq
      | some v =>
        have hat : ∀ p, h.at? (k :: p) u = h.at? p v := fun p => by
          rw [at?_cons hview, hv, Option.bind_some]
        have hleaf : ¬ h.Leaf v := habove [k] v (by simp) (hat [])
        refine ((hp.done k v hk hv).merged hleaf).other q hq (hat q ▸ hn) fun p w hpq hw => ?_
        exact habove (k :: p) w (List.cons_prefix_cons.mpr ⟨rfl, hpq⟩) (by rw [hat, hw])
  · cases q with
    | nil => exact absurd rfl hne
    | cons k q =>
      obtain ⟨hk, hq⟩ := isPath_cons.mp hq
      obtain ⟨v', hv', hat⟩ := hunder hv
      cases q with
      | nil =>
        cases hat
        exact ((hp.done k v hk hv').held hleaf w hw).1
      | cons l q =>
        have hm := (hp.done k v' hk hv').merged (hleafless hat)
        exact hm.fits _ v w hq (List.cons_ne_nil _ _) hat hleaf hw
  · cases q with
    | nil => exact absurd rfl hne
    | cons k q =>
      obtain ⟨hk, hq⟩ := isPath_cons.mp hq
      obtain ⟨v', hv', hat⟩ := hunder hv
      cases q with
      | nil =>
        cases hat
        exact ((hp.done k v hk hv').held hleaf w hw).2
      | cons l q =>
        have hm := (hp.done k v' hk hv').merged (hleafless hat)
        exact hm.pruned _ v w hq (List.cons_ne_nil _ _) hat hleaf hw

/-! ### One entry -/

/-- A map that can be laid over an object: it stands as it stood at first, and what it changes of
the object stands at one path only and is no part of it. -/
structure Ready (h H : Heap) (a b : Addr) : Prop where
  tidy : Tidy h H
  upper : h.IsMap (.ref b)
  lower : H.IsMap (.ref a)
  alone : Alone h H (some (.ref b)) (some (.ref a))
  apart : ∀ d ∈ changed h H (some (.ref b)) (some (.ref a)), d ∉ reached h h (some (.ref b))
  stable : ∀ d ∈ reached h h (some (.ref b)), H.object d = h.object d

/-- What an update leaves. -/
structure Updated (h H : Heap) (a b : Addr) (H' : Heap) : Prop
    extends Changes h H (.ref b) a H' where
  merged : Merged h (.ref b) (H.at? · (.ref a)) (H'.at? · (.ref a))

/-- A map can be laid over whatever it fits. -/
def Covers (h : Heap) (cover : Addr → Value → Updating Unit) (b : Addr) : Prop :=
  ∀ H a, Ready h H a b → Fits h (.ref b) (H.at? · (.ref a)) →
    ∃ H', (cover a (.ref b)).run H = .ok ((), H') ∧ Updated h H a b H'

/-- What laying an entry of a map leaves. -/
structure EntryUpdated (h H : Heap) (a b : Addr) (k v : Value) (H' : Heap) : Prop
    extends Changes h H (.ref b) a H' where
  laid : Laid h v (fun q => H.at? (k :: q) (.ref a)) fun q => H'.at? (k :: q) (.ref a)
  elsewhere : ∀ x q, h.IsKey x → h.agrees k x = false → h.IsPath q →
    H'.at? (x :: q) (.ref a) = H.at? (x :: q) (.ref a)

/-- A heap in which there stands an object under a key of a map, old or new, that a map can be laid
over. -/
structure Room (h H : Heap) (a : Addr) (c : Option Subclass) (es : List (Value × Value)) (k : Value)
    (t : Addr) (H₁ : Heap) (es₁ : List (Value × Value)) (d : Addr) : Prop where
  grows : Revises H H₁
  ready : Ready h H₁ d t
  fits : Fits h (.ref t) (H₁.at? · (.ref d))
  view : H₁.view (.ref a) = .map c es₁
  found : h.found? k es₁ = some (.ref d)
  elsewhere : ∀ x, h.IsKey x → h.agrees k x = false → h.found? x es₁ = h.found? x es
  others : ∀ e < H.size, e ≠ a → H₁.object e = H.object e
  own : a ∉ reached h H₁ (some (.ref d))
  reaches : ∀ e ∈ reached h H₁ (some (.ref d)), e ∈ reached h H (h.found? k es) ∨ H.size ≤ e
  changes : ∀ e ∈ changed h H₁ (some (.ref t)) (some (.ref d)),
    e ∈ changed h H (some (.ref t)) (h.found? k es) ∨ H.size ≤ e
  reads : ∀ x q, h.IsKey x → h.IsPath q →
    H₁.at? (x :: q) (.ref d) = (h.found? k es).bind (H.at? (x :: q))

section Writes
variable {H₂ : Heap} {es₁ : List (Value × Value)} {w : Option Value} (hh : h.Sound K)
  (hk : h.IsKey k) (hw : Writes H₂ a c (h.amend k w es₁) H')
include hh hk hw

theorem Writes.at?_own (hes₁ : h.Indexed es₁) (ht' : Tidy h H') (q : List Value) :
    H'.at? (k :: q) (.ref a) = w.bind (H'.at? q) := by
  rw [ht'.at?_cons hh hw.view hk, found?_amend hh hes₁ hk hk, if_pos hk.refl]

/-- **Writing a leaf under a key, or removing the key,** changes a map under that key only. -/
theorem Writes.changesUnder (ht₂ : Tidy h H₂) (hgrows : Revises H H₂)
    (hview₂ : H₂.view (.ref a) = .map c es₁)
    (helse : ∀ x, h.IsKey x → h.agrees k x = false → h.found? x es₁ = h.found? x es)
    (hothers : ∀ d < H.size, d ≠ a → d ∉ changed h H (h.found? k us) (h.found? k es) →
      H₂.object d = H.object d)
    (hleaf : ∀ v, w = some v → h.Leaf v) :
    ChangesUnder h H a c es us k (h.amend k w es₁) H' := by
  have ha : H₂.IsMap (.ref a) := isMap_ref.mpr ⟨c, es₁, hview₂⟩
  obtain ⟨hes₁, hvalues₁⟩ := ht₂.entries a c es₁ hview₂
  have ht' : Tidy h H' := hw.tidy ht₂ ha (hes₁.amend hk w) fun e he => by
    rcases (mem_amend he).2 with he | hv
    · exact hvalues₁ e he
    · obtain ⟨x, hx, heq, -⟩ := hleaf e.2 hv
      exact ⟨x, hx.trans_le ht₂.size, heq⟩
  have hfound : ∀ x, h.IsKey x → h.found? x (h.amend k w es₁) =
      if h.agrees k x then w else h.found? x es₁ := fun x hx => found?_amend hh hes₁ hk hx w
  have hnothing : reached h H' (h.found? k (h.amend k w es₁)) = ∅ := by
    rw [hfound k hk, if_pos hk.refl]
    cases hv : w with
    | none => exact reached_none
    | some v => exact ht'.reached_leaf (hleaf v hv)
  refine ⟨ht', hgrows.trans (hw.revises ha), hw.view, fun x hx hkx => ?_,
    fun d hd hda hout => ?_, fun q r d hq _ _ hl hqd _ => ?_, fun d hd => ?_, fun d hd => ?_⟩
  · rw [hfound x hx, if_neg (by simp [hkx]), helse x hx hkx]
  · rw [hw.others d hda, hothers d hd hda hout]
  · exact absurd ⟨hl, q, hq, hqd⟩ (Set.eq_empty_iff_forall_notMem.mp hnothing d)
  · exact absurd hd (Set.eq_empty_iff_forall_notMem.mp hnothing d)
  · exact absurd (changed_subset _ _ hd) (Set.eq_empty_iff_forall_notMem.mp hnothing d)

end Writes

section Entry
variable {c' : Option Subclass} {t d : Addr} (hh : h.Sound K) (hr : Ready h H a b)
  (hu : h.view (.ref b) = .map c us) (hview : H.view (.ref a) = .map c' es) (hk : h.IsKey k)
include hh hr hu hview hk

theorem entryUpdated_of_changes {es' : List (Value × Value)}
    (hc : ChangesUnder h H a c' es us k es' H')
    (hl : Laid h v (fun q => H.at? (k :: q) (.ref a)) fun q => H'.at? (k :: q) (.ref a)) :
    EntryUpdated h H a b k v H' where
  toChanges := hc.whole hh hr.tidy hu hview hr.alone hk
  laid := hl
  elsewhere _ _ hx hkx hq := hc.at?_elsewhere hh hr.tidy hu hview hr.alone hk hx hkx hq

/-- **Laying a leaf** changes nothing but what stands under its key. -/
theorem exists_updateEntry_leaf (hv : h.Leaf v) :
    ∃ H', (updateEntry false cover a k v).run H = .ok ((), H') ∧ EntryUpdated h H a b k v H' := by
  obtain ⟨H', hrun, hw⟩ := run_updateEntry_leaf hh hr.tidy hview hk cover hv
  have hleaf : ∀ w, kept? h v = some w → h.Leaf w := fun w hw => eq_of_kept? hw ▸ hv
  have hc : ChangesUnder h H a c' es us k (h.amend k (kept? h v) es) H' :=
    hw.changesUnder hh hk hr.tidy (.refl H) hview (fun _ _ _ => rfl) (fun _ _ _ _ => rfl) hleaf
  refine ⟨H', hrun, entryUpdated_of_changes hh hr hu hview hk hc
    ⟨fun _ => ?_, fun hno => absurd hv hno, fun hno => absurd hv hno⟩⟩
  rw [hw.at?_own hh hk (hr.tidy.entries a c' es hview).1 hc.tidy]
  cases kept? h v <;> rfl

omit hr hview in
/-- What a value of the upper map reaches the map does. -/
theorem reached_under (hf : h.found? k us = some v) :
    reached h h (some v) ⊆ reached h h (some (.ref b)) := fun _ hd =>
  (hh.tidy.mem_reached hh hu).mpr (.inr ⟨k, hk, hf ▸ hd⟩)

/-- There is room for a map where a map stands under the key. -/
theorem room_found (hf : h.found? k us = some (.ref t)) (hmap : h.IsMap (.ref t)) {w : Value}
    (hsuits : Suits h (.ref t) fun q => H.at? (k :: q) (.ref a)) (hw : h.found? k es = some w) :
    ∃ d, w = .ref d ∧ Room h H a c' es k t H es d := by
  have ht := hr.tidy
  obtain ⟨hself, -, hparts⟩ := (ht.alone_iff hh hu hview).mp hr.alone
  obtain ⟨d, hd, rfl⟩ := ht.found?_ref hview hw
  have hat : ∀ q, H.at? (k :: q) (.ref a) = H.at? q (.ref d) := fun q => by
    rw [ht.at?_cons hh hview hk, hw, Option.bind_some]
  have hlower : H.IsMap (.ref d) := ht.isMap_of_not_leaf hd
    (hsuits [] _ _ isPath_nil rfl ((not_leaf_iff hmap.lt_size).mpr hmap) (hat []))
  have halone := hparts k hk
  have hsub : changed h H (some (.ref t)) (some (.ref d)) ⊆
      changed h H (some (.ref b)) (some (.ref a)) := fun e he =>
    (ht.mem_changed hh hu hview).mpr (.inr ⟨k, hk, by rwa [hf, hw]⟩)
  have hbelow := reached_under hh hu hk hf
  rw [hf, hw] at halone
  refine ⟨d, rfl, .refl H, ⟨ht, hmap, hlower, halone,
    fun e he hin => hr.apart e (hsub he) (hbelow hin), fun e he => hr.stable e (hbelow he)⟩,
    (hsuits.congr fun q _ => hat q).fits, hview, hw,
    fun _ _ _ => rfl, fun _ _ _ => rfl, hw ▸ hself k hk, fun e he => .inl (hw ▸ he),
    fun e he => .inl (hw ▸ he), fun x q _ _ => by rw [hw, Option.bind_some]⟩

/-- A map can be laid over an empty map that came up. -/
theorem ready_opened (hf : h.found? k us = some (.ref t)) (hmap : h.IsMap (.ref t))
    (ht₁ : Tidy h H₁) (ho : Opens H a c' es k H₁) : Ready h H₁ H.size t := by
  have ht := hr.tidy
  have hupper : ∀ e ∈ reached h h (some (.ref t)), e < h.size := fun e he =>
    (hh.tidy.isMap_of_reached hh hmap.lt_size he).lt_size
  refine ⟨ht₁, hmap, isMap_ref.mpr ⟨_, _, ho.room⟩, ht₁.alone_empty hh ho.room _, ?_,
    fun e he => ?_⟩
  · intro e he he'
    have hlt := hupper e he'
    rw [ht₁.eq_of_reached_empty hh ho.room (changed_subset _ _ he)] at hlt
    exact absurd ht.size (Nat.not_le.mpr hlt)
  · have hbelow := reached_under hh hu hk hf he
    rw [ho.others e ((hupper e he).trans_le ht.size) fun hea => ?_, hr.stable e hbelow]
    exact hr.apart e ((ht.mem_changed hh hu hview).mpr (.inl hea)) hbelow

/-- There is room for a map where an empty map came up. -/
theorem room_absent (hf : h.found? k us = some (.ref t)) (hmap : h.IsMap (.ref t))
    (hw : h.found? k es = none) (ho : Opens H a c' es k H₁) :
    Room h H a c' es k t H₁ (es ++ [(k, .ref H.size)]) H.size := by
  have ht := hr.tidy
  have hes := (ht.entries a c' es hview).1
  have ht₁ := ho.tidy ht hview hk hw
  have hes₁ : es ++ [(k, .ref H.size)] = h.amend k (some (.ref H.size)) es := by
    rw [amend_absent hw]
    rfl
  have hfound : ∀ x, h.IsKey x → h.found? x (es ++ [(k, .ref H.size)]) =
      if h.agrees k x then some (.ref H.size) else h.found? x es := fun x hx => by
    rw [hes₁, found?_amend hh hes hk hx]
  have hat : ∀ x q, h.IsKey x → H₁.at? (x :: q) (.ref H.size) = none := fun x q hx =>
    ht₁.at?_empty hh ho.room hx q
  have hreached : ∀ e ∈ reached h H₁ (some (.ref H.size)), e = H.size := fun _ he =>
    ht₁.eq_of_reached_empty hh ho.room he
  refine ⟨ho.revises hr.lower, ready_opened hh hr hu hview hk hf hmap ht₁ ho,
    fun q v w hq hne _ _ hw' => ?_, ho.view, ?_, fun x hx hkx => ?_, ho.others, fun hin => ?_,
    fun e he => .inr (Nat.le_of_eq (hreached e he).symm),
    fun e he => .inr (Nat.le_of_eq (hreached e (changed_subset _ _ he)).symm), fun x q hx _ => ?_⟩
  · cases q with
    | nil => exact absurd rfl hne
    | cons x q => cases (hat x q (isPath_cons.mp hq).1).symm.trans hw'
  · rw [hfound k hk, if_pos hk.refl]
  · rw [hfound x hx, if_neg (by simp [hkx])]
  · exact absurd (hreached a hin) (Nat.ne_of_lt hr.lower.lt_size)
  · rw [hat x q hx, hw]
    rfl

/-- There is room for a map under every key; where the key is absent it is made. -/
theorem exists_room (cover : Addr → Value → Updating Unit) (hf : h.found? k us = some (.ref t))
    (hmap : h.IsMap (.ref t))
    (hsuits : Suits h (.ref t) fun q => H.at? (k :: q) (.ref a)) :
    ∃ H₁ es₁ d, (updateEntry false cover a k (.ref t)).run H =
      (updateUnder false cover a k (.ref t)).run H₁ ∧ Room h H a c' es k t H₁ es₁ d := by
  have ht := hr.tidy
  have hvH := ht.isMap t hmap.lt_size hmap
  cases hw : h.found? k es with
  | some w =>
    obtain ⟨d, -, hroom⟩ := room_found hh hr hu hview hk hf hmap hsuits hw
    exact ⟨H, es, d, run_updateEntry_found hh ht hview hk hvH (by rw [hw]; rfl), hroom⟩
  | none =>
    obtain ⟨H₁, hrun, ho⟩ := run_updateEntry_absent hh ht hview hk hvH hw
    exact ⟨H₁, _, _, hrun, room_absent hh hr hu hview hk hf hmap hw ho⟩

section Room
variable {H₂ : Heap} {es₁ : List (Value × Value)} (hroom : Room h H a c' es k t H₁ es₁ d)
  (hup : Updated h H₁ d t H₂)
include hroom hup

omit hh hu hview hk in
/-- Laying a map over what stands under a key leaves the entries as they are. -/
theorem Room.view_kept : H₂.view (.ref a) = .map c' es₁ := by
  rw [Heap.view, hup.others a (hr.lower.lt_size.trans_le hroom.grows.size) fun hin =>
    hroom.own (changed_subset _ _ hin)]
  exact hroom.view

omit hh hr hu hview hk in
/-- It changes nothing of old but what stands there. -/
theorem Room.others_kept {e : Addr} (he : e < H.size) (hea : e ≠ a)
    (hout : e ∉ changed h H (some (.ref t)) (h.found? k es)) : H₂.object e = H.object e := by
  rw [hup.others e (he.trans_le hroom.grows.size) fun hin => ?_, hroom.others e he hea]
  exact (hroom.changes e hin).elim hout fun hle => absurd he (Nat.not_lt.mpr hle)

omit hu hup in
/-- What the map was laid over is what stood under the key. -/
theorem Room.reads_under (hx : h.IsKey x) (hq : h.IsPath q) :
    H₁.at? (x :: q) (.ref d) = H.at? (k :: x :: q) (.ref a) := by
  rw [hroom.reads x q hx hq, hr.tidy.at?_cons hh hview hk]

variable (hf : h.found? k us = some (.ref t)) {cd : Option Subclass} {esd : List (Value × Value)}
include hf

/-- A map that ended up empty is taken away again. -/
theorem Room.emptied (hviewd : H₂.view (.ref d) = .map cd [])
    (hw : Writes H₂ a c' (h.amend k none es₁) H') : EntryUpdated h H a b k (.ref t) H' := by
  have ht₂ := hup.tidy
  have htl : ¬ h.Leaf (.ref t) := (not_leaf_iff hroom.ready.upper.lt_size).mpr hroom.ready.upper
  have hview₂ := hroom.view_kept hr hup
  have hc : ChangesUnder h H a c' es us k (h.amend k none es₁) H' :=
    hw.changesUnder hh hk ht₂ (hroom.grows.trans hup.grows) hview₂ hroom.elsewhere
      (fun e he hea hout => hroom.others_kept hup he hea (hf ▸ hout)) fun _ hv => by cases hv
  have hnone : ∀ q, H'.at? (k :: q) (.ref a) = none := fun q =>
    hw.at?_own hh hk (ht₂.entries a c' es₁ hview₂).1 hc.tidy q
  refine entryUpdated_of_changes hh hr hu hview hk hc
    ⟨fun hno => absurd hno htl, fun _ => ?_, fun _ w hw => ?_⟩
  · refine hup.merged.congr htl (fun x q hx hq => hroom.reads_under hh hr hview hk hx hq)
      fun x q hx _ => ?_
    rw [hnone, ht₂.at?_empty hh hviewd hx]
  · cases (hnone []).symm.trans hw

/-- A map that has entries stays. -/
theorem Room.filled (hviewd : H₂.view (.ref d) = .map cd esd) (hne : esd ≠ []) :
    EntryUpdated h H a b k (.ref t) H₂ := by
  have ht₂ := hup.tidy
  have htl : ¬ h.Leaf (.ref t) := (not_leaf_iff hroom.ready.upper.lt_size).mpr hroom.ready.upper
  have hview₂ := hroom.view_kept hr hup
  have hsize : ∀ {e}, H₁.size ≤ e → H.size ≤ e := fun hle => hroom.grows.size.trans hle
  have hc : ChangesUnder h H a c' es us k es₁ H₂ := by
    refine ⟨ht₂, hroom.grows.trans hup.grows, hview₂, hroom.elsewhere,
      fun e he hea hout => hroom.others_kept hup he hea (hf ▸ hout), ?_, ?_, ?_⟩
    all_goals rw [hroom.found]
    · exact hf ▸ hup.alone
    · exact fun e he => (hup.reaches e he).elim (hroom.reaches e) fun hle => .inr (hsize hle)
    · rw [hf]
      exact fun e he => (hup.changes e he).elim (hroom.changes e) fun hle => .inr (hsize hle)
  have hat : ∀ q, H₂.at? (k :: q) (.ref a) = H₂.at? q (.ref d) := fun q => by
    rw [ht₂.at?_cons hh hview₂ hk, hroom.found, Option.bind_some]
  refine entryUpdated_of_changes hh hr hu hview hk hc
    ⟨fun hno => absurd hno htl, fun _ => ?_, fun _ w hw => ?_⟩
  · exact hup.merged.congr htl (fun x q hx hq => hroom.reads_under hh hr hview hk hx hq)
      fun x q _ _ => (hat (x :: q)).symm
  · cases (hat []).symm.trans hw
    obtain ⟨e, hemem⟩ := List.exists_mem_of_ne_nil esd hne
    have hesd := (ht₂.entries d cd esd hviewd).1
    have hkey := hesd.keys e hemem
    refine ⟨ht₂.not_leaf hviewd, e.1, hkey, ?_⟩
    show (H₂.at? (k :: [e.1]) (.ref a)).isSome = true
    rw [hat, ht₂.at?_cons hh hviewd hkey, hesd.found?_mem hemem]
    rfl

end Room

/-- **Laying a map under a key** changes nothing but what stands there. -/
theorem exists_updateEntry_map (hf : h.found? k us = some (.ref t)) (hmap : h.IsMap (.ref t))
    (hsuits : Suits h (.ref t) fun q => H.at? (k :: q) (.ref a)) (hcover : Covers h cover t) :
    ∃ H', (updateEntry false cover a k (.ref t)).run H = .ok ((), H') ∧
      EntryUpdated h H a b k (.ref t) H' := by
  obtain ⟨H₁, es₁, d, hrun, hroom⟩ := exists_room hh hr hu hview hk cover hf hmap hsuits
  obtain ⟨H₂, hrun₂, hup⟩ := hcover H₁ d hroom.ready hroom.fits
  obtain ⟨cd, esd, hviewd⟩ :=
    isMap_ref.mp (hup.grows.isMap d hroom.ready.lower.lt_size hroom.ready.lower)
  have hlay := run_updateUnder hh hroom.ready.tidy hroom.view hk hup.tidy (hroom.view_kept hr hup)
    hroom.found hrun₂ hviewd
  by_cases hempty : esd = []
  · rw [if_pos hempty] at hlay
    obtain ⟨H', hrun', hw⟩ := hlay
    exact ⟨H', hrun.trans hrun',
      hroom.emptied hh hr hu hview hk hup hf (hempty ▸ hviewd) hw⟩
  · rw [if_neg hempty] at hlay
    exact ⟨H₂, hrun.trans hlay, hroom.filled hh hr hu hview hk hup hf hviewd hempty⟩

end Entry

/-! ### The whole map -/

/-- A heap in which a map has been laid over an object as far as the entries `ds`. -/
structure Underway (h H : Heap) (a b : Addr) (ds : List (Value × Value)) (H' : Heap) : Prop
    extends Changes h H (.ref b) a H' where
  partly : Partly h ds (H.at? · (.ref a)) (H'.at? · (.ref a))

section Update
variable {ds : List (Value × Value)} {e : Value × Value} (hh : h.Sound K) (hr : Ready h H a b)
include hr

theorem Ready.underway : Underway h H a b [] H :=
  ⟨.refl hr.tidy hr.alone, partly_nil⟩

include hh

theorem Ready.coherent : Coherent h (H.at? · (.ref a)) := fun _ _ _ hk hx hkx =>
  hr.tidy.at?_congr hh hr.lower hk hx hkx

/-- A map that can be laid over an object can be when it has been. -/
theorem Ready.changes (hc : Changes h H (.ref b) a H') : Ready h H' a b := by
  have hupper : ∀ d ∈ reached h h (some (.ref b)), d < H.size := fun d hd =>
    (hh.tidy.isMap_of_reached hh hr.upper.lt_size hd).lt_size.trans_le hr.tidy.size
  refine ⟨hc.tidy, hr.upper, hc.grows.isMap a hr.lower.lt_size hr.lower, hc.alone, ?_,
    fun d hd => ?_⟩
  · intro d hd hdb
    rcases hc.changes d hd with hold | hle
    · exact hr.apart d hold hdb
    · exact absurd (hupper d hdb) (Nat.not_lt.mpr hle)
  · rw [hc.others d (hupper d hd) fun hin => hr.apart d hin hd, hr.stable d hd]

variable (hu : h.view (.ref b) = .map c us)
include hu

omit hh in
/-- The upper map is still the same. -/
theorem Ready.view_upper : H.view (.ref b) = .map c us := by
  have hin : b ∈ reached h h (some (.ref b)) :=
    ⟨(not_leaf_iff hr.upper.lt_size).mpr hr.upper, [], isPath_nil, rfl⟩
  rw [Heap.view, hr.stable b hin]
  exact hu

/-- Laying the next entry. -/
theorem Underway.step {H'' : Heap} (hd : Underway h H a b ds H') (hds : ds ++ [e] <+: us)
    (he : EntryUpdated h H' a b e.1 e.2 H'') : Underway h H a b (ds ++ [e]) H'' := by
  have hr'' := (hr.changes hh hd.toChanges).changes hh he.toChanges
  exact ⟨hd.toChanges.trans he.toChanges, hd.partly.step hh (hr.coherent hh) (hr''.coherent hh)
    ((hh.indexed hu).sublist hds.sublist) he.laid he.elsewhere⟩

end Update

theorem run_updateWithin (hes : H.entries? (H.view u) = some us) :
    (updateWithin false (n + 1) a u).run H = (forEntries u us.length
      (updateEntry false (updateWithin false n) a) us.length).run H := by
  rw [updateWithin, run_get, hes]

/-- **A map is merged into every object that it can be laid over and that it fits.** -/
theorem covers_updateWithin (hh : h.Sound K) (hn : h.Levels n (.ref b)) :
    Covers h (updateWithin false n) b := by
  induction n generalizing b with
  | zero =>
    intro H a hr _
    exact absurd hr.upper hn
  | succ n ih =>
    intro H a hr hfits
    obtain ⟨c, us, hu⟩ := isMap_ref.mp hr.upper
    have hus := hh.indexed hu
    have hstep : ∀ ds e H', ds ++ [e] <+: us → Underway h H a b ds H' → ∃ H'',
        (updateEntry false (updateWithin false n) a e.1 e.2).run H' = .ok ((), H'') ∧
          Underway h H a b (ds ++ [e]) H'' := by
      intro ds e H' hds hd
      have hmem : e ∈ us := hds.subset (List.mem_append_right ds (List.mem_singleton_self e))
      have hkey := hus.keys e hmem
      have hf := hus.found?_mem (k := e.1) (v := e.2) hmem
      have hfresh := (hus.sublist hds.sublist).found?_fresh
      have hr' := hr.changes hh hd.toChanges
      obtain ⟨c', es, hview⟩ := isMap_ref.mp hr'.lower
      obtain ⟨t, ht, hte⟩ := hh.part (entry_parts hu hmem).2
      rw [hte] at hf
      suffices hlay : ∃ H'', (updateEntry false (updateWithin false n) a e.1 e.2).run H' =
          .ok ((), H'') ∧ EntryUpdated h H' a b e.1 e.2 H'' by
        obtain ⟨H'', hrun, hup⟩ := hlay
        exact ⟨H'', hrun, hd.step hh hr hu hds hup⟩
      rw [hte]
      by_cases hmap : h.IsMap (.ref t)
      · have hsuits := (hfits.suits hu hkey hf).congr fun q hq =>
          (hd.partly.ahead e.1 hkey hfresh q hq).symm
        exact exists_updateEntry_map hh hr' hu hview hkey hf hmap hsuits
          (ih (hte ▸ hn us (mapEntries?_eq_some.mpr ⟨c, hu⟩) e hmem))
      · exact exists_updateEntry_leaf hh hr' hu hview hkey ⟨t, ht, rfl, hmap⟩
    have hentries : ∀ ds H', Underway h H a b ds H' →
        H'.entries? (H'.view (.ref b)) = some us := by
      intro ds H' hd
      rw [(hr.changes hh hd.toChanges).view_upper hu, entries?_of_map]
    obtain ⟨H', hrun, hd⟩ := run_forEntries hentries hstep hr.underway
    refine ⟨H', ?_, hd.toChanges, hd.partly.merged hu (hh.tidy.not_leaf hu)⟩
    rw [run_updateWithin (hentries [] H hr.underway)]
    exact hrun

end DocDelta.Settings
