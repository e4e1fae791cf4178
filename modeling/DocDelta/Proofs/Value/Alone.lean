import DocDelta.Proofs.Value.Revised

/-! Maps that stand at one path only.

Laying a map over another changes the maps that stand where both have one (`changed`). As long as
each of these stands at no other path (`Alone`), what is changed under one key is not seen under
another (`ChangesUnder.reads`), and stays so (`ChangesUnder.alone_whole`). -/
namespace DocDelta.Heap
variable {h H H' : Heap} {K : ClassTable} {k x y u v w : Value} {es us : List (Value × Value)}
  {q : List Value} {a b : Addr} {c : Option Subclass}

/-! ### Heaps in good order -/

/-- An object of the heap that is no map. -/
def Leaf (h : Heap) (v : Value) : Prop := ∃ d < h.size, v = .ref d ∧ ¬ h.IsMap v

theorem not_leaf_iff (ha : a < h.size) : ¬ h.Leaf (.ref a) ↔ h.IsMap (.ref a) := by
  refine ⟨fun hleaf => ?_, fun hmap ⟨_, _, _, hno⟩ => hno hmap⟩
  by_contra hno
  exact hleaf ⟨a, ha, rfl, hno⟩

/-- There is nothing under the keys of a leaf. -/
theorem at?_leaf (hv : h.Leaf v) (k : Value) (q : List Value) : h.at? (k :: q) v = none := by
  obtain ⟨d, -, rfl, hmap⟩ := hv
  rw [at?, under?, Option.not_isSome_iff_eq_none.mp hmap]
  rfl

/-- A revised heap in which what has come up is maps, and maps hold objects of the heap under old
keys that are told apart. -/
structure Tidy (h H : Heap) : Prop extends Revises h H where
  fresh : ∀ d < H.size, h.size ≤ d → H.IsMap (.ref d)
  entries : ∀ d c es, H.view (.ref d) = .map c es →
    h.Indexed es ∧ ∀ e ∈ es, ∃ b < H.size, e.2 = .ref b

theorem Sound.tidy (hh : h.Sound K) : Tidy h h where
  toRevises := .refl h
  fresh _ hd hle := absurd hd (Nat.not_lt.mpr hle)
  entries _ _ _ hv := ⟨hh.indexed hv, fun _ he => hh.part (entry_parts hv he).2⟩

section Tidy
variable (ht : Tidy h H)
include ht

theorem Tidy.isMap_of_not_leaf (ha : a < H.size) (hl : ¬ h.Leaf (.ref a)) : H.IsMap (.ref a) := by
  rcases Nat.lt_or_ge a h.size with hlt | hge
  · exact ht.isMap a hlt ((not_leaf_iff hlt).mp hl)
  · exact ht.fresh a ha hge

theorem Tidy.not_leaf (hv : H.view v = .map c es) : ¬ h.Leaf v := by
  rintro ⟨d, hd, rfl, hmap⟩
  exact hmap ((ht.isMap_iff hd).mp (isMap_ref.mpr ⟨c, es, hv⟩))

theorem Tidy.at?_leaf (hv : h.Leaf v) (k : Value) (q : List Value) : H.at? (k :: q) v = none := by
  obtain ⟨d, hd, rfl, hmap⟩ := hv
  have hnone : H.mapEntries? (.ref d) = none := by
    rw [← Option.not_isSome_iff_eq_none]
    exact (ht.isMap_iff hd).not.mpr hmap
  rw [Heap.at?, Heap.under?, hnone]
  rfl

theorem Tidy.found?_ref (hv : H.view (.ref a) = .map c es) (hw : h.found? k es = some w) :
    ∃ b < H.size, w = .ref b := by
  obtain ⟨x, hx, -⟩ := mem_of_found? hw
  exact (ht.entries a c es hv).2 _ hx

theorem Tidy.at?_cons (hh : h.Sound K) (hv : H.view (.ref a) = .map c es) (hk : h.IsKey k)
    (q : List Value) : H.at? (k :: q) (.ref a) = (h.found? k es).bind (H.at? q) := by
  rw [Heap.at?, Heap.under?, mapEntries?_eq_some.mpr ⟨c, hv⟩, Option.bind_some,
    ht.toRevises.found? hh (ht.entries a c es hv).1.keys hk]

/-- Keys that agree lead to the same values. -/
theorem Tidy.at?_congr (hh : h.Sound K) (hmap : H.IsMap (.ref a)) (hk : h.IsKey k) (hx : h.IsKey x)
    (hkx : h.agrees k x = true) : H.at? (k :: q) (.ref a) = H.at? (x :: q) (.ref a) := by
  obtain ⟨c, es, hview⟩ := isMap_ref.mp hmap
  rw [ht.at?_cons hh hview hk, ht.at?_cons hh hview hx,
    found?_congr hh (ht.entries a c es hview).1.keys hk hx hkx]

/-- What a path leads to is an object of the heap. -/
theorem Tidy.at?_ref (hh : h.Sound K) (ha : a < H.size) (hq : h.IsPath q)
    (hw : H.at? q (.ref a) = some w) : ∃ b < H.size, w = .ref b := by
  induction q generalizing a with
  | nil =>
    cases hw
    exact ⟨a, ha, rfl⟩
  | cons k q ih =>
    obtain ⟨hk, hq⟩ := isPath_cons.mp hq
    by_cases hl : h.Leaf (.ref a)
    · rw [ht.at?_leaf hl] at hw
      cases hw
    · obtain ⟨c, es, hview⟩ := isMap_ref.mp (ht.isMap_of_not_leaf ha hl)
      rw [ht.at?_cons hh hview hk] at hw
      obtain ⟨v, hv, hw⟩ := Option.bind_eq_some_iff.mp hw
      obtain ⟨b, hb, rfl⟩ := ht.found?_ref hview hv
      exact ih hb hq hw

end Tidy

/-! ### Maps on paths -/

/-- Where a map, if it is one, has a map. -/
def Lays (h : Heap) (u : Option Value) (q : List Value) : Prop :=
  ∃ v, u.bind (h.at? q) = some v ∧ ¬ h.Leaf v

/-- The maps on the paths of a value. -/
def reached (h H : Heap) (w : Option Value) : Set Addr :=
  {d | ¬ h.Leaf (.ref d) ∧ ∃ q, h.IsPath q ∧ w.bind (H.at? q) = some (.ref d)}

/-- The maps of a value that are changed when a map is laid over it: those that stand where the
upper map has a map. -/
def changed (h H : Heap) (u w : Option Value) : Set Addr :=
  {d | ¬ h.Leaf (.ref d) ∧ ∃ q, h.IsPath q ∧ h.Lays u q ∧ w.bind (H.at? q) = some (.ref d)}

/-- What would be changed stands at one path only. -/
def Alone (h H : Heap) (u w : Option Value) : Prop :=
  ∀ q r d, h.IsPath q → h.IsPath r → h.Lays u q → ¬ h.Leaf (.ref d) →
    w.bind (H.at? q) = some (.ref d) → w.bind (H.at? r) = some (.ref d) → h.SamePath q r

theorem changed_subset (u w : Option Value) : changed h H u w ⊆ reached h H w :=
  fun _ ⟨hl, q, hq, _, hd⟩ => ⟨hl, q, hq, hd⟩

theorem reached_congr {w w' : Option Value}
    (he : ∀ q, h.IsPath q → w'.bind (H'.at? q) = w.bind (H.at? q)) :
    reached h H' w' = reached h H w := by
  ext d
  refine and_congr_right fun _ => exists_congr fun q => and_congr_right fun hq => ?_
  rw [he q hq]

theorem changed_congr {u w w' : Option Value}
    (he : ∀ q, h.IsPath q → w'.bind (H'.at? q) = w.bind (H.at? q)) :
    changed h H' u w' = changed h H u w := by
  ext d
  refine and_congr_right fun _ => exists_congr fun q => and_congr_right fun hq => ?_
  rw [he q hq]

theorem Alone.congr {u w w' : Option Value} (ha : Alone h H u w)
    (he : ∀ q, h.IsPath q → w'.bind (H'.at? q) = w.bind (H.at? q)) : Alone h H' u w' := by
  intro q r d hq hr hu hl hqd hrd
  rw [he q hq] at hqd
  rw [he r hr] at hrd
  exact ha q r d hq hr hu hl hqd hrd

@[simp] theorem reached_none : reached h H none = ∅ := by
  ext d
  exact ⟨fun ⟨_, _, _, hd⟩ => (by cases hd), nofun⟩

@[simp] theorem changed_none (u : Option Value) : changed h H u none = ∅ :=
  Set.subset_eq_empty (changed_subset u none) reached_none

theorem Tidy.reached_leaf (ht : Tidy h H) (hv : h.Leaf v) : reached h H (some v) = ∅ := by
  refine Set.eq_empty_of_forall_notMem fun d hd => ?_
  obtain ⟨hleaf, q, hq, hd⟩ := hd
  cases q with
  | nil =>
    cases hd
    exact hleaf hv
  | cons k q =>
    rw [Option.bind_some, ht.at?_leaf hv] at hd
    cases hd

/-! ### One map over another -/

section Reached
variable (hh : h.Sound K) (ht : Tidy h H)
include hh ht

/-- What a map reaches is the map and what its values reach. -/
theorem Tidy.mem_reached (hv : H.view (.ref a) = .map c es) {d : Addr} :
    d ∈ reached h H (some (.ref a)) ↔ d = a ∨ ∃ k, h.IsKey k ∧ d ∈ reached h H (h.found? k es) := by
  constructor
  · rintro ⟨hleaf, q, hq, hd⟩
    cases q with
    | nil =>
      cases hd
      exact .inl rfl
    | cons k q =>
      obtain ⟨hk, hq⟩ := isPath_cons.mp hq
      rw [Option.bind_some, ht.at?_cons hh hv hk] at hd
      exact .inr ⟨k, hk, hleaf, q, hq, hd⟩
  · rintro (rfl | ⟨k, hk, hleaf, q, hq, hd⟩)
    · exact ⟨ht.not_leaf hv, [], isPath_nil, rfl⟩
    · refine ⟨hleaf, k :: q, isPath_cons.mpr ⟨hk, hq⟩, ?_⟩
      rw [Option.bind_some, ht.at?_cons hh hv hk, hd]

/-- What a value reaches is maps of the heap. -/
theorem Tidy.isMap_of_reached (ha : a < H.size) {d : Addr}
    (hd : d ∈ reached h H (some (.ref a))) : H.IsMap (.ref d) := by
  obtain ⟨hleaf, q, hq, hd⟩ := hd
  obtain ⟨e, he, heq⟩ := ht.at?_ref hh ha hq hd
  cases heq
  exact ht.isMap_of_not_leaf he hleaf

/-- **A value reads as before when the maps it reaches have not changed.** -/
theorem Tidy.frame (ht' : Tidy h H') (ha : a < H.size)
    (hkept : ∀ d ∈ reached h H (some (.ref a)), H'.object d = H.object d) (hq : h.IsPath q) :
    H'.at? q (.ref a) = H.at? q (.ref a) := by
  induction q generalizing a with
  | nil => rfl
  | cons k q ih =>
    obtain ⟨hk, hq⟩ := isPath_cons.mp hq
    by_cases hl : h.Leaf (.ref a)
    · rw [ht.at?_leaf hl, ht'.at?_leaf hl]
    · obtain ⟨c, es, hview⟩ := isMap_ref.mp (ht.isMap_of_not_leaf ha hl)
      have hself := hkept a ((ht.mem_reached hh hview).mpr (.inl rfl))
      have hview' : H'.view (.ref a) = .map c es := by
        rw [Heap.view, hself]
        exact hview
      rw [ht.at?_cons hh hview hk, ht'.at?_cons hh hview' hk]
      cases hv : h.found? k es with
      | none => rfl
      | some v =>
        obtain ⟨b, hb, rfl⟩ := ht.found?_ref hview hv
        exact ih hb (fun d hd => hkept d
          ((ht.mem_reached hh hview).mpr (.inr ⟨k, hk, by rwa [hv]⟩))) hq

/-- An empty map has nothing under any key. -/
theorem Tidy.at?_empty (hv : H.view (.ref a) = .map c []) (hk : h.IsKey k) (q : List Value) :
    H.at? (k :: q) (.ref a) = none := by
  rw [ht.at?_cons hh hv hk]
  rfl

theorem Tidy.eq_of_reached_empty (hv : H.view (.ref a) = .map c []) {d : Addr}
    (hd : d ∈ reached h H (some (.ref a))) : d = a := by
  rcases (ht.mem_reached hh hv).mp hd with hda | ⟨x, _, hd⟩
  · exact hda
  · rw [found?_nil, reached_none] at hd
    cases hd

/-- An empty map has one path, so it stands at one only. -/
theorem Tidy.alone_empty (hv : H.view (.ref a) = .map c []) (u : Option Value) :
    Alone h H u (some (.ref a)) := by
  intro q r d hq hr _ _ hqd hrd
  cases q with
  | nil =>
    cases r with
    | nil => exact .nil
    | cons x r => cases (ht.at?_empty hh hv (isPath_cons.mp hr).1 r).symm.trans hrd
  | cons x q => cases (ht.at?_empty hh hv (isPath_cons.mp hq).1 q).symm.trans hqd

variable (hu : h.view (.ref b) = .map c us)
include hu

omit ht in
theorem lays_cons (hk : h.IsKey k) :
    h.Lays (some (.ref b)) (k :: q) ↔ h.Lays (h.found? k us) q := by
  unfold Lays
  rw [Option.bind_some, hh.tidy.at?_cons hh hu hk]

variable {c' : Option Subclass} (hview : H.view (.ref a) = .map c' es)
include hview

/-- What is changed of a map is the map and what is changed of its values. -/
theorem Tidy.mem_changed {d : Addr} : d ∈ changed h H (some (.ref b)) (some (.ref a)) ↔
    d = a ∨ ∃ k, h.IsKey k ∧ d ∈ changed h H (h.found? k us) (h.found? k es) := by
  constructor
  · rintro ⟨hleaf, q, hq, hlays, hd⟩
    cases q with
    | nil =>
      cases hd
      exact .inl rfl
    | cons k q =>
      obtain ⟨hk, hq⟩ := isPath_cons.mp hq
      rw [Option.bind_some, ht.at?_cons hh hview hk] at hd
      exact .inr ⟨k, hk, hleaf, q, hq, (lays_cons hh hu hk).mp hlays, hd⟩
  · rintro (rfl | ⟨k, hk, hleaf, q, hq, hlays, hd⟩)
    · exact ⟨ht.not_leaf hview, [], isPath_nil, ⟨_, rfl, hh.tidy.not_leaf hu⟩, rfl⟩
    · refine ⟨hleaf, k :: q, isPath_cons.mpr ⟨hk, hq⟩, (lays_cons hh hu hk).mpr hlays, ?_⟩
      rw [Option.bind_some, ht.at?_cons hh hview hk, hd]

/-- What would be changed of a map is alone when the map is, when no key reaches what would be
changed under another, and when each value's part is alone. -/
theorem Tidy.alone_iff : Alone h H (some (.ref b)) (some (.ref a)) ↔
    (∀ k, h.IsKey k → a ∉ reached h H (h.found? k es)) ∧
      (∀ k x d, h.IsKey k → h.IsKey x → d ∈ changed h H (h.found? k us) (h.found? k es) →
        d ∈ reached h H (h.found? x es) → h.agrees k x = true) ∧
      ∀ k, h.IsKey k → Alone h H (h.found? k us) (h.found? k es) := by
  have hroot : h.Lays (some (.ref b)) [] := ⟨_, rfl, hh.tidy.not_leaf hu⟩
  have hat : ∀ {k}, h.IsKey k → ∀ q,
      (some (Value.ref a)).bind (H.at? (k :: q)) = (h.found? k es).bind (H.at? q) :=
    fun hk q => ht.at?_cons hh hview hk q
  constructor
  · intro halone
    refine ⟨fun k hk hin => ?_, fun k x d hk hx hin hin' => ?_,
      fun k hk q r d hq hr hl hleaf hqd hrd => ?_⟩
    · obtain ⟨hleaf, q, hq, hd⟩ := hin
      cases halone [] (k :: q) a isPath_nil (isPath_cons.mpr ⟨hk, hq⟩) hroot hleaf rfl
        ((hat hk q).trans hd)
    · obtain ⟨hleaf, q, hq, hl, hd⟩ := hin
      obtain ⟨-, r, hr, hd'⟩ := hin'
      have hsame := halone (k :: q) (x :: r) d (isPath_cons.mpr ⟨hk, hq⟩) (isPath_cons.mpr ⟨hx, hr⟩)
        ((lays_cons hh hu hk).mpr hl) hleaf ((hat hk q).trans hd) ((hat hx r).trans hd')
      exact (List.forall₂_cons.mp hsame).1
    · have hsame := halone (k :: q) (k :: r) d (isPath_cons.mpr ⟨hk, hq⟩) (isPath_cons.mpr ⟨hk, hr⟩)
        ((lays_cons hh hu hk).mpr hl) hleaf ((hat hk q).trans hqd) ((hat hk r).trans hrd)
      exact (List.forall₂_cons.mp hsame).2
  · rintro ⟨hself, happart, halone⟩ q r d hq hr hl hleaf hqd hrd
    cases q with
    | nil =>
      cases r with
      | nil => exact .nil
      | cons x r =>
        obtain ⟨hx, hr⟩ := isPath_cons.mp hr
        cases hqd
        exact absurd ⟨hleaf, r, hr, (hat hx r).symm.trans hrd⟩ (hself x hx)
    | cons k q =>
      obtain ⟨hk, hq⟩ := isPath_cons.mp hq
      have hl := (lays_cons hh hu hk).mp hl
      have hqd := (hat hk q).symm.trans hqd
      cases r with
      | nil =>
        cases hrd
        exact absurd ⟨hleaf, q, hq, hqd⟩ (hself k hk)
      | cons x r =>
        obtain ⟨hx, hr⟩ := isPath_cons.mp hr
        have hrd := (hat hx r).symm.trans hrd
        have hkx := happart k x d hk hx ⟨hleaf, q, hq, hl, hqd⟩ ⟨hleaf, r, hr, hrd⟩
        rw [← found?_congr hh (ht.entries a c' es hview).1.keys hk hx hkx] at hrd
        exact .cons hkx (halone k hk q r d hq hr hl hleaf hqd hrd)

end Reached

/-! ### Changes -/

/-- A heap in which only what a map changes of an object has changed, and objects have come up. -/
structure Changes (h H : Heap) (u : Value) (a : Addr) (H' : Heap) : Prop where
  tidy : Tidy h H'
  grows : Revises H H'
  others : ∀ d < H.size, d ∉ changed h H (some u) (some (.ref a)) → H'.object d = H.object d
  alone : Alone h H' (some u) (some (.ref a))
  reaches : ∀ d ∈ reached h H' (some (.ref a)), d ∈ reached h H (some (.ref a)) ∨ H.size ≤ d
  changes : ∀ d ∈ changed h H' (some u) (some (.ref a)),
    d ∈ changed h H (some u) (some (.ref a)) ∨ H.size ≤ d

theorem Changes.refl (ht : Tidy h H) (ha : Alone h H (some u) (some (.ref a))) :
    Changes h H u a H :=
  ⟨ht, .refl H, fun _ _ _ => rfl, ha, fun _ hd => .inl hd, fun _ hd => .inl hd⟩

theorem Changes.trans {H₁ : Heap} (hf : Changes h H u a H₁) (hs : Changes h H₁ u a H') :
    Changes h H u a H' where
  tidy := hs.tidy
  grows := hf.grows.trans hs.grows
  others d hd hout := by
    rw [hs.others d (hd.trans_le hf.grows.size) fun hin => ?_, hf.others d hd hout]
    exact (hf.changes d hin).elim hout fun hle => absurd hd (Nat.not_lt.mpr hle)
  alone := hs.alone
  reaches d hd := (hs.reaches d hd).elim (hf.reaches d) fun hle => .inr (hf.grows.size.trans hle)
  changes d hd := (hs.changes d hd).elim (hf.changes d) fun hle => .inr (hf.grows.size.trans hle)

/-- A heap in which a map has other entries under one key, where what is new or changed is what `us`
changes there. -/
structure ChangesUnder (h H : Heap) (a : Addr) (c : Option Subclass) (es us : List (Value × Value))
    (k : Value) (es' : List (Value × Value)) (H' : Heap) : Prop where
  tidy : Tidy h H'
  grows : Revises H H'
  view : H'.view (.ref a) = .map c es'
  elsewhere : ∀ x, h.IsKey x → h.agrees k x = false → h.found? x es' = h.found? x es
  others : ∀ d < H.size, d ≠ a → d ∉ changed h H (h.found? k us) (h.found? k es) →
    H'.object d = H.object d
  alone : Alone h H' (h.found? k us) (h.found? k es')
  reaches : ∀ d ∈ reached h H' (h.found? k es'), d ∈ reached h H (h.found? k es) ∨ H.size ≤ d
  changes : ∀ d ∈ changed h H' (h.found? k us) (h.found? k es'),
    d ∈ changed h H (h.found? k us) (h.found? k es) ∨ H.size ≤ d

section ChangesUnder
variable {c' : Option Subclass} {es' : List (Value × Value)} {d : Addr} (hh : h.Sound K)
  (ht : Tidy h H) (hu : h.view (.ref b) = .map c us) (hview : H.view (.ref a) = .map c' es)
  (halone : Alone h H (some (.ref b)) (some (.ref a))) (hk : h.IsKey k)
  (hc : ChangesUnder h H a c' es us k es' H')
include hh ht hview

/-- What a map reaches under a key is in the heap. -/
theorem Tidy.lt_size_of_reached (hx : h.IsKey x) (hd : d ∈ reached h H (h.found? x es)) :
    d < H.size :=
  (ht.isMap_of_reached hh (isMap_ref.mpr ⟨c', es, hview⟩).lt_size
    ((ht.mem_reached hh hview).mpr (.inr ⟨x, hx, hd⟩))).lt_size

include hu halone hk hc

/-- **Nothing changes under other keys**: what is changed under one key is not seen there. -/
theorem ChangesUnder.reads (hx : h.IsKey x) (hkx : h.agrees k x = false) (hq : h.IsPath q) :
    (h.found? x es').bind (H'.at? q) = (h.found? x es).bind (H.at? q) := by
  obtain ⟨hself, happart, -⟩ := (ht.alone_iff hh hu hview).mp halone
  rw [hc.elsewhere x hx hkx]
  cases hv : h.found? x es with
  | none => rfl
  | some v =>
    obtain ⟨t, hlt, rfl⟩ := ht.found?_ref hview hv
    refine ht.frame hh hc.tidy hlt (fun d hd => ?_) hq
    rw [← hv] at hd
    refine hc.others d (ht.lt_size_of_reached hh hview hx hd) (fun hda => hself x hx (hda ▸ hd))
      fun hdk => ?_
    rw [happart k x d hk hx hdk hd] at hkx
    cases hkx

theorem ChangesUnder.reached_eq (hx : h.IsKey x) (hkx : h.agrees k x = false) :
    reached h H' (h.found? x es') = reached h H (h.found? x es) :=
  reached_congr fun _ hq => hc.reads hh ht hu hview halone hk hx hkx hq

theorem ChangesUnder.changed_eq (hx : h.IsKey x) (hkx : h.agrees k x = false) (u : Option Value) :
    changed h H' u (h.found? x es') = changed h H u (h.found? x es) :=
  changed_congr fun _ hq => hc.reads hh ht hu hview halone hk hx hkx hq

omit hu halone in
/-- A key that agrees with the one that was changed has its values. -/
theorem ChangesUnder.found?_eq (hx : h.IsKey x) (hkx : h.agrees k x = true) :
    h.found? x es' = h.found? k es' ∧ h.found? x es = h.found? k es :=
  ⟨(found?_congr hh (hc.tidy.entries a c' es' hc.view).1.keys hk hx hkx).symm,
    (found?_congr hh (ht.entries a c' es hview).1.keys hk hx hkx).symm⟩

/-- Under every key what is reached was reached before or has come up. -/
theorem ChangesUnder.reaches_under (hx : h.IsKey x) (hd : d ∈ reached h H' (h.found? x es')) :
    d ∈ reached h H (h.found? x es) ∨ H.size ≤ d := by
  by_cases hkx : h.agrees k x = true
  · obtain ⟨hnew, hold⟩ := hc.found?_eq hh ht hview hk hx hkx
    rw [hnew] at hd
    rw [hold]
    exact hc.reaches d hd
  · rw [hc.reached_eq hh ht hu hview halone hk hx (Bool.eq_false_iff.mpr hkx)] at hd
    exact .inl hd

theorem ChangesUnder.changes_under (hx : h.IsKey x)
    (hd : d ∈ changed h H' (h.found? x us) (h.found? x es')) :
    d ∈ changed h H (h.found? x us) (h.found? x es) ∨ H.size ≤ d := by
  by_cases hkx : h.agrees k x = true
  · obtain ⟨hnew, hold⟩ := hc.found?_eq hh ht hview hk hx hkx
    have hupper := (found?_congr hh (hh.indexed hu).keys hk hx hkx).symm
    rw [hnew, hupper] at hd
    rw [hold, hupper]
    exact hc.changes d hd
  · rw [hc.changed_eq hh ht hu hview halone hk hx (Bool.eq_false_iff.mpr hkx)] at hd
    exact .inl hd

/-- What has come up is seen under the key that was changed only. -/
theorem ChangesUnder.agrees_of_fresh (hx : h.IsKey x) (hd : d ∈ reached h H' (h.found? x es'))
    (hle : H.size ≤ d) : h.agrees k x = true := by
  by_contra hkx
  rw [hc.reached_eq hh ht hu hview halone hk hx (Bool.eq_false_iff.mpr hkx)] at hd
  exact absurd (ht.lt_size_of_reached hh hview hx hd) (Nat.not_lt.mpr hle)

/-- **What is alone stays so when a map is changed under one of its keys.** -/
theorem ChangesUnder.alone_whole : Alone h H' (some (.ref b)) (some (.ref a)) := by
  obtain ⟨hself, happart, hparts⟩ := (ht.alone_iff hh hu hview).mp halone
  refine (hc.tidy.alone_iff hh hu hc.view).mpr ⟨fun x hx hin => ?_, fun x y d hx hy hin hin' => ?_,
    fun x hx => ?_⟩
  · refine (hc.reaches_under hh ht hu hview halone hk hx hin).elim (hself x hx) fun hle => ?_
    exact absurd (isMap_ref.mpr ⟨c', es, hview⟩).lt_size (Nat.not_lt.mpr hle)
  · by_cases hle : H.size ≤ d
    · have hkx := hc.agrees_of_fresh hh ht hu hview halone hk hx (changed_subset _ _ hin) hle
      have hky := hc.agrees_of_fresh hh ht hu hview halone hk hy hin' hle
      exact hx.trans hh hk hy (hk.symm hh hx hkx) hky
    · exact happart x y d hx hy
        ((hc.changes_under hh ht hu hview halone hk hx hin).resolve_right hle)
        ((hc.reaches_under hh ht hu hview halone hk hy hin').resolve_right hle)
  · by_cases hkx : h.agrees k x = true
    · rw [(hc.found?_eq hh ht hview hk hx hkx).1,
        (found?_congr hh (hh.indexed hu).keys hk hx hkx).symm]
      exact hc.alone
    · exact (hparts x hx).congr fun q hq =>
        hc.reads hh ht hu hview halone hk hx (Bool.eq_false_iff.mpr hkx) hq

/-- A change under one key is a change of the map. -/
theorem ChangesUnder.whole : Changes h H (.ref b) a H' := by
  refine ⟨hc.tidy, hc.grows, fun d hd hout => ?_, hc.alone_whole hh ht hu hview halone hk,
    fun d hd => ?_, fun d hd => ?_⟩
  · have hnotin := (ht.mem_changed hh hu hview).not.mp hout
    exact hc.others d hd (fun he => hnotin (.inl he)) fun hin => hnotin (.inr ⟨k, hk, hin⟩)
  · rcases (hc.tidy.mem_reached hh hc.view).mp hd with rfl | ⟨x, hx, hd⟩
    · exact .inl ((ht.mem_reached hh hview).mpr (.inl rfl))
    · exact (hc.reaches_under hh ht hu hview halone hk hx hd).imp_left fun hold =>
        (ht.mem_reached hh hview).mpr (.inr ⟨x, hx, hold⟩)
  · rcases (hc.tidy.mem_changed hh hu hc.view).mp hd with rfl | ⟨x, hx, hd⟩
    · exact .inl ((ht.mem_changed hh hu hview).mpr (.inl rfl))
    · exact (hc.changes_under hh ht hu hview halone hk hx hd).imp_left fun hold =>
        (ht.mem_changed hh hu hview).mpr (.inr ⟨x, hx, hold⟩)

theorem ChangesUnder.at?_elsewhere (hx : h.IsKey x) (hkx : h.agrees k x = false)
    (hq : h.IsPath q) : H'.at? (x :: q) (.ref a) = H.at? (x :: q) (.ref a) := by
  rw [ht.at?_cons hh hview hx, hc.tidy.at?_cons hh hc.view hx,
    hc.reads hh ht hu hview halone hk hx hkx hq]

end ChangesUnder

end DocDelta.Heap
