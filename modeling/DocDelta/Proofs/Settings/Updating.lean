import DocDelta.Proofs.Json.Interned
import DocDelta.Proofs.Value.Alone
import DocDelta.Settings.Update

/-! The steps of laying a map over an object of the heap.

A step writes one map anew (`Writes`), whose entries are amended under one key, and where the key is
absent and a map is to be laid under it, an empty map comes up first. A map is gone through entry by
entry, so what every entry preserves the whole of it does (`run_forEntries`). -/
namespace DocDelta.Settings
open Heap
variable {h H H₁ H' : Heap} {K : ClassTable} {cover : Addr → Value → Updating Unit} {a b : Addr}
  {k x v w u : Value} {es us : List (Value × Value)} {c : Option Subclass} {n : Nat}

/-! ### Running steps -/

theorem run_step {α β : Type} {m : Updating α} {f : α → Updating β} {r : α}
    (hm : m.run H = .ok (r, H')) : (m >>= f).run H = (f r).run H' := by
  rw [StateT.run_bind, hm]
  rfl

theorem run_lift {α β : Type} {m : Except Fault α} {f : α → Updating β} {r : α}
    (hm : m = .ok r) : StateT.run ((liftM m : Updating α) >>= f) H = (f r).run H := by
  subst hm
  rfl

theorem run_get {β : Type} (f : Heap → Updating β) (H : Heap) :
    StateT.run ((get : Updating Heap) >>= f) H = (f H).run H := rfl

theorem run_address (b : Addr) (H : Heap) : (address (.ref b)).run H = .ok (b, H) := rfl

/-! ### Writing a map -/

/-- A heap after one map of it was written: nothing else has changed. -/
structure Writes (H : Heap) (a : Addr) (c : Option Subclass) (es : List (Value × Value))
    (H' : Heap) : Prop where
  size : H'.size = H.size
  view : H'.view (.ref a) = .map c es
  others : ∀ d, d ≠ a → H'.object d = H.object d

/-- A heap after an empty map came up under another key of a map: nothing else has changed. -/
structure Opens (H : Heap) (a : Addr) (c : Option Subclass) (es : List (Value × Value)) (k : Value)
    (H' : Heap) : Prop where
  size : H'.size = H.size + 1
  view : H'.view (.ref a) = .map c (es ++ [(k, .ref H.size)])
  room : H'.view (.ref H.size) = .map none []
  others : ∀ d < H.size, d ≠ a → H'.object d = H.object d

/-- Entries of objects of the heap. -/
def Placed (es : List (Value × Value)) : Prop :=
  ∀ e ∈ es, (∃ x, e.1 = .ref x) ∧ ∃ y, e.2 = .ref y

theorem placed_of_view (hview : H.view (.ref a) = .map c es) : Placed es := fun _ he =>
  ⟨part_ref (entry_parts hview he).1, part_ref (entry_parts hview he).2⟩

theorem Placed.amend (hes : Placed es) (hk : h.IsKey k) {w : Option Value}
    (hw : ∀ v, w = some v → ∃ b, v = .ref b) : Placed (h.amend k w es) := by
  intro e he
  obtain ⟨hkey, hvalue⟩ := mem_amend he
  constructor
  · rcases hkey with ⟨d, hd, hed⟩ | hek
    · exact hed ▸ (hes d hd).1
    · obtain ⟨-, x, -, rfl⟩ := hk
      exact ⟨x, hek⟩
  · rcases hvalue with he | hv
    · exact (hes e he).2
    · exact hw e.2 hv

/-- Entries whose parts are in the heap are stored as they are. -/
theorem run_internEntries (hes : Placed es) (fs : List (Value × Value)) (H : Heap) :
    ∃ as : List (Addr × Addr), as.map (fun p => (Value.ref p.1, Value.ref p.2)) = es ∧
      (internEntries (es ++ fs)).run H =
        (as ++ ((internEntries fs).run H).1, ((internEntries fs).run H).2) := by
  induction es with
  | nil => exact ⟨[], rfl, rfl⟩
  | cons e es ih =>
    obtain ⟨k, v⟩ := e
    obtain ⟨⟨⟨x, rfl⟩, y, rfl⟩, hrest⟩ := List.forall_mem_cons.mp hes
    obtain ⟨as, has, hrun⟩ := ih hrest
    refine ⟨(x, y) :: as, by rw [List.map_cons, has], ?_⟩
    rw [List.cons_append, internEntries, StateT.run_bind]
    show (do
      let p ← StateT.run (internEntries (es ++ fs)) H
      pure ((x, y) :: p.1, p.2)) = _
    rw [hrun]
    rfl

theorem object_set {o : Object Addr} (ha : 0 < a) (hlt : a < H.size) (d : Addr) :
    (⟨H.cells.setIfInBounds (a - 1) o⟩ : Heap).object d = if d = a then o else H.object d := by
  obtain ⟨i, rfl⟩ : ∃ i, a = i + 1 := Nat.exists_eq_succ_of_ne_zero (Nat.ne_of_gt ha)
  cases d with
  | zero => rfl
  | succ d =>
    show ((H.cells.setIfInBounds i o)[d]?).getD .nil = _
    rw [Array.getElem?_setIfInBounds, if_pos (Nat.lt_of_succ_lt_succ hlt)]
    by_cases hd : i = d
    · subst hd
      rw [if_pos rfl, if_pos rfl]
      rfl
    · rw [if_neg hd, if_neg fun he => hd (Nat.succ_injective he).symm]
      rfl

theorem isMap_pos (ha : H.IsMap (.ref a)) : 0 < a := by
  obtain ⟨c, es, hv⟩ := isMap_ref.mp ha
  cases a with
  | zero => cases hv
  | succ a => exact Nat.succ_pos a

/-- Writing entries of objects of the heap. -/
theorem run_become (ha : H.IsMap (.ref a)) (hes : Placed es) (c : Option Subclass) :
    ∃ H', (become a (.inline (.map c es))).run H = .ok ((), H') ∧ Writes H a c es H' := by
  obtain ⟨as, has, hrun⟩ := run_internEntries hes [] H
  rw [List.append_nil] at hrun
  refine ⟨⟨H.cells.setIfInBounds (a - 1) (.map c as)⟩, ?_, ?_, ?_, fun d hd => ?_⟩
  · show Except.ok ((), ((Heap.tie a (.inline (.map c es))).run H).2) = _
    rw [Heap.tie, StateT.run_bind, internObject, StateT.run_bind, hrun]
    show Except.ok ((), (⟨H.cells.setIfInBounds (a - 1) (.map c (as ++ []))⟩ : Heap)) = _
    rw [List.append_nil]
  · simp [Heap.size]
  · rw [Heap.view, object_set (isMap_pos ha) ha.lt_size, if_pos rfl, Object.mapChildren, has]
  · rw [object_set (isMap_pos ha) ha.lt_size, if_neg hd]

/-- Writing an empty map under another key. -/
theorem run_become_room (ha : H.IsMap (.ref a)) (hes : Placed es) (hk : h.IsKey k)
    (c : Option Subclass) :
    ∃ H', (become a (.inline (.map c (es ++ [(k, .map [])])))).run H = .ok ((), H') ∧
      Opens H a c es k H' := by
  obtain ⟨-, x, -, rfl⟩ := hk
  obtain ⟨as, has, hrun⟩ := run_internEntries hes [(.ref x, .map [])] H
  obtain ⟨haddr, hsize⟩ := size_push H (.map none [])
  have hlt : a < (H.push (.map none [])).1.size := hsize ▸ Nat.lt_succ_of_lt ha.lt_size
  have hlast : (internEntries [(.ref x, .map [])]).run H =
      ([(x, (H.push (.map none [])).2)], (H.push (.map none [])).1) := rfl
  rw [hlast, haddr] at hrun
  refine ⟨⟨(H.push (.map none [])).1.cells.setIfInBounds (a - 1)
    (.map c (as ++ [(x, H.size)]))⟩, ?_, ?_, ?_, ?_, fun d hd hda => ?_⟩
  · show Except.ok ((), ((Heap.tie a (.inline (.map c (es ++ _)))).run H).2) = _
    rw [Heap.tie, StateT.run_bind, internObject, StateT.run_bind, hrun]
    rfl
  · simp [Heap.size, Heap.push]
  · rw [Heap.view, object_set (isMap_pos ha) hlt, if_pos rfl, Object.mapChildren, List.map_append,
      has]
    rfl
  · rw [Heap.view, object_set (isMap_pos ha) hlt, if_neg (Nat.ne_of_gt ha.lt_size)]
    have hobject := object_push H (.map none [])
    rw [haddr] at hobject
    rw [hobject]
    rfl
  · rw [object_set (isMap_pos ha) hlt, if_neg hda, (extends_push H _).object d hd]

/-- The object that a map is. -/
theorem object_of_view (hview : H.view (.ref a) = .map c es) :
    ∃ as, H.object a = .map c as ∧
      as.map (fun p : Addr × Addr => (Value.ref p.1, Value.ref p.2)) = es := by
  rw [Heap.view] at hview
  cases ho : H.object a with
  | map c' as =>
    rw [ho] at hview
    obtain ⟨rfl, hes⟩ := Object.map.inj hview
    exact ⟨as, rfl, hes⟩
  | _ =>
    rw [ho] at hview
    cases hview

/-- Maps that show the same are the same. -/
theorem object_eq_of_view (hview : H.view (.ref a) = .map c es)
    (hview' : H'.view (.ref a) = .map c es) : H'.object a = H.object a := by
  have hinj : Function.Injective fun p : Addr × Addr => (Value.ref p.1, Value.ref p.2) := by
    rintro ⟨x, y⟩ ⟨x', y'⟩ he
    cases he
    rfl
  obtain ⟨as, has, hes⟩ := object_of_view hview
  obtain ⟨as', has', hes'⟩ := object_of_view hview'
  rw [has, has', List.map_injective_iff.mpr hinj (hes'.trans hes.symm)]

/-- A map that is written as it was is the object it was. -/
theorem Writes.extends (hview : H.view (.ref a) = .map c es) (hw : Writes H a c es H') :
    Extends H H' := by
  refine ⟨Nat.le_of_eq hw.size.symm, fun d _ => ?_⟩
  by_cases hda : d = a
  · subst hda
    exact object_eq_of_view hview hw.view
  · exact hw.others d hda

theorem Writes.revises (hw : Writes H a c es H') (ha : H.IsMap (.ref a)) : Revises H H' where
  size := Nat.le_of_eq hw.size.symm
  object d _ hmap := hw.others d fun he => hmap (he ▸ ha)
  isMap d _ hmap := by
    by_cases he : d = a
    · exact he ▸ isMap_ref.mpr ⟨c, es, hw.view⟩
    · rwa [IsMap, mapEntries?, Heap.view, hw.others d he]

theorem Opens.revises (ho : Opens H a c es k H') (ha : H.IsMap (.ref a)) : Revises H H' where
  size := ho.size ▸ Nat.le_succ _
  object d hd hmap := ho.others d hd fun he => hmap (he ▸ ha)
  isMap d hd hmap := by
    by_cases he : d = a
    · exact he ▸ isMap_ref.mpr ⟨c, _, ho.view⟩
    · rwa [IsMap, mapEntries?, Heap.view, ho.others d hd he]

/-- Writing keeps a heap in good order when what is written is. -/
theorem Writes.tidy (hw : Writes H a c es H') (ht : Tidy h H) (ha : H.IsMap (.ref a))
    (hes : h.Indexed es) (hvalues : ∀ e ∈ es, ∃ b < H.size, e.2 = .ref b) : Tidy h H' := by
  have hgrows := hw.revises ha
  refine ⟨ht.toRevises.trans hgrows, fun d hd hle => ?_, fun d c' es' hview => ?_⟩
  · rw [hw.size] at hd
    exact hgrows.isMap d hd (ht.fresh d hd hle)
  · rw [hw.size]
    by_cases hda : d = a
    · subst hda
      rw [hw.view] at hview
      cases hview
      exact ⟨hes, hvalues⟩
    · rw [Heap.view, hw.others d hda] at hview
      exact ht.entries d c' es' hview

theorem Opens.tidy (ho : Opens H a c es k H') (ht : Tidy h H) (hview : H.view (.ref a) = .map c es)
    (hk : h.IsKey k) (hf : h.found? k es = none) : Tidy h H' := by
  have ha : H.IsMap (.ref a) := isMap_ref.mpr ⟨c, es, hview⟩
  have hgrows := ho.revises ha
  have hlt : ∀ {e : Value × Value}, (∃ b < H.size, e.2 = .ref b) → ∃ b < H'.size, e.2 = .ref b := by
    rintro e ⟨b, hb, he⟩
    exact ⟨b, hb.trans_le hgrows.size, he⟩
  obtain ⟨hes, hvalues⟩ := ht.entries a c es hview
  refine ⟨ht.toRevises.trans hgrows, fun d hd hle => ?_, fun d c' es' hview' => ?_⟩
  · rcases Nat.lt_succ_iff_lt_or_eq.mp (ho.size ▸ hd) with hd | rfl
    · exact hgrows.isMap d hd (ht.fresh d hd hle)
    · exact isMap_ref.mpr ⟨_, _, ho.room⟩
  · rcases Nat.lt_succ_iff_lt_or_eq.mp
      (ho.size ▸ (isMap_ref.mpr ⟨c', es', hview'⟩).lt_size) with hd | rfl
    · by_cases hda : d = a
      · subst hda
        rw [ho.view] at hview'
        cases hview'
        constructor
        · have hamend := hes.amend hk (some (.ref H.size))
          rwa [amend_absent hf, Option.map_some, Option.toList_some] at hamend
        · intro e he
          rcases List.mem_append.mp he with he | he
          · exact hlt (hvalues e he)
          · obtain rfl := List.mem_singleton.mp he
            exact ⟨H.size, ho.size ▸ Nat.lt_succ_self _, rfl⟩
      · rw [Heap.view, ho.others d hd hda] at hview'
        obtain ⟨hes', hvalues'⟩ := ht.entries d c' es' hview'
        exact ⟨hes', fun e he => hlt (hvalues' e he)⟩
    · rw [ho.room] at hview'
      cases hview'
      exact ⟨indexed_nil, List.forall_mem_nil _⟩

/-! ### Going through a map -/

theorem run_entriesOf {r : Value} (hr : H.entries? (H.view r) = some us) :
    (entriesOf r us.length).run H = .ok (us, H) := by
  rw [entriesOf, run_get, hr]
  show StateT.run (if us.length = us.length then _ else _) H = _
  rw [if_pos rfl]
  rfl

/-- What every entry of a map preserves, all of them do, as long as the map stays as it is. -/
theorem run_forEntries {I : List (Value × Value) → Heap → Prop}
    {act : Value → Value → Updating Unit}
    (hsame : ∀ ds H, I ds H → H.entries? (H.view u) = some us)
    (hstep : ∀ ds e H, ds ++ [e] <+: us → I ds H →
      ∃ H', (act e.1 e.2).run H = .ok ((), H') ∧ I (ds ++ [e]) H') (hI : I [] H) :
    ∃ H', (forEntries u us.length act us.length).run H = .ok ((), H') ∧ I us H' := by
  -- After `ds` the entries `es` are left, and the counter is their number.
  have hrest : ∀ es ds H, us = ds ++ es → I ds H →
      ∃ H', (forEntries u us.length act es.length).run H = .ok ((), H') ∧ I us H' := by
    intro es
    induction es with
    | nil =>
      intro ds H hus hI
      rw [List.append_nil] at hus
      refine ⟨H, ?_, hus ▸ hI⟩
      rw [List.length_nil, forEntries, run_step (run_entriesOf (hsame ds H hI))]
      rfl
    | cons e es ih =>
      intro ds H hus hI
      have hds : us = ds ++ [e] ++ es := by rw [hus, List.append_assoc, List.singleton_append]
      obtain ⟨H₁, hrun, hI₁⟩ := hstep ds e H ⟨es, hds.symm⟩ hI
      obtain ⟨H₂, hrun₂, hI₂⟩ := ih (ds ++ [e]) H₁ hds hI₁
      refine ⟨H₂, ?_, hI₂⟩
      have hnext : us.getD (us.length - (es.length + 1)) (.nil, .nil) = e := by
        have hlen : us.length - (es.length + 1) = ds.length := by
          rw [hus, List.length_append, List.length_cons]
          exact Nat.add_sub_cancel ..
        rw [hlen, hus, List.getD_eq_getElem?_getD, List.getElem?_append_right (Nat.le_refl _),
          Nat.sub_self]
        rfl
      rw [List.length_cons, forEntries, run_step (run_entriesOf (hsame ds H hI))]
      dsimp only
      rw [hnext, run_step hrun]
      exact hrun₂
  exact hrest us [] H rfl hI

/-! ### Laying an entry -/

/-- What a value that is no map leaves under its key. -/
def kept? (h : Heap) (v : Value) : Option Value := if (h.view v).isNil then none else some v

theorem eq_of_kept? (hw : kept? h v = some w) : w = v := by
  unfold kept? at hw
  split at hw <;> cases hw
  rfl

section Target
variable {t : Value} (hh : h.Sound K) (hr : Revises h H) (hview : H.view t = .map c es)
  (hes : h.Indexed es) (hk : h.IsKey k)
include hh hr hview hes hk

theorem assign_map (v : Value) :
    assign H t k v = .ok (.inline (.map c (h.amend k (some v) es))) := by
  rw [assign, hview]
  exact bind_eq_ok.mpr ⟨_, hr.putEntry hh hes.keys hk v, rfl⟩

theorem remove_map : remove H t k = .ok (.inline (.map c (h.amend k none es))) := by
  rw [remove, hview]
  exact bind_eq_ok.mpr ⟨_, hr.dropEntry hh hes.keys hk, rfl⟩

theorem discard_map : discard H t k = .ok (.inline (.map c (h.amend k none es))) := by
  rw [discard, hview]
  exact remove_map hh hr hview hes hk

end Target

theorem truthy_map (hview : H.view v = .map c es) : H.truthy v = !es.isEmpty := by
  rw [truthy, hview]
  dsimp only
  rw [entries?_of_map]
  rfl

section Entry
variable (hh : h.Sound K) (ht : Tidy h H) (hview : H.view (.ref a) = .map c es) (hk : h.IsKey k)
include hh ht hview hk

theorem holds_map : holds H (.ref a) k = .ok (h.found? k es).isSome := by
  rw [holds, hview]
  exact bind_eq_ok.mpr ⟨_, ht.find? hh (ht.entries a c es hview).1.keys hk, rfl⟩

theorem item_map (hv : h.found? k es = some v) : item H (.ref a) k = .ok v := by
  rw [item, hview]
  refine bind_eq_ok.mpr ⟨_, ht.find? hh (ht.entries a c es hview).1.keys hk, ?_⟩
  rw [hv]
  rfl

/-- **Laying a leaf** writes it under its key, or removes the key. -/
theorem run_updateEntry_leaf (cover : Addr → Value → Updating Unit) (hv : h.Leaf v) :
    ∃ H', (updateEntry false cover a k v).run H = .ok ((), H') ∧
      Writes H a c (h.amend k (kept? h v) es) H' := by
  obtain ⟨b, hb, rfl, hmap⟩ := hv
  have ha : H.IsMap (.ref a) := isMap_ref.mpr ⟨c, es, hview⟩
  have hmapH : ¬ (H.mapEntries? (.ref b)).isSome = true := (ht.isMap_iff hb).not.mpr hmap
  have hplaced : Placed (h.amend k (kept? h (.ref b)) es) :=
    (placed_of_view hview).amend hk fun w hw => ⟨b, eq_of_kept? hw⟩
  obtain ⟨H', hrun, hw⟩ := run_become ha hplaced c
  refine ⟨H', ?_, hw⟩
  rw [updateEntry, run_get, if_neg hmapH, ht.view hb hmap, ← hrun]
  have hes := (ht.entries a c es hview).1
  by_cases hn : (h.view (.ref b)).isNil = true
  · rw [if_pos (by simpa using hn), run_lift (discard_map hh ht.toRevises hview hes hk), kept?,
      if_pos hn]
  · rw [if_neg (by simpa using hn), run_lift (assign_map hh ht.toRevises hview hes hk _), kept?,
      if_neg hn]

/-- A map is laid over what stands under its key. -/
theorem run_updateEntry_found (hv : H.IsMap v) (hf : (h.found? k es).isSome = true) :
    (updateEntry false cover a k v).run H = (updateUnder false cover a k v).run H := by
  rw [updateEntry, run_get, if_pos (show (H.mapEntries? v).isSome = true from hv),
    run_lift (holds_map hh ht hview hk), hf]
  rfl

/-- Where the key is absent a map is laid over an empty one that comes up there. -/
theorem run_updateEntry_absent (hv : H.IsMap v) (hf : h.found? k es = none) :
    ∃ H₁, (updateEntry false cover a k v).run H = (updateUnder false cover a k v).run H₁ ∧
      Opens H a c es k H₁ := by
  have ha : H.IsMap (.ref a) := isMap_ref.mpr ⟨c, es, hview⟩
  obtain ⟨H₁, hrun, ho⟩ := run_become_room ha (placed_of_view hview) hk c
  refine ⟨H₁, ?_, ho⟩
  have hes := (ht.entries a c es hview).1
  have hassign := assign_map hh ht.toRevises hview hes hk (.map [])
  rw [amend_absent hf, Option.map_some, Option.toList_some] at hassign
  rw [updateEntry, run_get, if_pos (show (H.mapEntries? v).isSome = true from hv),
    run_lift (holds_map hh ht hview hk), hf]
  dsimp only [Option.isSome_none]
  rw [if_pos (by rfl), run_lift hassign, run_step hrun]

/-- What is laid under a key stays there, unless it ends up empty. -/
theorem run_updateUnder {es' : List (Value × Value)} {c' : Option Subclass} (ht' : Tidy h H')
    (hview' : H'.view (.ref a) = .map c es) (hb : h.found? k es = some (.ref b))
    (hcover : (cover b v).run H = .ok ((), H')) (hviewb : H'.view (.ref b) = .map c' es') :
    if es' = [] then ∃ H₂, (updateUnder false cover a k v).run H = .ok ((), H₂) ∧
      Writes H' a c (h.amend k none es) H₂
    else (updateUnder false cover a k v).run H = .ok ((), H') := by
  have hrun : (updateUnder false cover a k v).run H =
      StateT.run (if (!H'.truthy (.ref b)) = true then
        (do become a (← remove H' (.ref a) k) : Updating Unit) else pure ()) H' := by
    rw [updateUnder, run_get, run_lift (item_map hh ht hview hk hb), run_step (run_address b H),
      run_step hcover, if_pos (by rfl), run_get, run_lift (item_map hh ht' hview' hk hb)]
  rw [hrun, truthy_map hviewb]
  by_cases he : es' = []
  · have ha : H'.IsMap (.ref a) := isMap_ref.mpr ⟨c, es, hview'⟩
    obtain ⟨H₂, hrun₂, hw⟩ := run_become ha
      ((placed_of_view hview').amend hk (h := h) (w := none) fun _ hw => by cases hw) c
    rw [if_pos he, he]
    refine ⟨H₂, ?_, hw⟩
    have hes := (ht'.entries a c es hview').1
    rw [if_pos (by rfl), run_lift (remove_map hh ht'.toRevises hview' hes hk)]
    exact hrun₂
  · rw [if_neg he, List.isEmpty_eq_false_iff.mpr he]
    rfl

end Entry

end DocDelta.Settings
