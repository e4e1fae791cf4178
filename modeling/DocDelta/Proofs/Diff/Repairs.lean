import DocDelta.Proofs.Document.Shown

/-! Changes that turn one place into another.

A change stands for an edit whose values are documents. Changes repair a place when their edits,
in any order, make something of it that agrees with what is wanted there. Repairs below distinct
names can be put together, and those of a sequence are a push of what is missing or the setting
of items that differ. -/
namespace DocDelta.Diff
open Heap Document
variable {h : Heap} {K : ClassTable} {c e : Option Value} {v : Value}

/-- The names down to a place. -/
def namePath (path : List Label) : List Place := path.map fun l => .name l.text

/-- The edit that a change stands for. What is pushed has names of its own: a map with the name
for several items would be taken for them. -/
inductive Renders (h : Heap) : Change → Edit → Prop
  | set {path : List Label} {v d : Value} (hd : h.document v = .ok d) :
      Renders h (.whole path (.set v)) (namePath path, .set d)
  | unset {path : List Label} : Renders h (.whole path .unset) (namePath path, .unset)
  | push {path : List Label} {items ds : List Value} (hn : items ≠ [])
      (hw : ∀ v ∈ items, h.WellNamed (h.view v))
      (hd : List.Forall₂ (fun v d => h.document v = .ok d) items ds) :
      Renders h (.whole path (.push items)) (namePath path, .push ds)
  | item {path : List Label} {index : Nat} {v d : Value} (hd : h.document v = .ok d) :
      Renders h (.item path index v) (namePath path ++ [.item index], .set d)

theorem Renders.under {change : Change} {e : Edit} (hr : Renders h change e) (l : Label) :
    Renders h (change.under l) (e.under l.text) := by
  cases hr with
  | set hd => exact .set hd
  | unset => exact .unset
  | push hn hw hd => exact .push hn hw hd
  | item hd => exact .item hd

/-- Changes whose edits, in any order, make of one place what agrees with another. -/
def Repairs (h : Heap) (cs : List Change) (c e : Option Value) : Prop :=
  ∃ L, List.Forall₂ (Renders h) cs L ∧
    ∀ M : List Edit, M.Perm L → ∃ r, runEdits h M c = some r ∧ Agree h r e

theorem repairs_nil (ha : Agree h c e) : Repairs h [] c e := by
  refine ⟨[], .nil, fun M hM => ⟨c, ?_, ha⟩⟩
  rw [List.perm_nil.mp hM]
  rfl

/-- A single change at the place itself. -/
theorem repairs_one {action : Action} {edited : Action} {r : Option Value}
    (hr : Renders h (.whole [] action) ([], edited)) (hact : act h edited c = some r)
    (ha : Agree h r e) : Repairs h [.whole [] action] c e := by
  refine ⟨[([], edited)], .cons hr .nil, fun M hM => ⟨r, ?_, ha⟩⟩
  rw [List.perm_singleton.mp hM, runEdits_cons]
  show (act h edited c).bind _ = _
  rw [hact]
  rfl

theorem repairs_set (he : Shows h e v) (hv : h.Fit K v) : Repairs h [.whole [] (.set v)] c e := by
  obtain ⟨d, hd⟩ := he.exists_document hv
  exact repairs_one (.set hd) rfl (he.agree hv hd)

theorem repairs_unset (he : Blank h e) : Repairs h [.whole [] .unset] c e :=
  repairs_one .unset rfl (.blank .absent he)

/-- **Repairs below distinct names are repairs of the whole place**, where what is under the
other names agrees already. -/
theorem repairs_steps {steps : List Step} {as bs : List (Value × Value)}
    (hc : entriesAt h c = some as) (he : entriesAt h e = some bs)
    (hn : (steps.map (·.label.text)).Nodup)
    (hs : ∀ s ∈ steps, Repairs h s.changes ( h.entry? s.label.text as) ( h.entry? s.label.text bs))
    (ho : ∀ n ∉ steps.map (·.label.text), Agree h ( h.entry? n as) ( h.entry? n bs)) :
    Repairs h (steps.flatMap Step.all) c e := by
  choose! edits hrenders hedits using hs
  refine ⟨steps.flatMap fun s => (edits s).map (Edit.under s.label.text), ?_, fun M hM => ?_⟩
  · clear hn ho hedits
    induction steps with
    | nil => exact .nil
    | cons s steps ih =>
      have hs := hrenders s (List.mem_cons_self ..)
      refine List.rel_append ?_ (ih fun t ht => hrenders t (List.mem_cons_of_mem s ht))
      rw [Step.all, List.forall₂_map_left_iff, List.forall₂_map_right_iff]
      exact hs.imp fun change e hr => hr.under s.label
  · have hunder : ∀ e ∈ M, ∃ n e', e = Edit.under n e' := fun e hm => by
      obtain ⟨s, _, he⟩ := List.mem_flatMap.mp (hM.subset hm)
      obtain ⟨e', _, rfl⟩ := List.mem_map.mp he
      exact ⟨_, e', rfl⟩
    -- Below each name the order of the edits is some order of those of its step.
    have hbelow : ∀ n, ∃ r, runEdits h (below n M) ( h.entry? n as) = some r ∧
        Agree h r ( h.entry? n bs) := by
      intro n
      have hperm := below_perm hM n
      by_cases hmem : n ∈ steps.map (·.label.text)
      · obtain ⟨s, hs, rfl⟩ := List.mem_map.mp hmem
        exact hedits s hs _ (hperm.trans (.of_eq (below_flatMap hn hs)))
      · refine ⟨_, ?_, ho n hmem⟩
        have hnil : below n M = [] :=
          List.perm_nil.mp (hperm.trans (.of_eq (below_flatMap_of_notMem hmem)))
        rw [hnil]
        rfl
    choose r hr hagree using hbelow
    obtain ⟨c', es, hrun, hes, hentries⟩ := runEdits_below hunder hc hr
    refine ⟨c', hrun, agree_of_entries hes he fun n => ?_⟩
    rw [hentries n]
    exact hagree n

/-! ### Sequences -/

/-- Two lists without a change are equal as far as the shorter one goes. -/
theorem firstChange_none {i : Nat} {xs ys : List Value} (hs : firstChange h i xs ys = .ok none)
    (hl : xs.length ≤ ys.length) :
    List.Forall₂ (fun x y => h.deepEqual x y = .ok true) xs (ys.take xs.length) := by
  induction xs generalizing i ys with
  | nil => exact .nil
  | cons x xs ih =>
    cases ys with
    | nil => cases hl
    | cons y ys =>
      obtain ⟨equal, hequal, hs⟩ := bind_eq_ok.mp hs
      cases equal with
      | false => cases hs
      | true => exact .cons hequal (ih hs (Nat.le_of_succ_le_succ hl))

/-- The places that are named are those where two lists differ, each named once. -/
theorem changedPlaces_spec {i : Nat} {xs ys : List Value} {changed : List Nat}
    (hs : changedPlaces h i xs ys = .ok changed) :
    changed.Nodup ∧ (∀ j ∈ changed, i ≤ j ∧ j < i + xs.length ∧ j < i + ys.length) ∧
      ∀ k x y, xs[k]? = some x → ys[k]? = some y →
        i + k ∈ changed ∨ h.deepEqual x y = .ok true := by
  induction xs generalizing i ys changed with
  | nil =>
    cases hs
    exact ⟨.nil, nofun, nofun⟩
  | cons x xs ih =>
    cases ys with
    | nil =>
      cases hs
      exact ⟨.nil, nofun, nofun⟩
    | cons y ys =>
      obtain ⟨equal, hequal, hs⟩ := bind_eq_ok.mp hs
      obtain ⟨rest, hrest, hs⟩ := bind_eq_ok.mp hs
      obtain ⟨hn, hbounds, hall⟩ := ih hrest
      have hbounds' : ∀ j ∈ rest, i + 1 ≤ j ∧ j < i + (x :: xs).length ∧ j < i + (y :: ys).length := by
        intro j hj
        obtain ⟨hlow, hx, hy⟩ := hbounds j hj
        simp only [List.length_cons]
        omega
      have hall' : ∀ k u w, xs[k]? = some u → ys[k]? = some w →
          i + (k + 1) ∈ rest ∨ h.deepEqual u w = .ok true := by
        intro k u w hu hw
        have hmem := hall k u w hu hw
        rwa [Nat.add_right_comm, Nat.add_assoc] at hmem
      cases equal with
      | true =>
        obtain rfl : rest = changed := Except.ok.inj hs
        refine ⟨hn, fun j hj => ?_, fun k u w hu hw => ?_⟩
        · obtain ⟨hlow, hrest⟩ := hbounds' j hj
          exact ⟨by omega, hrest⟩
        · cases k with
          | zero =>
            cases hu
            cases hw
            exact .inr hequal
          | succ k => exact hall' k u w hu hw
      | false =>
        obtain rfl : i :: rest = changed := Except.ok.inj hs
        refine ⟨List.nodup_cons.mpr ⟨fun hm => ?_, hn⟩, fun j hj => ?_, fun k u w hu hw => ?_⟩
        · have := (hbounds' i hm).1
          omega
        · rcases List.mem_cons.mp hj with rfl | hj
          · simp only [List.length_cons]
            omega
          · obtain ⟨hlow, hrest⟩ := hbounds' j hj
            exact ⟨by omega, hrest⟩
        · cases k with
          | zero => exact .inl (List.mem_cons_self ..)
          | succ k => exact (hall' k u w hu hw).imp_left (List.mem_cons_of_mem i)

theorem changedPlaces_nil {i : Nat} {xs ys : List Value} (hs : changedPlaces h i xs ys = .ok [])
    (hl : xs.length ≤ ys.length) :
    List.Forall₂ (fun x y => h.deepEqual x y = .ok true) xs (ys.take xs.length) := by
  obtain ⟨_, _, hequal⟩ := changedPlaces_spec hs
  refine List.forall₂_of_length_eq_of_get (by simp [hl]) fun k hk hk' => ?_
  refine (hequal k _ _ (List.getElem?_eq_getElem hk) ?_).resolve_left List.not_mem_nil
  simp

/-- Two sequences that meet, with what shows them. -/
structure Meets (h : Heap) (K : ClassTable) (old new : Value) (c e : Option Value)
    (xs ys ds es : List Value) : Prop where
  fitOld : ∀ x ∈ xs, h.Fit K x
  fitNew : ∀ y ∈ ys, h.Fit K y
  coherent : ∀ x ∈ xs, ∀ y ∈ ys, h.Coherent x y
  itemsAt : itemsAt h c = some ds
  listedOld : IsListed c ds
  listedNew : IsListed e es
  documentsOld : List.Forall₂ (fun x d => h.document x = .ok d) xs ds
  documentsNew : List.Forall₂ (fun y d => h.document y = .ok d) ys es

theorem meets {old new : Value} (ho : h.Fit K old) (hn : h.Fit K new) (hco : h.Coherent old new)
    (hc : Shows h c old) (he : Shows h e new) (hko : (h.view old).kind = .sequence)
    (hkn : (h.view new).kind = .sequence) {xs ys : List Value}
    (hx : (h.view old).items? = some xs) (hy : (h.view new).items? = some ys) :
    ∃ ds es, Meets h K old new c e xs ys ds es := by
  obtain ⟨ds, hds, hdocs, hlisted⟩ := hc.sequence ho hko hx
  obtain ⟨es, _, hdocs', hlisted'⟩ := he.sequence hn hkn hy
  have hpart : ∀ {v : Value} {zs : List Value}, (h.view v).items? = some zs → ∀ z ∈ zs,
      h.Part v z := fun hz z hm => items?_part (by rw [hz]; exact hm)
  exact ⟨ds, es, fun x hm => ho.of_within (.single (hpart hx x hm)),
    fun y hm => hn.of_within (.single (hpart hy y hm)),
    fun x hm y hm' => hco.of_within (.single (hpart hx x hm)) (.single (hpart hy y hm')),
    hds, hlisted, hlisted', hdocs, hdocs'⟩

section Meets
variable {old new : Value} {xs ys ds es : List Value} (hm : Meets h K old new c e xs ys ds es)
include hm

/-- Items that come after a common start are pushed. -/
theorem Meets.extended
    (hstart : List.Forall₂ (fun x y => h.deepEqual x y = .ok true) xs (ys.take xs.length)) :
    Repairs h (pushed (ys.drop xs.length)) c e := by
  have hdocs := List.forall₂_take xs.length hm.documentsNew
  have hdrop := List.forall₂_drop xs.length hm.documentsNew
  have hsame : List.Forall₂ (Same h) ds (es.take xs.length) :=
    forall₂_square hstart hm.documentsOld hdocs fun x hx y hy d e hxy hd he =>
      same_of_deepEqual (hm.fitOld x hx) (hm.fitNew y (List.mem_of_mem_take hy))
        (hm.coherent x hx y (List.mem_of_mem_take hy)) hxy hd he
  have hall : List.Forall₂ (Same h) (ds ++ es.drop xs.length) es := by
    have hrest : List.Forall₂ (Same h) (es.drop xs.length) (es.drop xs.length) :=
      List.forall₂_same.mpr fun d _ => .self d
    have happend : List.Forall₂ (Same h) (ds ++ es.drop xs.length)
        (es.take xs.length ++ es.drop xs.length) := List.rel_append hsame hrest
    rwa [List.take_append_drop] at happend
  unfold pushed
  split
  · rename_i hnil
    rw [List.isEmpty_iff.mp hnil, List.forall₂_nil_left_iff] at hdrop
    rw [hdrop, List.append_nil] at hall
    exact repairs_nil (agree_of_listed hm.listedOld hm.listedNew hall)
  · rename_i hne
    have hne : ys.drop xs.length ≠ [] := fun he => hne (List.isEmpty_iff.mpr he)
    have hact : act h (.push (es.drop xs.length)) c = some (some (.list (ds ++ es.drop xs.length))) := by
      rw [act, hm.itemsAt]
      rfl
    refine repairs_one (.push hne (fun y hy => ?_) hdrop) hact
      (agree_of_listed .written hm.listedNew hall)
    exact (hm.fitNew y (List.mem_of_mem_drop hy)).wellNamed.here

theorem Meets.renders_items {changed : List Nat} (hb : ∀ i ∈ changed, i < ys.length) :
    List.Forall₂ (Renders h) (changed.map fun i => .item [] i ((ys[i]?).getD .nil))
      (setItems (changed.map fun i => (i, (es[i]?).getD .nil))) := by
  rw [setItems, List.map_map, List.forall₂_map_left_iff, List.forall₂_map_right_iff]
  refine List.forall₂_same.mpr fun i hi => ?_
  show Renders h (.item [] i ((ys[i]?).getD .nil)) (namePath [] ++ [.item i], .set ((es[i]?).getD .nil))
  apply Renders.item
  have hlt := hb i hi
  have hlt' : i < es.length := hm.documentsNew.length_eq ▸ hlt
  have hdoc := hm.documentsNew.get hlt hlt'
  simpa [List.getElem?_eq_getElem hlt, List.getElem?_eq_getElem hlt'] using hdoc

/-- A list that has the new items at some places and the old ones at the others, where they are
equal, is the same as the new list. -/
theorem Meets.same_items (hl : xs.length = ys.length) {set : List Nat} {rs : List Value}
    (hr : rs.length = ds.length) (hset : ∀ i ∈ set, rs[i]? = es[i]?)
    (hother : ∀ i ∉ set, rs[i]? = ds[i]?)
    (hequal : ∀ i ∉ set, ∀ x y, xs[i]? = some x → ys[i]? = some y → h.deepEqual x y = .ok true) :
    List.Forall₂ (Same h) rs es := by
  have hld := hm.documentsOld.length_eq
  have hle := hm.documentsNew.length_eq
  refine List.forall₂_of_length_eq_of_get (by omega) fun i hi hi' => ?_
  show Same h rs[i] es[i]
  by_cases hmem : i ∈ set
  · have hd := hset i hmem
    rw [List.getElem?_eq_getElem hi, List.getElem?_eq_getElem hi'] at hd
    rw [Option.some.inj hd]
    exact .self _
  · have hd := hother i hmem
    rw [List.getElem?_eq_getElem hi, List.getElem?_eq_getElem (hr ▸ hi)] at hd
    have hx : i < xs.length := by omega
    have hy : i < ys.length := by omega
    have heq := hequal i hmem xs[i] ys[i] (List.getElem?_eq_getElem hx) (List.getElem?_eq_getElem hy)
    rw [Option.some.inj hd]
    exact same_of_deepEqual (hm.fitOld _ (List.getElem_mem hx)) (hm.fitNew _ (List.getElem_mem hy))
      (hm.coherent _ (List.getElem_mem hx) _ (List.getElem_mem hy)) heq
      (hm.documentsOld.get hx (hr ▸ hi)) (hm.documentsNew.get hy hi')

/-- Items that differ are set. -/
theorem Meets.updated (hl : xs.length = ys.length) {changed : List Nat}
    (hs : changedPlaces h 0 xs ys = .ok changed) :
    Repairs h (changed.map fun i => .item [] i ((ys[i]?).getD .nil)) c e := by
  obtain ⟨hnodup, hbounds, hequal⟩ := changedPlaces_spec hs
  have hld := hm.documentsOld.length_eq
  have hle := hm.documentsNew.length_eq
  have hbound : ∀ i ∈ changed, i < ys.length := fun i hi => by
    have := hbounds i hi
    omega
  refine ⟨_, hm.renders_items hbound, fun M hM => ?_⟩
  obtain ⟨updates, rfl, hp⟩ := setItems_perm hM
  have hplaces : (updates.map (·.1)).Perm changed := by
    simpa [Function.comp_def] using hp.map (·.1)
  cases hm.listedOld with
  | omitted =>
    -- Where there is no list there are no items, hence none that differ.
    obtain rfl : es = [] := List.eq_nil_of_length_eq_zero (by rw [← hle, ← hl, hld]; rfl)
    obtain rfl : changed = [] := List.eq_nil_iff_forall_not_mem.mpr fun i hi =>
      absurd (hbound i hi) (by simp [hle])
    obtain rfl : updates = [] := List.map_eq_nil_iff.mp (List.perm_nil.mp hplaces)
    exact ⟨none, rfl, agree_of_listed .omitted hm.listedNew .nil⟩
  | written =>
    have hvalues : ∀ u ∈ updates, es[u.1]? = some u.2 := fun u hu => by
      obtain ⟨i, hi, rfl⟩ := List.mem_map.mp (hp.subset hu)
      have hlt : i < es.length := hle ▸ hbound i hi
      simp [hlt]
    obtain ⟨rs, hrun, hlength, hset, hother⟩ := runEdits_setItems (h := h) ds
      (hplaces.symm.nodup hnodup) fun u hu => by
        have := hbound u.1 (hplaces.subset (List.mem_map_of_mem hu))
        omega
    refine ⟨_, hrun, agree_of_listed .written hm.listedNew
      (hm.same_items hl hlength (fun i hi => ?_) hother fun i hi x y hx hy => ?_)⟩
    · obtain ⟨u, hu, rfl⟩ := List.mem_map.mp hi
      rw [hset u hu, hvalues u hu]
    · refine (hequal i x y hx hy).resolve_left fun hc => hi (hplaces.symm.subset ?_)
      rwa [Nat.zero_add] at hc

end Meets

end DocDelta.Diff
