import Mathlib.Data.List.Perm.Basic
import DocDelta.Proofs.Diff.Pairing
import DocDelta.Proofs.Diff.Paths
import DocDelta.Proofs.Diff.Termination
import DocDelta.Proofs.Value.Bisimilarity

/-! Merging two sequences.

Merging pairs every new item with an old one that stands for the same thing, as long as there
is one, and then records one reconciliation: the old sequence is kept, replaced, removed,
extended or updated at some of its places. What matters is what that makes of the old items.
An old item whose partner is deeply equal may stay, one with another partner is replaced by it
at its place, and new items without a partner come at the end. Since a pairing never uses an
old item twice and accounts for every new item (`Accounts`), the outcome is the new items in
some order, up to deep equality.

The similarity by which partners are found does not matter for that, so nothing is asked of
it. A comparison with a signaling NaN may fail; then nothing has been recorded. -/
namespace DocDelta.Diff
open Heap
variable {h : Heap} {path : Label}

/-! ### Setting items -/

/-- A list with some of its places set. -/
def setAll (xs : List Value) (us : List (Nat × Value)) : List Value :=
  us.foldl (fun xs u => xs.set u.1 u.2) xs

@[simp] theorem length_setAll (xs : List Value) (us : List (Nat × Value)) :
    (setAll xs us).length = xs.length := by
  induction us generalizing xs with
  | nil => rfl
  | cons u us ih => exact (ih _).trans List.length_set

/-- A place that is not set keeps its item. -/
theorem setAll_of_notMem (xs : List Value) {us : List (Nat × Value)} {i : Nat}
    (hi : i ∉ us.map (·.1)) : (setAll xs us)[i]? = xs[i]? := by
  induction us generalizing xs with
  | nil => rfl
  | cons u us ih =>
    rw [List.map_cons, List.mem_cons, not_or] at hi
    exact (ih _ hi.2).trans (List.getElem?_set_ne (Ne.symm hi.1))

/-- A place that is set once has the item it was set to. -/
theorem setAll_of_mem (xs : List Value) {us : List (Nat × Value)} {u : Nat × Value}
    (hn : (us.map (·.1)).Nodup) (hu : u ∈ us) (hl : u.1 < xs.length) :
    (setAll xs us)[u.1]? = some u.2 := by
  induction us generalizing xs with
  | nil => cases hu
  | cons w us ih =>
    rw [List.map_cons, List.nodup_cons] at hn
    rcases List.mem_cons.mp hu with rfl | hu
    · exact (setAll_of_notMem _ hn.1).trans (List.getElem?_set_self hl)
    · exact ih _ hn.2 hu (by rwa [List.length_set])

/-! ### What a pairing accounts for -/

/-- An item that stands for another in the outcome: it is that item, or deeply equal to it. -/
def Stands (h : Heap) (x z : Value) : Prop := x = z ∨ h.deepEqual x z = .ok true

/-- Every old place is kept with a partner that equals it, updated or not used yet, and every
new item `zs` so far is a partner, an update or an addition. -/
structure Accounts (h : Heap) (xs zs : List Value) (p : Pairing) (kept : List (Nat × Value)) :
    Prop where
  places : ((kept ++ p.updates ++ p.unused).map (·.1)).Perm (List.range xs.length)
  items : zs.Perm ((kept ++ p.updates).map (·.2) ++ p.additions)
  equal : ∀ e ∈ kept, ∀ x, xs[e.1]? = some x → h.deepEqual x e.2 = .ok true
  own : ∀ e ∈ p.unused, xs[e.1]? = some e.2

theorem accounts_start (xs : List Value) :
    Accounts h xs [] ⟨xs.zipIdx.map fun (x, i) => (i, x), [], []⟩ [] := by
  refine ⟨?_, .refl _, nofun, fun e he => ?_⟩
  · simp only [List.nil_append, List.map_map, Function.comp_def]
    rw [List.zipIdx_map_snd, ← List.range_eq_range']
  · obtain ⟨⟨x, i⟩, hm, rfl⟩ := List.mem_map.mp he
    exact List.mem_zipIdx_iff_getElem?.mp hm

/-- Using up one old item takes it out of those that are left. -/
theorem unused_perm {us : List (Nat × Value)} {e : Nat × Value} (hn : (us.map (·.1)).Nodup)
    (he : e ∈ us) : us.Perm (e :: us.filter fun d => d.1 != e.1) := by
  induction us with
  | nil => cases he
  | cons u us ih =>
    rw [List.map_cons, List.nodup_cons] at hn
    rcases List.mem_cons.mp he with rfl | he
    · have hall : us.filter (fun d => d.1 != e.1) = us := by
        refine List.filter_eq_self.mpr fun d hd => bne_iff_ne.mpr fun hde => hn.1 ?_
        exact hde ▸ List.mem_map_of_mem hd
      rw [List.filter_cons_of_neg (by simp), hall]
    · have hne : u.1 ≠ e.1 := fun heq => hn.1 (heq ▸ List.mem_map_of_mem he)
      rw [List.filter_cons_of_pos (p := fun d : Nat × Value => d.1 != e.1) (bne_iff_ne.mpr hne)]
      exact ((ih hn.2 he).cons u).trans (.swap ..)

/-- One more item is accounted for. -/
theorem Accounts.pairs {xs zs : List Value} {p q : Pairing} {kept : List (Nat × Value)} {y : Value}
    (ha : Accounts h xs zs p kept) (hq : Pairs h y p q) :
    ∃ kept, Accounts h xs (zs ++ [y]) q kept := by
  classical
  have hunused : (p.unused.map (·.1)).Nodup := by
    have hall := ha.places.nodup_iff.mpr List.nodup_range
    rw [List.map_append] at hall
    exact (List.nodup_append.mp hall).2.1
  have hown : ∀ j, ∀ d ∈ p.unused.filter (fun d => d.1 != j), xs[d.1]? = some d.2 :=
    fun j d hd => ha.own d (List.mem_of_mem_filter hd)
  cases hq with
  | added =>
    refine ⟨kept, ha.places, ?_, ha.equal, ha.own⟩
    rw [← List.append_assoc]
    exact ha.items.append_right [y]
  | @found e he hd =>
    refine ⟨kept ++ [(e.1, y)], ?_, ?_, fun d hd' x hx => ?_, hown e.1⟩
    · refine .trans (List.perm_iff_count.mpr fun i => ?_) ha.places
      have hcount := ((unused_perm hunused he).map (·.1)).count_eq i
      simp only [List.map_append, List.map_cons, List.map_nil, List.count_append,
        List.count_cons, List.count_nil] at hcount ⊢
      omega
    · refine .trans (ha.items.append_right [y]) (List.perm_iff_count.mpr fun v => ?_)
      simp only [List.map_append, List.map_cons, List.map_nil, List.count_append]
      omega
    · rcases List.mem_append.mp hd' with hd' | hd'
      · exact ha.equal d hd' x hx
      · obtain rfl := List.mem_singleton.mp hd'
        obtain rfl : e.2 = x := Option.some.inj ((ha.own e he).symm.trans hx)
        exact hd
  | @updated e he =>
    refine ⟨kept, ?_, ?_, ha.equal, hown e.1⟩
    · refine .trans (List.perm_iff_count.mpr fun i => ?_) ha.places
      have hcount := ((unused_perm hunused he).map (·.1)).count_eq i
      simp only [List.map_append, List.map_cons, List.map_nil, List.count_append,
        List.count_cons, List.count_nil] at hcount ⊢
      omega
    · refine .trans (ha.items.append_right [y]) (List.perm_iff_count.mpr fun v => ?_)
      simp only [List.map_append, List.map_cons, List.map_nil, List.count_append]
      omega

/-- A pairing accounts for all new items. -/
theorem accounts_pairUp {xs ys : List Value} {p : Pairing} (hp : pairUp h xs ys = .ok p) :
    ∃ kept, Accounts h xs ys p kept :=
  pairUp_grows (P := fun zs p => ∃ kept, Accounts h xs zs p kept) ⟨[], accounts_start xs⟩
    (fun ⟨_, ha⟩ hq => ha.pairs hq) hp

/-- Where no old item is left over, setting the updates and adding the additions makes the new
items, in some order. -/
theorem Accounts.outcome {xs ys : List Value} {p : Pairing} {kept : List (Nat × Value)}
    (ha : Accounts h xs ys p kept) (hu : p.unused = []) :
    ∃ zs : List Value, zs.Perm ys ∧
      List.Forall₂ (Stands h) (setAll xs p.updates ++ p.additions) zs := by
  have hplaces := ha.places
  rw [hu, List.append_nil] at hplaces
  have hnodup : ((kept ++ p.updates).map (·.1)).Nodup := hplaces.nodup_iff.mpr List.nodup_range
  -- The partners in the order of the places they belong to.
  obtain ⟨ws, hws, hperm⟩ := List.perm_comp_forall₂ (r := fun i (e : Nat × Value) => i = e.1)
    hplaces.symm (List.forall₂_map_left_iff.mpr (List.forall₂_same.mpr fun _ _ => rfl))
  obtain ⟨hlength, hplace⟩ := List.forall₂_iff_get.mp hws
  refine ⟨ws.map (·.2) ++ p.additions,
    ((hperm.map _).append_right p.additions).trans ha.items.symm, List.rel_append ?_
      (List.forall₂_same.mpr fun _ _ => .inl rfl)⟩
  rw [List.length_range] at hlength
  refine List.forall₂_iff_get.mpr ⟨by simp [hlength], fun i hi hi' => ?_⟩
  have hset : i < (setAll xs p.updates).length := hi
  rw [length_setAll] at hi
  have hw : i < ws.length := hlength ▸ hi
  have hplace : i = ws[i].1 := by
    have := hplace i (by simpa using hi) hw
    simpa using this
  have hmem : ws[i] ∈ kept ++ p.updates := hperm.subset (List.getElem_mem hw)
  simp only [List.get_eq_getElem, List.getElem_map]
  rcases List.mem_append.mp hmem with hkept | hupdated
  · have hkeep : i ∉ p.updates.map (·.1) := by
      rw [List.map_append] at hnodup
      exact fun hin => (List.nodup_append.mp hnodup).2.2 i
        (hplace ▸ List.mem_map_of_mem hkept) i hin rfl
    have hitem : (setAll xs p.updates)[i] = xs[i] := by
      have hat := setAll_of_notMem xs hkeep
      rwa [List.getElem?_eq_getElem hset, List.getElem?_eq_getElem hi, Option.some.injEq] at hat
    rw [hitem]
    refine .inr (ha.equal _ hkept _ ?_)
    rw [← hplace, List.getElem?_eq_getElem hi]
  · have hat := setAll_of_mem xs (u := ws[i])
      (by rw [List.map_append] at hnodup; exact (List.nodup_append.mp hnodup).2.1) hupdated
      (hplace ▸ hi)
    rw [← hplace, List.getElem?_eq_getElem hset, Option.some.injEq] at hat
    exact .inl hat

/-! ### Reconciliations -/

/-- How a sequence is brought in line with another. -/
inductive Reconciliation
  | keep
  | replace (v : Value)
  | remove
  | extend (vs : List Value)
  | update (us : List (Nat × Value))

namespace Reconciliation

/-- The operations that a reconciliation is recorded as: nothing, one operation on the whole
sequence, or one operation for each item that is set. -/
def groups (path : Label) : Reconciliation → List Group
  | keep => []
  | replace v => [⟨.set, none, [(path, v)]⟩]
  | remove => [⟨.unset, none, [(path, .text "")]⟩]
  | extend [v] => [⟨.push, none, [(path, v)]⟩]
  | extend vs => [⟨.push, none, [(path, .table [(Operator.each, .list vs)])]⟩]
  | update us => [⟨.set, none, us.zipIdx.map fun u => (joinPath path (placeName u.2), u.1.2)⟩]

/-- The filters that tie the items that are set to their places. -/
def filters : Reconciliation → List Value
  | update us => us.zipIdx.map fun u => placeFilter u.2 u.1.1
  | _ => []

/-- What a reconciliation makes of the items. -/
def items (h : Heap) (xs : List Value) : Reconciliation → List Value
  | keep => xs
  | replace v => (h.view v).items?.getD []
  | remove => []
  | extend vs => xs ++ vs
  | update us => setAll xs us

/-- Something is pushed if anything is, and the places that are set are places of the old
sequence, each set once. -/
def Proper (n : Nat) : Reconciliation → Prop
  | extend vs => vs ≠ []
  | update us => us ≠ [] ∧ (us.map (·.1)).Nodup ∧ ∀ u ∈ us, u.1 < n
  | _ => True

/-- What is recorded of a pairing that leaves no old item over. -/
def ofPairing (p : Pairing) : Reconciliation :=
  if p.additions ≠ [] then .extend p.additions
  else if p.updates ≠ [] then .update p.updates
  else .keep

end Reconciliation

/-- How merging reconciles two sequences with these items. -/
inductive Merges (h : Heap) (old new : Value) (xs ys : List Value) : Reconciliation → Prop
  | same (hd : h.deepEqual old new = .ok true) : Merges h old new xs ys .keep
  | replaced : Merges h old new xs ys (.replace new)
  | emptied (hy : ys = []) : Merges h old new xs ys .remove
  | paired {p : Pairing} (hp : pairUp h xs ys = .ok p) (hu : p.unused = [])
      (hone : p.updates = [] ∨ p.additions = []) : Merges h old new xs ys (.ofPairing p)

section Merges
variable {old new : Value} {xs ys : List Value} {c : Reconciliation}

theorem Merges.proper (hm : Merges h old new xs ys c) : c.Proper xs.length := by
  cases hm with
  | same => trivial
  | replaced => trivial
  | emptied => trivial
  | @paired p hp =>
    obtain ⟨hnodup, hbound⟩ := used_pairUp hp
    unfold Reconciliation.ofPairing
    split
    · assumption
    · split
      · refine ⟨‹_›, ?_, fun u hu => hbound u (List.mem_append_right _ hu)⟩
        rw [List.map_append] at hnodup
        exact (List.nodup_append.mp hnodup).2.1
      · trivial

/-- Deeply equal sequences have deeply equal items. -/
theorem stands_of_deepEqual (hk : (h.view old).kind = .sequence)
    (hx : (h.view old).items? = some xs) (hy : (h.view new).items? = some ys)
    (hd : h.deepEqual old new = .ok true) : List.Forall₂ (Stands h) xs ys := by
  have hr := bisimulation_bisimilar old new (deepEqual_eq_true.mp hd)
  cases hs : Value.isSame h old new with
  | true =>
    rw [view_eq_of_isSame hs, hy] at hx
    cases hx
    exact List.forall₂_same.mpr fun _ _ => .inl rfl
  | false =>
    have hitems := hr.sequence_parts hs hk
    rw [hx, hy] at hitems
    exact hitems.imp fun _ _ hxy => .inr (deepEqual_eq_true.mpr hxy)

/-- A merge makes the new items of the old ones, in some order. -/
theorem Merges.outcome (hm : Merges h old new xs ys c) (hk : (h.view old).kind = .sequence)
    (hx : (h.view old).items? = some xs) (hy : (h.view new).items? = some ys) :
    ∃ zs : List Value, zs.Perm ys ∧ List.Forall₂ (Stands h) (c.items h xs) zs := by
  cases hm with
  | same hd => exact ⟨ys, .refl ys, stands_of_deepEqual hk hx hy hd⟩
  | replaced =>
    refine ⟨ys, .refl ys, ?_⟩
    rw [Reconciliation.items, hy]
    exact List.forall₂_same.mpr fun _ _ => .inl rfl
  | emptied hy => exact ⟨[], .of_eq hy.symm, .nil⟩
  | @paired p hp hu hone =>
    obtain ⟨kept, ha⟩ := accounts_pairUp hp
    obtain ⟨zs, hperm, hstands⟩ := ha.outcome hu
    refine ⟨zs, hperm, ?_⟩
    unfold Reconciliation.ofPairing
    split
    · rename_i hadded
      rw [hone.resolve_right hadded] at hstands
      exact hstands
    · rename_i hadded
      rw [not_not.mp hadded, List.append_nil] at hstands
      split
      · exact hstands
      · rename_i hupdated
        rw [not_not.mp hupdated] at hstands
        exact hstands

end Merges

/-! ### Recording -/

/-- Names for distinct places below one path are distinct paths. -/
theorem joinPath_placeName_inj {m n : Nat}
    (he : (joinPath path (placeName m)).text = (joinPath path (placeName n)).text) : m = n := by
  unfold joinPath at he
  split at he
  · exact placeName_inj he
  · refine placeName_inj (String.toList_injective ?_)
    have hlist := congrArg String.toList he
    simpa [Label.plain, String.toList_append] using hlist

/-- A patch whose only operations set items of the sequence at a path, in order of their
placeholders. -/
structure SetsItems (path : Label) (us : List (Nat × Value)) (p : Patch) : Prop where
  groups : p.groups = if us = [] then [] else (Reconciliation.update us).groups path
  filters : p.filters = (Reconciliation.update us).filters

theorem setsItems_empty (path : Label) : SetsItems path [] .empty := ⟨rfl, rfl⟩

/-- An operation on a path that its group does not have yet comes at the end of the group. -/
theorem putUnder_fresh {fs : List (Label × Value)} {l : Label} (v : Value)
    (hf : ∀ f ∈ fs, f.1.text ≠ l.text) :
    Patch.putUnder .set l v (Patch.release .set l.text [⟨.set, none, fs⟩]) =
      [⟨.set, none, fs ++ [(l, v)]⟩] := by
  have hnew : Group.has ⟨.set, none, fs⟩ l.text = false := by
    simpa [Group.has] using hf
  simp [Patch.putUnder, Patch.release, Group.put, hnew]

/-- Setting one more item comes behind those set before. -/
theorem SetsItems.setAt {us : List (Nat × Value)} {s : State} (hs : SetsItems path us s.patch)
    (hl : s.labels = us.length) (u : Nat × Value) :
    ∃ t, (Diff.setAt u.1 u.2 path).run s = (.ok (), t) ∧ SetsItems path (us ++ [u]) t.patch ∧
      t.labels = (us ++ [u]).length := by
  refine ⟨_, rfl, ⟨?_, ?_⟩, ?_⟩
  · show Patch.putUnder .set (joinPath path (placeName s.labels)) u.2
      (Patch.release .set (joinPath path (placeName s.labels)).text s.patch.groups) = _
    rw [hs.groups, hl, if_neg (List.append_ne_nil_of_right_ne_nil us (List.cons_ne_nil u []))]
    split
    · rename_i hnil
      rw [hnil]
      rfl
    · rw [Reconciliation.groups, putUnder_fresh u.2 fun f hf htext => ?_, Reconciliation.groups,
        List.zipIdx_append, List.map_append, Nat.zero_add]
      · rfl
      · obtain ⟨⟨w, n⟩, hw, rfl⟩ := List.mem_map.mp hf
        have hlt := List.snd_lt_of_mem_zipIdx hw
        have := joinPath_placeName_inj htext
        omega
  · show s.patch.filters ++ [placeFilter s.labels u.1] = _
    rw [hs.filters, hl]
    simp [Reconciliation.filters, List.zipIdx_append]
  · show s.labels + 1 = _
    rw [hl, List.length_append]
    rfl

/-- Setting the items of a list one after another. -/
theorem run_setItems {us : List (Nat × Value)} (ws : List (Nat × Value)) {s : State}
    (hs : SetsItems path us s.patch) (hl : s.labels = us.length) :
    ∃ t, (ws.forM fun (i, item) => Diff.setAt i item path).run s = (.ok (), t) ∧
      SetsItems path (us ++ ws) t.patch := by
  induction ws generalizing us s with
  | nil => exact ⟨s, rfl, by rwa [List.append_nil]⟩
  | cons w ws ih =>
    obtain ⟨u, hu, hset, hlabels⟩ := hs.setAt hl w
    obtain ⟨t, ht, hall⟩ := ih hset hlabels
    refine ⟨t, ?_, by rwa [List.append_cons]⟩
    rw [forM_cons, run_bind_eq hu]
    exact ht

/-! ### The run -/

/-- What a state carries after a reconciliation at a path. -/
structure Carries (path : Label) (c : Reconciliation) (t : State) : Prop where
  groups : t.patch.groups = c.groups path
  filters : t.patch.filters = c.filters

section Run
variable {old new : Value} {xs ys : List Value}

theorem run_unlessEqual (body : Walk Unit) (s : State) :
    (unlessEqual h old new body).run s = match h.deepEqual old new with
      | .ok true => (.ok (), s)
      | .ok false => body.run s
      | .error e => (.error e, s) := by
  rw [unlessEqual, run_bind, run_ask]
  rcases h.deepEqual old new with e | _ | _ <;> rfl

/-- Falling back replaces sequences that are not deeply equal. -/
theorem run_fallBack (reason : String) (hd : h.deepEqual old new = .ok false) (s : State) :
    ∃ t, (fallBack h reason old new path).run s = (.ok (), t) ∧ t.patch = s.patch.set path new := by
  have hrun : ∀ s : State, (replaceSequence h old new path).run s =
      (.ok (), { s with patch := s.patch.set path new }) := by
    intro s
    rw [replaceSequence, run_unlessEqual, hd]
    rfl
  exact ⟨_, hrun _, rfl⟩

/-- A pairing that leaves no old item over is recorded as one reconciliation. -/
theorem run_paired (path : Label) (p : Pairing) :
    ∃ t, (if !p.additions.isEmpty then onPatch (·.push path p.additions)
        else p.updates.forM fun (i, item) => Diff.setAt i item path).run .start = (.ok (), t) ∧
      Carries path (.ofPairing p) t := by
  unfold Reconciliation.ofPairing
  split
  · rename_i hadded
    have hne : p.additions ≠ [] := by simpa using hadded
    rw [if_pos hne]
    refine ⟨_, rfl, ?_⟩
    match hp : p.additions with
    | [] => exact absurd hp hne
    | [v] => exact ⟨rfl, rfl⟩
    | v :: w :: vs => exact ⟨rfl, rfl⟩
  · rename_i hadded
    have hnil : p.additions = [] := by simpa using hadded
    obtain ⟨t, ht, hsets⟩ := run_setItems (s := .start) p.updates (setsItems_empty path) rfl
    refine ⟨t, ht, ?_⟩
    rw [if_neg (not_not.mpr hnil)]
    have hgroups := hsets.groups
    have hfilters := hsets.filters
    rw [List.nil_append] at hgroups hfilters
    split
    · rename_i hne
      exact ⟨by rwa [if_neg hne] at hgroups, hfilters⟩
    · rename_i hnone
      rw [not_not.mp hnone] at hgroups hfilters
      exact ⟨hgroups, hfilters⟩

/-- Merging two sequences does one reconciliation, or fails before it records anything. -/
theorem run_mergeSequence (path : Label) (hko : (h.view old).kind = .sequence)
    (hkn : (h.view new).kind = .sequence) (hx : (h.view old).items? = some xs)
    (hy : (h.view new).items? = some ys) :
    (∃ c t, (mergeSequence h old new path).run .start = (.ok (), t) ∧
        Merges h old new xs ys c ∧ Carries path c t) ∨
      ∃ e, (mergeSequence h old new path).run .start = (.error e, .start) ∧
        (h.deepEqual old new = .error e ∨ pairUp h xs ys = .error e) := by
  have hox := itemsOf_items hko hx
  have hny := itemsOf_items hkn hy
  rw [mergeSequence, run_unlessEqual]
  rcases hd : h.deepEqual old new with e | _ | _
  · exact .inr ⟨e, rfl, .inl rfl⟩
  · have hfallBack : ∀ reason, ∃ c t, (fallBack h reason old new path).run .start = (.ok (), t) ∧
        Merges h old new xs ys c ∧ Carries path c t := fun reason => by
      obtain ⟨t, ht, hset⟩ := run_fallBack reason hd .start
      exact ⟨_, t, ht, .replaced, by rw [hset]; rfl, by rw [hset]; rfl⟩
    simp only [run_bind, run_ask, hox]
    split
    · exact .inl ⟨.replace new, _, rfl, .replaced, rfl, rfl⟩
    simp only [run_bind, run_ask, hny]
    split
    · rename_i hempty
      exact .inl ⟨.remove, _, rfl, .emptied (List.isEmpty_iff.mp hempty), rfl, rfl⟩
    split
    · exact .inl (hfallBack _)
    rw [run_bind, run_ask]
    rcases hp : pairUp h xs ys with e | p
    · exact .inr ⟨e, rfl, .inr rfl⟩
    refine .inl ?_
    dsimp only
    split
    · exact hfallBack _
    rename_i hunused
    split
    · exact hfallBack _
    rename_i hmixed
    have hunused : p.unused = [] := by simpa using hunused
    have hone : p.updates = [] ∨ p.additions = [] := by
      by_contra hboth
      exact hmixed (by simpa [not_or] using hboth)
    obtain ⟨t, ht, hcarries⟩ := run_paired path p
    exact ⟨_, t, ht, .paired hp hunused hone, hcarries⟩
  · exact .inl ⟨.keep, .start, rfl, .same hd, rfl, rfl⟩

end Run

/-! ### Merging -/

/-- A merge has reconciled two sequences: the state holds the operations of one reconciliation,
and what that makes of the old items are the new ones, in some order and up to deep equality. -/
def Merged (h : Heap) (old new : Value) (path : Label) (t : State) : Prop :=
  ∃ c : Reconciliation, c.Proper ((h.view old).items?.getD []).length ∧
    t.patch.groups = c.groups path ∧ t.patch.filters = c.filters ∧
      ∃ zs : List Value, zs.Perm ((h.view new).items?.getD []) ∧
        List.Forall₂ (Stands h) (c.items h ((h.view old).items?.getD [])) zs

/-- Two lists of records with an identifier each, one of them changed and in another order. -/
def shelves : Heap :=
  ⟨#[.int none 1, .int none 2, .int none 3, .int none 4,
    .record ⟨"Book", .freeform⟩ [("id", 1), ("pages", 3)],
    .record ⟨"Book", .freeform⟩ [("id", 2), ("pages", 3)],
    .record ⟨"Book", .freeform⟩ [("id", 2), ("pages", 3)],
    .record ⟨"Book", .freeform⟩ [("id", 1), ("pages", 4)],
    .list none [5, 6], .list none [7, 8]]⟩

theorem sane_shelves (a : Addr) : shelves.Sane (fun _ => .record ⟨"Book", .freeform⟩) (.ref a) := by
  refine ⟨everywhere_ref trivial ?_ a, everywhere_ref trivial ?_ a,
    everywhere_ref (Object.follows_nil _) (by decide) a⟩
  all_goals
    intro a ha
    change a < 11 at ha
    interval_cases a <;> trivial

/-- Two lists of one signaling NaN each. -/
def signals : Heap :=
  ⟨#[.decimal (.nan false true 0), .decimal (.nan false true 0), .list none [1], .list none [2]]⟩

end DocDelta.Diff
