import Mathlib.Logic.Equiv.Basic
import DocDelta.Proofs.Diff.Placeholders
import DocDelta.Proofs.Diff.Renumbered

/-! Patches of the same changes in another order.

What a patch holds at a path without a placeholder is what was done there last, and what it holds
under a placeholder is one item. So patches of changes that are `Renumbered` `Agree` up to the
numbers of the placeholders, and entirely where no item changes. -/
namespace DocDelta.Diff
open Heap Patch

/-! ### Numbers -/

/-- A renumbering that leaves 0 alone. -/
def shifted (σ : Equiv.Perm ℕ) : Equiv.Perm ℕ where
  toFun
    | 0 => 0
    | n + 1 => σ n + 1
  invFun
    | 0 => 0
    | n + 1 => σ.symm n + 1
  left_inv n := by cases n <;> simp
  right_inv n := by cases n <;> simp

/-- A list in another order is the list with its places renumbered. -/
theorem exists_renumbering {α : Type} {xs ys : List α} (hp : xs.Perm ys) :
    ∃ σ : Equiv.Perm ℕ, ∀ n, ys[σ n]? = xs[n]? := by
  induction hp with
  | nil => exact ⟨.refl ℕ, fun _ => rfl⟩
  | @cons x xs ys _ ih =>
    obtain ⟨σ, hσ⟩ := ih
    refine ⟨shifted σ, fun n => ?_⟩
    cases n with
    | zero => rfl
    | succ n => exact hσ n
  | swap x y xs =>
    refine ⟨Equiv.swap 0 1, fun n => ?_⟩
    match n with
    | 0 => rfl
    | 1 => rfl
    | n + 2 => rw [Equiv.swap_apply_of_ne_of_ne (by omega) (by omega)]; rfl
  | trans _ _ ih ih' =>
    obtain ⟨σ, hσ⟩ := ih
    obtain ⟨τ, hτ⟩ := ih'
    exact ⟨σ.trans τ, fun n => (hτ (σ n)).trans (hσ n)⟩

/-! ### Records -/

/-- What an action comes to in a patch. -/
def Action.entry? : Action → Option (Operator × Value)
  | .set v => some (.set, v)
  | .unset => some (.unset, .text "")
  | .push [] => none
  | .push [v] => some (.push, v)
  | .push vs => some (.push, .table [(Operator.each, .list vs)])

theorem record?_whole (n : Nat) (path : List Label) (a : Action) : (Change.whole path a).record? n =
    a.entry?.map fun e => ⟨e.1, joinAll (.plain "") path, e.2⟩ := by
  cases a with
  | set v => rfl
  | unset => rfl
  | push items => match items with
    | [] => rfl
    | [_] => rfl
    | _ :: _ :: _ => rfl

section Records
variable {cs : List Change} {n k : Nat} {i : ItemChange} {r : Record} {place : String}

/-- The path of a change in a patch. -/
theorem text_record {c : Change} (hr : c.record? n = some r) :
    r.path.text = dotted (c.path.map (·.text)) ∨
      ∃ path index v, c = .item path index v ∧
        r.entry = (.set, dotted (path.map (·.text) ++ [(placeName n).text]), v) := by
  cases c with
  | whole path action => exact .inl (path_record hr)
  | item path index v =>
    have htext := path_record hr
    cases hr
    exact .inr ⟨path, index, v, rfl, Prod.ext rfl (Prod.ext htext rfl)⟩

theorem unnumbered_dotted {ns : List String} (hns : ∀ s ∈ ns, Unnumbered s) :
    Unnumbered (dotted ns) := by
  refine unnumbered_joinAll (fun n hn => List.not_mem_nil hn) fun l hl => ?_
  obtain ⟨s, hs, rfl⟩ := List.mem_map.mp hl
  exact hns s hs

/-- A placeholder is the last name of its path. -/
theorem names_placed (ns : List String) (n : Nat) :
    names (dotted (ns ++ [(placeName n).text])) = names (dotted ns) ++ [(placeName n).text] := by
  rw [dotted, List.map_append, joinAll, List.foldl_append]
  exact names_joinPath _ (segment_placeName n)

/-- At a path without a placeholder there are the records of what is done there as a whole. -/
theorem records_at (hplace : Unnumbered place) :
    ((recordsFrom n cs).filter fun r => r.path.text == place).map (fun r => (r.operator, r.value)) =
      (actionsAt (.plain "") place cs).filterMap Action.entry? := by
  rw [actionsAt, List.filterMap_filterMap]
  induction cs generalizing n with
  | nil => rfl
  | cons c cs ih =>
    have hone : (((c.record? n).toList.filter fun r => r.path.text == place).map
        fun r => (r.operator, r.value)) =
          ((c.actionAt? (.plain "") place).bind Action.entry?).toList := by
      cases c with
      | item path index v =>
        have hne : (joinPath (joinAll (.plain "") path) (placeName n)).text ≠ place := fun he => by
          refine hplace n ?_
          rw [← he, names_joinPath _ (segment_placeName n)]
          exact List.mem_append_right _ (List.mem_singleton_self _)
        rw [Change.record?, Option.toList_some, List.filter_cons_of_neg (by simpa using hne)]
        rfl
      | whole path a =>
        rw [record?_whole, Change.actionAt?]
        by_cases hpath : (joinAll (.plain "") path).text = place
        · rw [if_pos hpath]
          cases ha : a.entry? <;> simp [hpath, ha]
        · rw [if_neg hpath]
          cases ha : a.entry? <;> simp [hpath]
    rw [recordsFrom, List.filter_append, List.map_append, ih, hone, List.filterMap_cons]
    cases (c.actionAt? (.plain "") place).bind Action.entry? <;> rfl

/-- The last of them counts. -/
theorem lastOn_at (hplace : Unnumbered place) :
    (lastOn place (recordsFrom n cs)).map (fun r => (r.operator, r.value)) =
      ((actionsAt (.plain "") place cs).filterMap Action.entry?).getLast? := by
  rw [← records_at hplace, List.getLast?_map, lastOn, ← List.head?_filter, List.filter_reverse,
    List.head?_reverse]

/-- What is recorded of an item. -/
def itemRecord (n : Nat) (i : ItemChange) : Operator × String × Value :=
  (.set, dotted (i.1 ++ [(placeName n).text]), i.2.2)

/-- An item is recorded under its placeholder. -/
theorem record_of_item (hi : (itemsIn cs)[k]? = some i) :
    ∃ r ∈ recordsFrom n cs, r.entry = itemRecord (n + k) i := by
  induction cs generalizing n k with
  | nil => cases hi
  | cons c cs ih =>
    cases c with
    | whole path action =>
      obtain ⟨r, hr, he⟩ := ih (n := n) hi
      exact ⟨r, List.mem_append_right _ hr, he⟩
    | item path index v =>
      cases k with
      | zero =>
        cases hi
        refine ⟨_, List.mem_append_left _ (List.mem_singleton_self _), ?_⟩
        exact Prod.ext rfl (Prod.ext (path_record (c := .item path index v) rfl) rfl)
      | succ k =>
        obtain ⟨r, hr, he⟩ := ih (n := n + 1) hi
        rw [Nat.add_right_comm] at he
        exact ⟨r, List.mem_append_right _ hr, he⟩

/-- A record is of a change as a whole, or of an item. -/
theorem record_cases (hr : r ∈ recordsFrom n cs) :
    (∃ c ∈ cs, r.path.text = dotted (c.path.map (·.text))) ∨
      ∃ k i, (itemsIn cs)[k]? = some i ∧ r.entry = itemRecord (n + k) i := by
  induction cs generalizing n with
  | nil => cases hr
  | cons c cs ih =>
    rcases List.mem_append.mp hr with hr | hr
    · rcases text_record (Option.mem_toList.mp hr) with htext | ⟨path, index, v, rfl, he⟩
      · exact .inl ⟨c, List.mem_cons_self .., htext⟩
      · exact .inr ⟨0, _, rfl, he⟩
    · rcases ih hr with ⟨c, hc, htext⟩ | ⟨k, i, hi, he⟩
      · exact .inl ⟨c, List.mem_cons_of_mem _ hc, htext⟩
      · cases c with
        | whole path action => exact .inr ⟨k, i, hi, he⟩
        | item path index v =>
          refine .inr ⟨k + 1, i, hi, ?_⟩
          rw [he, Change.takes, Nat.add_assoc, Nat.add_comm 1]

theorem unnumbered_item (hp : ∀ c ∈ cs, ∀ l ∈ c.path, Unnumbered l.text) (hi : i ∈ itemsIn cs) :
    ∀ s ∈ i.1, Unnumbered s := by
  obtain ⟨c, hc, hci⟩ := List.mem_filterMap.mp hi
  intro s hs
  cases c with
  | whole path action => cases hci
  | item path index v =>
    cases hci
    obtain ⟨l, hl, rfl⟩ := List.mem_map.mp hs
    exact hp _ hc l hl

/-! ### Operations -/

variable {p : Patch} {e : Operator × String × Value}
variable (ha : Accumulates (recordsFrom 0 cs) p) (hp : ∀ c ∈ cs, ∀ l ∈ c.path, Unnumbered l.text)
include ha

/-- What a patch holds at a path without a placeholder is what was done there last. -/
theorem mem_entries_at (hplace : Unnumbered place) {op : Operator} {v : Value} :
    (op, place, v) ∈ p.entries ↔
      ((actionsAt (.plain "") place cs).filterMap Action.entry?).getLast? = some (op, v) := by
  rw [mem_entries ha, ← lastOn_at (n := 0) hplace, Option.map_eq_some_iff]
  simp only [Prod.mk.injEq]

include hp

/-- It holds what is recorded of an item. -/
theorem mem_entries_item (hi : (itemsIn cs)[k]? = some i) : itemRecord k i ∈ p.entries := by
  obtain ⟨r, hr, hentry⟩ := record_of_item (n := 0) hi
  rw [Nat.zero_add] at hentry
  obtain ⟨e, he, hpath⟩ := List.mem_map.mp
    ((mem_paths_iff ha).mpr (List.mem_map.mpr ⟨r, hr, rfl⟩))
  obtain ⟨r', hlast, hop, hv⟩ := (mem_entries ha).mp he
  have htext : r'.path.text = dotted (i.1 ++ [(placeName k).text]) :=
    (lastOn_text hlast).trans (hpath.trans (congrArg (fun e => e.2.1) hentry))
  have hsame : r'.entry = itemRecord k i := by
    rcases record_cases (lastOn_mem hlast) with ⟨c, hc, hwhole⟩ | ⟨m, j, hj, hentry'⟩
    · have hnumber : Unnumbered r'.path.text := by
        rw [hwhole]
        refine unnumbered_dotted fun s hs => ?_
        obtain ⟨l, hl, rfl⟩ := List.mem_map.mp hs
        exact hp c hc l hl
      refine absurd ?_ (hnumber k)
      rw [htext, names_placed]
      exact List.mem_append_right _ (List.mem_singleton_self _)
    · rw [Nat.zero_add] at hentry'
      have hpaths : dotted (j.1 ++ [(placeName m).text]) = dotted (i.1 ++ [(placeName k).text]) :=
        (congrArg (fun e => e.2.1) hentry').symm.trans htext
      have hnames := congrArg names hpaths
      rw [names_placed, names_placed] at hnames
      obtain ⟨-, hlast⟩ := List.append_inj' hnames rfl
      obtain rfl := placeName_inj (List.singleton_inj.mp hlast)
      cases hi.symm.trans hj
      exact hentry'
  have hself : e = r'.entry := Prod.ext hop.symm (Prod.ext (lastOn_text hlast).symm hv.symm)
  exact hsame ▸ hself ▸ he

/-- It holds nothing else. -/
theorem entry_cases (he : e ∈ p.entries) :
    Unnumbered e.2.1 ∨ ∃ k i, (itemsIn cs)[k]? = some i ∧ e = itemRecord k i := by
  obtain ⟨r, hlast, hop, hv⟩ := (mem_entries ha).mp he
  rcases record_cases (lastOn_mem hlast) with ⟨c, hc, htext⟩ | ⟨k, i, hi, hentry⟩
  · refine .inl ?_
    rw [← lastOn_text hlast, htext]
    refine unnumbered_dotted fun s hs => ?_
    obtain ⟨l, hl, rfl⟩ := List.mem_map.mp hs
    exact hp c hc l hl
  · rw [Nat.zero_add] at hentry
    refine .inr ⟨k, i, hi, ?_⟩
    rw [← hentry]
    exact Prod.ext hop.symm (Prod.ext (lastOn_text hlast).symm hv.symm)

end Records

/-! ### The patches -/

/-- One name is the other, but for the number of a placeholder. -/
inductive NameRenumbered (σ : Equiv.Perm ℕ) : String → String → Prop
  | place (n : Nat) : NameRenumbered σ (placeName n).text (placeName (σ n)).text
  | other {s : String} (hs : ∀ n, s ≠ (placeName n).text) : NameRenumbered σ s s

/-- One path is the other, but for the numbers of placeholders. -/
def PathRenumbered (σ : Equiv.Perm ℕ) (path path' : String) : Prop :=
  List.Forall₂ (NameRenumbered σ) (names path) (names path')

/-- One filter is the other, but for the number of its placeholder. -/
inductive FilterRenumbered (σ : Equiv.Perm ℕ) : Value → Value → Prop
  | place (n index : Nat) : FilterRenumbered σ (placeFilter n index) (placeFilter (σ n) index)

/-- Two patches hold the same operations and name the same changed fields, at paths that `T`
relates and with values that `E` relates. -/
structure Agree (E : Value → Value → Prop) (T : String → String → Prop) (p q : Patch) : Prop where
  forth : ∀ e ∈ p.entries, ∃ f ∈ q.entries, e.1 = f.1 ∧ T e.2.1 f.2.1 ∧ E e.2.2 f.2.2
  back : ∀ f ∈ q.entries, ∃ e ∈ p.entries, e.1 = f.1 ∧ T e.2.1 f.2.1 ∧ E e.2.2 f.2.2
  changed : ∀ path, p.changed path = true → ∃ path', T path path' ∧ q.changed path' = true
  changedBack : ∀ path', q.changed path' = true → ∃ path, T path path' ∧ p.changed path = true

/-- What is related by `E` is so where it is recorded: several items are pushed as one value. -/
structure Recordable (E : Value → Value → Prop) : Prop where
  blank : E (.text "") (.text "")
  several : ∀ {vs ws : List Value}, List.Forall₂ E vs ws →
    E (.table [(Operator.each, .list vs)]) (.table [(Operator.each, .list ws)])

section Patches
variable {flat : Prop} {E : Value → Value → Prop} {T : String → String → Prop} {σ : Equiv.Perm ℕ}
  {cs ds : List Change} {p q : Patch}

theorem Recordable.flip (hE : Recordable E) : Recordable fun v w => E w v :=
  ⟨hE.blank, fun hvw => hE.several hvw.flip⟩

theorem Action.Same.entry? (hE : Recordable E) {a b : Action} (hab : Action.Same E a b) :
    Option.Rel (fun e f => e.1 = f.1 ∧ E e.2 f.2) a.entry? b.entry? := by
  cases hab with
  | set he => exact .some ⟨rfl, he⟩
  | unset => exact .some ⟨rfl, hE.blank⟩
  | push he =>
    cases he with
    | nil => exact .none
    | cons hvw hrest =>
      cases hrest with
      | nil => exact .some ⟨rfl, hvw⟩
      | cons hvw' hrest => exact .some ⟨rfl, hE.several (.cons hvw (.cons hvw' hrest))⟩

theorem rel_getLast? {α β : Type} {R : α → β → Prop} {xs : List α} {ys : List β}
    (hp : List.Forall₂ R xs ys) : Option.Rel R xs.getLast? ys.getLast? := by
  have hback : List.Forall₂ R xs.reverse ys.reverse := List.rel_reverse hp
  rw [← List.head?_reverse, ← List.head?_reverse]
  generalize xs.reverse = us at hback ⊢
  generalize ys.reverse = ws at hback ⊢
  cases hback with
  | nil => exact .none
  | cons hxy _ => exact .some hxy

theorem exists_of_rel {α β : Type} {R : α → β → Prop} {a : α} {y : Option β}
    (hr : Option.Rel R (some a) y) : ∃ b, y = some b ∧ R a b := by
  cases hr with
  | some hab => exact ⟨_, rfl, hab⟩

/-- The items that change are numbered by one renumbering. -/
theorem Renumbered.numbering (hr : Renumbered flat E cs ds) :
    ∃ σ : Equiv.Perm ℕ, ∀ n, Option.Rel (SameItem E) (itemsIn cs)[n]? (itemsIn ds)[σ n]? := by
  obtain ⟨xs, hx, hp⟩ := hr.items
  obtain ⟨σ, hσ⟩ := exists_renumbering hp
  refine ⟨σ, fun n => ?_⟩
  rw [hσ n]
  obtain ⟨hl, hx⟩ := List.forall₂_iff_get.mp hx
  by_cases hn : n < (itemsIn cs).length
  · rw [List.getElem?_eq_getElem hn, List.getElem?_eq_getElem (hl ▸ hn)]
    exact .some (hx n hn (hl ▸ hn))
  · rw [List.getElem?_eq_none (Nat.le_of_not_lt hn), List.getElem?_eq_none (hl ▸ Nat.le_of_not_lt hn)]
    exact .none

/-- What one patch holds the other holds too, if only paths with a placeholder differ. -/
theorem Renumbered.entry (hr : Renumbered flat E cs ds) (hE : Recordable E)
    (hσ : ∀ n, Option.Rel (SameItem E) (itemsIn cs)[n]? (itemsIn ds)[σ n]?)
    (hp : Accumulates (recordsFrom 0 cs) p) (hq : Accumulates (recordsFrom 0 ds) q)
    (hwhole : ∀ place, Unnumbered place → T place place)
    (hitem : ∀ n i, (itemsIn cs)[n]? = some i →
      T (dotted (i.1 ++ [(placeName n).text])) (dotted (i.1 ++ [(placeName (σ n)).text])))
    {e : Operator × String × Value} (he : e ∈ p.entries) :
    ∃ f ∈ q.entries, e.1 = f.1 ∧ T e.2.1 f.2.1 ∧ E e.2.2 f.2.2 := by
  rcases entry_cases hp hr.left he with hplace | ⟨n, i, hi, rfl⟩
  · obtain ⟨op, place, v⟩ := e
    have hlast := rel_getLast? <|
      List.rel_filterMap (fun _ _ hab => hab.entry? hE) (hr.wholes (.plain "") place)
    rw [(mem_entries_at hp hplace).mp he] at hlast
    obtain ⟨⟨_, w⟩, hlast, rfl, hvw⟩ := exists_of_rel hlast
    exact ⟨(op, place, w), (mem_entries_at hq hplace).mpr hlast, rfl, hwhole place hplace, hvw⟩
  · have hnumber := hσ n
    rw [hi] at hnumber
    obtain ⟨j, hj, hij⟩ := exists_of_rel hnumber
    refine ⟨itemRecord (σ n) j, mem_entries_item hq hr.right hj, rfl, ?_, hij.value⟩
    have hpaths := hitem n i hi
    rwa [itemRecord, itemRecord, ← hij.names]

theorem changed_entry {cs : List Change} {p : Patch} (hp : Accumulates (recordsFrom 0 cs) p)
    {path : String} : p.changed path = true ↔ ∃ e ∈ p.entries, e.2.1 = path := by
  rw [changed_iff hp, ← mem_paths_iff hp, paths, List.mem_map]

/-- **Patches of the same changes in another order agree**, if only paths with a placeholder
differ. -/
theorem Renumbered.agree (hr : Renumbered flat E cs ds) (hE : Recordable E)
    (hσ : ∀ n, Option.Rel (SameItem E) (itemsIn cs)[n]? (itemsIn ds)[σ n]?)
    (hp : Accumulates (recordsFrom 0 cs) p) (hq : Accumulates (recordsFrom 0 ds) q)
    (hwhole : ∀ place, Unnumbered place → T place place)
    (hitem : ∀ n i, (itemsIn cs)[n]? = some i →
      T (dotted (i.1 ++ [(placeName n).text])) (dotted (i.1 ++ [(placeName (σ n)).text]))) :
    Agree E T p q := by
  have hσ' : ∀ n, Option.Rel (SameItem fun v w => E w v) (itemsIn ds)[n]? (itemsIn cs)[σ.symm n]? := by
    intro n
    have hn := hσ (σ.symm n)
    rw [Equiv.apply_symm_apply] at hn
    generalize (itemsIn ds)[n]? = y at hn ⊢
    generalize (itemsIn cs)[σ.symm n]? = x at hn ⊢
    cases hn with
    | none => exact .none
    | some hij => exact .some ⟨hij.names.symm, hij.index.symm, hij.value⟩
  have hforth : ∀ e ∈ p.entries, ∃ f ∈ q.entries, e.1 = f.1 ∧ T e.2.1 f.2.1 ∧ E e.2.2 f.2.2 :=
    fun e he => hr.entry hE hσ hp hq hwhole hitem he
  have hback : ∀ f ∈ q.entries, ∃ e ∈ p.entries, e.1 = f.1 ∧ T e.2.1 f.2.1 ∧ E e.2.2 f.2.2 := by
    intro f hf
    have hitem' : ∀ n j, (itemsIn ds)[n]? = some j → T (dotted (j.1 ++ [(placeName (σ.symm n)).text]))
        (dotted (j.1 ++ [(placeName n).text])) := by
      intro n j hj
      have hn := hσ' n
      rw [hj] at hn
      obtain ⟨i, hi, hij⟩ := exists_of_rel hn
      have hpaths := hitem _ i hi
      rwa [Equiv.apply_symm_apply, ← hij.names] at hpaths
    obtain ⟨e, he, hop, hpath, hv⟩ :=
      hr.symm.entry (T := fun path path' => T path' path) hE.flip hσ' hq hp hwhole hitem' hf
    exact ⟨e, he, hop.symm, hpath, hv⟩
  refine ⟨hforth, hback, fun path hc => ?_, fun path' hc => ?_⟩
  · obtain ⟨e, he, rfl⟩ := (changed_entry hp).mp hc
    obtain ⟨f, hf, _, hpath, _⟩ := hforth e he
    exact ⟨_, hpath, (changed_entry hq).mpr ⟨f, hf, rfl⟩⟩
  · obtain ⟨f, hf, rfl⟩ := (changed_entry hq).mp hc
    obtain ⟨e, he, _, hpath, _⟩ := hback f hf
    exact ⟨_, hpath, (changed_entry hp).mpr ⟨e, he, rfl⟩⟩

/-- Names of a path without a placeholder are as they were. -/
theorem namesRenumbered_same {ns : List String} (hns : ∀ n, (placeName n).text ∉ ns) :
    List.Forall₂ (NameRenumbered σ) ns ns :=
  List.forall₂_same.mpr fun _ hs => .other fun n he => hns n (he ▸ hs)

/-- **They agree up to the numbers of placeholders.** -/
theorem Renumbered.agree_renumbered (hr : Renumbered flat E cs ds) (hE : Recordable E)
    (hσ : ∀ n, Option.Rel (SameItem E) (itemsIn cs)[n]? (itemsIn ds)[σ n]?)
    (hp : Accumulates (recordsFrom 0 cs) p) (hq : Accumulates (recordsFrom 0 ds) q) :
    Agree E (PathRenumbered σ) p q := by
  refine hr.agree hE hσ hp hq (fun place hplace => namesRenumbered_same hplace) fun n i hi => ?_
  rw [PathRenumbered, names_placed, names_placed]
  have hunnumbered := unnumbered_dotted (unnumbered_item hr.left (List.mem_of_getElem? hi))
  exact List.rel_append (namesRenumbered_same hunnumbered) (.cons (.place n) .nil)

/-- **They agree entirely where no item changes.** -/
theorem Renumbered.agree_flat (hr : Renumbered flat E cs ds) (hflat : flat) (hE : Recordable E)
    (hp : Accumulates (recordsFrom 0 cs) p) (hq : Accumulates (recordsFrom 0 ds) q) :
    Agree E (· = ·) p q := by
  obtain ⟨σ, hσ⟩ := hr.numbering
  refine hr.agree hE hσ hp hq (fun _ _ => rfl) fun n i hi => ?_
  rw [hr.flat hflat] at hi
  cases hi

/-- The filters are those of the items, numbered. -/
theorem filtersFrom_items (n : Nat) (cs : List Change) : filtersFrom n cs =
    ((itemsIn cs).zipIdx n).map fun i => placeFilter i.2 i.1.2.1 := by
  induction cs generalizing n with
  | nil => rfl
  | cons c cs ih =>
    cases c with
    | whole path action => exact ih n
    | item path index v => exact congrArg (placeFilter n index :: ·) (ih (n + 1))

/-- **The filters are renumbered in the same way.** -/
theorem filters_renumbered
    (hσ : ∀ n, Option.Rel (SameItem E) (itemsIn cs)[n]? (itemsIn ds)[σ n]?)
    (hp : p.filters = filtersFrom 0 cs) (hq : q.filters = filtersFrom 0 ds) :
    Relation.Comp (List.Forall₂ (FilterRenumbered σ)) List.Perm p.filters q.filters := by
  have hplaces : ((itemsIn cs).zipIdx.map fun i => (σ i.2, i.1.2.1)).Perm
      ((itemsIn ds).zipIdx.map fun i => (i.2, i.1.2.1)) := by
    have hnodup : ∀ {τ : Equiv.Perm ℕ} {is : List ItemChange},
        (is.zipIdx.map fun i => (τ i.2, i.1.2.1)).Nodup := by
      intro τ is
      have hnumbers : ((is.zipIdx.map Prod.snd).map τ).Nodup := by
        rw [List.zipIdx_map_snd]
        exact List.Nodup.map τ.injective List.nodup_range'
      refine List.Nodup.of_map Prod.fst ?_
      rwa [List.map_map] at hnumbers ⊢
    refine (List.perm_ext_iff_of_nodup hnodup (hnodup (τ := .refl ℕ))).mpr fun place => ?_
    simp only [List.mem_map, List.mem_zipIdx_iff_getElem?]
    constructor
    · rintro ⟨⟨i, n⟩, hi, rfl⟩
      have hn := hσ n
      rw [hi] at hn
      obtain ⟨j, hj, hij⟩ := exists_of_rel hn
      exact ⟨(j, σ n), hj, Prod.ext rfl hij.index.symm⟩
    · rintro ⟨⟨j, m⟩, hj, rfl⟩
      have hn := hσ (σ.symm m)
      rw [Equiv.apply_symm_apply, hj] at hn
      cases hi : (itemsIn cs)[σ.symm m]? with
      | none =>
        rw [hi] at hn
        cases hn
      | some i =>
        rw [hi] at hn
        obtain ⟨_, ⟨⟩, hij⟩ := exists_of_rel hn
        exact ⟨(i, σ.symm m), hi, Prod.ext (Equiv.apply_symm_apply σ m) hij.index⟩
  rw [hp, hq, filtersFrom_items, filtersFrom_items]
  refine ⟨(itemsIn cs).zipIdx.map fun i => placeFilter (σ i.2) i.1.2.1, ?_, ?_⟩
  · refine List.forall₂_map_left_iff.mpr (List.forall₂_map_right_iff.mpr ?_)
    exact List.forall₂_same.mpr fun i _ => .place i.2 i.1.2.1
  · have hfilters := hplaces.map fun i : ℕ × ℕ => placeFilter i.1 i.2
    rwa [List.map_map, List.map_map] at hfilters

end Patches

end DocDelta.Diff
