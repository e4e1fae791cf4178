import DocDelta.Proofs.Value.Lawful
import DocDelta.Value.Contents

/-! What maps hold under keys, and maps within maps at paths of keys.

In a heap as programs make them (`Sound`) matching is an equivalence on the objects that can be
keys. So a map holds one value under a key, however the key is spelled, and what a map holds under
all keys changes under one of them only when its entries are amended there (`found?_amend`). A path
of keys leads to a value of a map within maps. -/
namespace DocDelta.Heap
open Relation
variable {h : Heap} {K : ClassTable} {k x y z v w : Value} {es : List (Value × Value)}
  {q : List Value} {a : Addr} {n m : Nat}

/-! ### Keys -/

/-- A heap as programs make them: no object refers to one that is not there, and every object keeps
the rules of its language. -/
structure Sound (h : Heap) (K : ClassTable) : Prop where
  stored : ∀ a < h.size, ∀ b ∈ (h.object a).children, b < h.size
  lawful : ∀ a < h.size, h.Lawful K (.ref a)

/-- An object that can be a key. -/
def IsKey (h : Heap) (k : Value) : Prop := h.hashable k = true ∧ ∃ a < h.size, k = .ref a

/-- Whether a key matches another. -/
def agrees (h : Heap) (x k : Value) : Bool := (h.matching x k).toOption.getD false

theorem agrees_iff : h.agrees x k = true ↔ h.matching x k = .ok true := by
  unfold agrees
  cases h.matching x k with
  | error e => exact ⟨nofun, nofun⟩
  | ok b => simp [Except.toOption]

theorem matching_agrees (ha : Answers (h.matching x k)) : h.matching x k = .ok (h.agrees x k) := by
  obtain ⟨b, hb⟩ := ha
  unfold agrees
  rw [hb]
  rfl

theorem IsKey.refl (hx : h.IsKey x) : h.agrees x x = true := by
  obtain ⟨-, a, -, rfl⟩ := hx
  exact agrees_iff.mpr (matching_ref a)

section Sound
variable (hh : h.Sound K)
include hh

theorem IsKey.lawful (hx : h.IsKey x) : h.Lawful K x := by
  obtain ⟨-, a, ha, rfl⟩ := hx
  exact hh.lawful a ha

theorem IsKey.answers (hx : h.IsKey x) (hy : h.IsKey y) : Answers (h.matching x y) :=
  answers_matchPart (answers_same_keys hx.1 hy.1 (hx.lawful hh).follows (hy.lawful hh).follows)

theorem IsKey.symm (hx : h.IsKey x) (hy : h.IsKey y) (hxy : h.agrees x y = true) :
    h.agrees y x = true :=
  agrees_iff.mpr (equivalence_hashable.symm (x := ⟨x, hx.lawful hh, hx.1⟩)
    (y := ⟨y, hy.lawful hh, hy.1⟩) (agrees_iff.mp hxy))

theorem IsKey.trans (hx : h.IsKey x) (hy : h.IsKey y) (hz : h.IsKey z)
    (hxy : h.agrees x y = true) (hyz : h.agrees y z = true) : h.agrees x z = true :=
  agrees_iff.mpr (equivalence_hashable.trans (x := ⟨x, hx.lawful hh, hx.1⟩)
    (y := ⟨y, hy.lawful hh, hy.1⟩) (z := ⟨z, hz.lawful hh, hz.1⟩) (agrees_iff.mp hxy)
    (agrees_iff.mp hyz))

theorem IsKey.agrees_comm (hx : h.IsKey x) (hy : h.IsKey y) : h.agrees x y = h.agrees y x :=
  Bool.eq_iff_iff.mpr ⟨hx.symm hh hy, hy.symm hh hx⟩

/-- Keys that agree agree with the same keys. -/
theorem IsKey.agrees_congr (hx : h.IsKey x) (hy : h.IsKey y) (hz : h.IsKey z)
    (hxy : h.agrees x y = true) : h.agrees z x = h.agrees z y :=
  Bool.eq_iff_iff.mpr ⟨fun hzx => hz.trans hh hx hy hzx hxy,
    fun hzy => hz.trans hh hy hx hzy (hx.symm hh hy hxy)⟩

end Sound

/-! ### Entries -/

/-- Entries with keys that are told apart. -/
structure Indexed (h : Heap) (es : List (Value × Value)) : Prop where
  keys : ∀ e ∈ es, h.IsKey e.1
  apart : es.Pairwise fun d e => h.agrees d.1 e.1 = false

theorem indexed_nil : h.Indexed [] := ⟨nofun, .nil⟩

theorem indexed_cons {e : Value × Value} : h.Indexed (e :: es) ↔
    h.IsKey e.1 ∧ (∀ d ∈ es, h.agrees e.1 d.1 = false) ∧ h.Indexed es := by
  constructor
  · rintro ⟨hkeys, hapart⟩
    obtain ⟨hkey, hkeys⟩ := List.forall_mem_cons.mp hkeys
    obtain ⟨hfirst, hapart⟩ := List.pairwise_cons.mp hapart
    exact ⟨hkey, hfirst, hkeys, hapart⟩
  · rintro ⟨hkey, hfirst, hkeys, hapart⟩
    exact ⟨List.forall_mem_cons.mpr ⟨hkey, hkeys⟩, List.pairwise_cons.mpr ⟨hfirst, hapart⟩⟩

/-- What an object refers to is an object of the heap. -/
theorem Sound.part (hh : h.Sound K) (hp : h.Part (.ref a) w) : ∃ b < h.size, w = .ref b := by
  have hw : w ∈ ((h.object a).mapChildren Value.ref).children := hp
  rw [children_mapChildren] at hw
  obtain ⟨b, hb, rfl⟩ := List.mem_map.mp hw
  exact ⟨b, hh.stored a (part_lt_size hp) b hb, rfl⟩

/-- The entries of a map are kept under keys that are told apart. -/
theorem Sound.indexed (hh : h.Sound K) {c : Option Subclass} (hv : h.view (.ref a) = .map c es) :
    h.Indexed es := by
  have hes : h.entries? (h.view (.ref a)) = some es := by rw [hv, entries?_of_map]
  have ha : ∀ e ∈ es, a < h.size := fun e he => part_lt_size (entry_parts hv he).1
  refine ⟨fun e he => ?_, ?_⟩
  · have hlawful := hh.lawful a (ha e he)
    exact ⟨hlawful.regular.hashable_keys hes e he, hh.part (entry_parts hv he).1⟩
  · cases es with
    | nil => exact .nil
    | cons e es =>
      have hlawful := hh.lawful a (ha e (List.mem_cons_self ..))
      exact (hlawful.keys _ .refl _ hes).imp fun hde =>
        Bool.eq_false_iff.mpr fun hagree => hde (agrees_iff.mp hagree)

/-- The value that entries hold under a key. -/
def found? (h : Heap) (k : Value) (es : List (Value × Value)) : Option Value :=
  (es.find? fun e => h.agrees e.1 k).map (·.2)

/-- Entries with another value under a key, or without one. -/
def amend (h : Heap) (k : Value) (w : Option Value) : List (Value × Value) → List (Value × Value)
  | [] => (w.map fun v => (k, v)).toList
  | e :: es =>
    if h.agrees e.1 k then (w.map fun v => (e.1, v)).toList ++ es else e :: h.amend k w es

@[simp] theorem found?_nil : h.found? k [] = none := rfl

theorem found?_cons (e : Value × Value) :
    h.found? k (e :: es) = if h.agrees e.1 k then some e.2 else h.found? k es := by
  rw [found?, List.find?_cons]
  cases h.agrees e.1 k <;> rfl

theorem found?_append (ds : List (Value × Value)) :
    h.found? k (ds ++ es) = (h.found? k ds).or (h.found? k es) := by
  rw [found?, List.find?_append, Option.map_or]
  rfl

theorem found?_eq_none : h.found? k es = none ↔ ∀ e ∈ es, h.agrees e.1 k = false := by
  rw [found?, Option.map_eq_none_iff, List.find?_eq_none]
  simp

theorem mem_of_found? (hf : h.found? k es = some v) :
    ∃ x, (x, v) ∈ es ∧ h.agrees x k = true := by
  obtain ⟨e, he, rfl⟩ := Option.map_eq_some_iff.mp hf
  have hagree := List.find?_some he
  exact ⟨e.1, List.mem_of_find?_eq_some he, hagree⟩

theorem Indexed.found?_mem (hes : h.Indexed es) (hk : (k, v) ∈ es) : h.found? k es = some v := by
  induction es with
  | nil => cases hk
  | cons e es ih =>
    obtain ⟨hkey, hfirst, hrest⟩ := indexed_cons.mp hes
    rw [found?_cons]
    rcases List.mem_cons.mp hk with rfl | hk
    · rw [if_pos hkey.refl]
    · rw [if_neg (by simp [hfirst _ hk]), ih hrest hk]

theorem Indexed.sublist {ds : List (Value × Value)} (hes : h.Indexed es) (hds : ds.Sublist es) :
    h.Indexed ds :=
  ⟨fun e he => hes.keys e (hds.subset he), hes.apart.sublist hds⟩

/-- The key of the last entry is not among those before. -/
theorem Indexed.found?_fresh {e : Value × Value} (hes : h.Indexed (es ++ [e])) :
    h.found? e.1 es = none := found?_eq_none.mpr fun d hd =>
  (List.pairwise_append.mp hes.apart).2.2 d hd e (List.mem_singleton_self e)

/-- Keys that agree have one value. -/
theorem found?_congr (hh : h.Sound K) (hes : ∀ e ∈ es, h.IsKey e.1) (hx : h.IsKey x)
    (hy : h.IsKey y) (hxy : h.agrees x y = true) : h.found? x es = h.found? y es := by
  induction es with
  | nil => rfl
  | cons e es ih =>
    obtain ⟨hkey, hes⟩ := List.forall_mem_cons.mp hes
    rw [found?_cons, found?_cons, hx.agrees_congr hh hy hkey hxy, ih hes]

theorem amend_cons (w : Option Value) (e : Value × Value) : h.amend k w (e :: es) =
    if h.agrees e.1 k then (w.map fun v => (e.1, v)).toList ++ es else e :: h.amend k w es := rfl

/-- A value that is there can be put there. -/
theorem amend_found (hf : h.found? k es = some v) : h.amend k (some v) es = es := by
  induction es with
  | nil => cases hf
  | cons e es ih =>
    rw [found?_cons] at hf
    rw [amend_cons]
    by_cases he : h.agrees e.1 k = true
    · rw [if_pos he] at hf ⊢
      cases hf
      rfl
    · rw [if_neg he] at hf ⊢
      rw [ih hf]

/-- Nothing is removed under a key that is absent, and what is put there comes last. -/
theorem amend_absent (hf : h.found? k es = none) (w : Option Value) :
    h.amend k w es = es ++ (w.map fun v => (k, v)).toList := by
  induction es with
  | nil => rfl
  | cons e es ih =>
    have hes := found?_eq_none.mp hf
    rw [amend_cons, if_neg (by simp [hes e (List.mem_cons_self ..)]),
      ih (found?_eq_none.mpr fun d hd => hes d (List.mem_cons_of_mem e hd))]
    rfl

/-- Entries that are amended as they are stay so. -/
theorem amend_found? (k : Value) (es : List (Value × Value)) :
    h.amend k (h.found? k es) es = es := by
  cases hf : h.found? k es with
  | none => rw [amend_absent hf, Option.map_none, Option.toList_none, List.append_nil]
  | some v => exact amend_found hf

/-- What was put under an absent key can be removed again. -/
theorem amend_none_append (hf : h.found? k es = none) (hk : h.agrees k k = true) (v : Value) :
    h.amend k none (es ++ [(k, v)]) = es := by
  induction es with
  | nil => rw [List.nil_append, amend_cons, if_pos hk]; rfl
  | cons e es ih =>
    have hes := found?_eq_none.mp hf
    rw [List.cons_append, amend_cons, if_neg (by simp [hes e (List.mem_cons_self ..)]),
      ih (found?_eq_none.mpr fun d hd => hes d (List.mem_cons_of_mem e hd))]

/-- What stands in amended entries stood there before, or was put there. -/
theorem mem_amend {w : Option Value} {e : Value × Value} (he : e ∈ h.amend k w es) :
    ((∃ d ∈ es, e.1 = d.1) ∨ e.1 = k) ∧ (e ∈ es ∨ w = some e.2) := by
  induction es with
  | nil =>
    cases w with
    | none => cases he
    | some v =>
      obtain rfl := List.mem_singleton.mp he
      exact ⟨.inr rfl, .inr rfl⟩
  | cons d es ih =>
    rw [amend_cons] at he
    split at he
    · rcases List.mem_append.mp he with he | he
      · cases w with
        | none => cases he
        | some v =>
          obtain rfl := List.mem_singleton.mp he
          exact ⟨.inl ⟨d, List.mem_cons_self .., rfl⟩, .inr rfl⟩
      · have he := List.mem_cons_of_mem d he
        exact ⟨.inl ⟨e, he, rfl⟩, .inl he⟩
    · rcases List.mem_cons.mp he with rfl | he
      · exact ⟨.inl ⟨e, List.mem_cons_self .., rfl⟩, .inl (List.mem_cons_self ..)⟩
      · obtain ⟨hkey, hvalue⟩ := ih he
        refine ⟨hkey.imp_left fun ⟨c, hc, hec⟩ => ⟨c, List.mem_cons_of_mem d hc, hec⟩,
          hvalue.imp_left (List.mem_cons_of_mem d)⟩

theorem Indexed.amend (hes : h.Indexed es) (hk : h.IsKey k) (w : Option Value) :
    h.Indexed (h.amend k w es) := by
  induction es with
  | nil =>
    cases w with
    | none => exact indexed_nil
    | some v => exact indexed_cons.mpr ⟨hk, nofun, indexed_nil⟩
  | cons e es ih =>
    obtain ⟨hkey, hfirst, hrest⟩ := indexed_cons.mp hes
    rw [amend_cons]
    by_cases he : h.agrees e.1 k = true
    · rw [if_pos he]
      cases w with
      | none => exact hrest
      | some v => exact indexed_cons.mpr ⟨hkey, hfirst, hrest⟩
    · rw [if_neg he]
      refine indexed_cons.mpr ⟨hkey, fun d hd => ?_, ih hrest⟩
      rcases (mem_amend hd).1 with ⟨c, hc, hdc⟩ | hdk
      · rw [hdc]
        exact hfirst c hc
      · rw [hdk]
        exact Bool.eq_false_iff.mpr he

/-- Amending entries under a key changes what they hold under that key, and nothing else. -/
theorem found?_amend (hh : h.Sound K) (hes : h.Indexed es) (hk : h.IsKey k) (hx : h.IsKey x)
    (w : Option Value) :
    h.found? x (h.amend k w es) = if h.agrees k x then w else h.found? x es := by
  induction es with
  | nil =>
    cases w with
    | none => split <;> rfl
    | some v => exact found?_cons (k, v)
  | cons e es ih =>
    obtain ⟨hkey, hfirst, hrest⟩ := indexed_cons.mp hes
    rw [amend_cons, found?_cons]
    by_cases he : h.agrees e.1 k = true
    · -- The key of the entry stays, and it agrees with `x` when `k` does.
      have hex : h.agrees k x = h.agrees e.1 x := by
        rw [hk.agrees_comm hh hx, hkey.agrees_comm hh hx]
        exact hk.agrees_congr hh hkey hx (hkey.symm hh hk he)
      rw [if_pos he, hex]
      cases w with
      | some v =>
        rw [Option.map_some, Option.toList_some, List.singleton_append, found?_cons]
        split <;> rfl
      | none =>
        rw [Option.map_none, Option.toList_none, List.nil_append]
        split
        · rename_i hagree
          refine found?_eq_none.mpr fun d hd => Bool.eq_false_iff.mpr fun hdx => ?_
          have hd' := hrest.keys d hd
          have hed := hkey.trans hh hx hd' hagree (hd'.symm hh hx hdx)
          rw [hfirst d hd] at hed
          cases hed
        · rfl
    · rw [if_neg he, found?_cons, ih hrest]
      by_cases hex : h.agrees e.1 x = true
      · rw [if_pos hex, if_pos hex, if_neg]
        intro hkx
        exact he (hkey.trans hh hx hk hex (hk.symm hh hx hkx))
      · rw [if_neg hex, if_neg hex]

/-! ### Paths -/

/-- What stands under a key of a map. -/
def under? (h : Heap) (v k : Value) : Option Value := (h.mapEntries? v).bind (h.found? k)

/-- What a path of keys leads to, from map to map. -/
def at? (h : Heap) : List Value → Value → Option Value
  | [], v => some v
  | k :: q, v => (h.under? v k).bind (h.at? q)

/-- A path that consists of keys. -/
def IsPath (h : Heap) (q : List Value) : Prop := ∀ k ∈ q, h.IsKey k

def IsMap (h : Heap) (v : Value) : Prop := (h.mapEntries? v).isSome = true

/-- Two paths of keys that agree step by step. -/
def SamePath (h : Heap) (q r : List Value) : Prop := List.Forall₂ (h.agrees · · = true) q r

theorem mapEntries?_eq_some : h.mapEntries? v = some es ↔ ∃ c, h.view v = .map c es := by
  unfold mapEntries?
  cases h.view v <;> simp

theorem isMap_ref : h.IsMap (.ref a) ↔ ∃ c es, h.view (.ref a) = .map c es := by
  rw [IsMap, Option.isSome_iff_exists]
  simp only [mapEntries?_eq_some]
  exact ⟨fun ⟨es, c, hv⟩ => ⟨c, es, hv⟩, fun ⟨c, es, hv⟩ => ⟨es, c, hv⟩⟩

theorem IsMap.lt_size (ha : h.IsMap (.ref a)) : a < h.size := by
  by_contra hlt
  obtain ⟨c, es, hv⟩ := isMap_ref.mp ha
  rw [Heap.view, object_of_size_le (Nat.le_of_not_lt hlt)] at hv
  cases hv

theorem isPath_nil : h.IsPath [] := nofun

theorem isPath_cons : h.IsPath (k :: q) ↔ h.IsKey k ∧ h.IsPath q := List.forall_mem_cons

theorem isPath_concat : h.IsPath (q ++ [k]) ↔ h.IsPath q ∧ h.IsKey k := by
  rw [IsPath, List.forall_mem_append, List.forall_mem_singleton]
  rfl

theorem at?_cons {c : Option Subclass} (hv : h.view v = .map c es) (k : Value) (q : List Value) :
    h.at? (k :: q) v = (h.found? k es).bind (h.at? q) := by
  rw [at?, under?, mapEntries?_eq_some.mpr ⟨c, hv⟩, Option.bind_some]

theorem at?_append (p q : List Value) (v : Value) :
    h.at? (p ++ q) v = (h.at? p v).bind (h.at? q) := by
  induction p generalizing v with
  | nil => rfl
  | cons k p ih =>
    rw [List.cons_append, at?, at?, Option.bind_assoc]
    exact congrArg _ (funext ih)

/-! ### Nesting -/

/-- Maps within maps, no more than so many deep. -/
def Levels (h : Heap) : Nat → Value → Prop
  | 0, v => ¬ h.IsMap v
  | n + 1, v => ∀ es, h.mapEntries? v = some es → ∀ e ∈ es, h.Levels n e.2

/-- Maps within maps, none within itself. -/
def Nested (h : Heap) (v : Value) : Prop := ∃ n, h.Levels n v

theorem levels_of_not_isMap (hv : ¬ h.IsMap v) (n : Nat) : h.Levels n v := by
  cases n with
  | zero => exact hv
  | succ n =>
    intro es hes
    rw [IsMap, hes] at hv
    exact absurd rfl hv

theorem Levels.mono (hm : n ≤ m) (hv : h.Levels n v) : h.Levels m v := by
  induction n generalizing m v with
  | zero => exact levels_of_not_isMap hv m
  | succ n ih =>
    obtain ⟨m, rfl⟩ : ∃ k, m = k + 1 := ⟨m - 1, by omega⟩
    exact fun es hes e he => ih (Nat.le_of_succ_le_succ hm) (hv es hes e he)

theorem Levels.under (hv : h.Levels n v) (hw : h.under? v k = some w) :
    ∃ m, n = m + 1 ∧ h.Levels m w := by
  obtain ⟨es, hes, hf⟩ := Option.bind_eq_some_iff.mp hw
  obtain ⟨x, hx, -⟩ := mem_of_found? hf
  cases n with
  | zero =>
    rw [Levels, IsMap, hes] at hv
    exact absurd rfl hv
  | succ m => exact ⟨m, rfl, hv es hes _ hx⟩

/-- What nested maps have at a path is nested. -/
theorem Nested.at? (hv : h.Nested v) (hw : h.at? q v = some w) : h.Nested w := by
  induction q generalizing v with
  | nil =>
    cases hw
    exact hv
  | cons k q ih =>
    obtain ⟨x, hx, hw⟩ := Option.bind_eq_some_iff.mp hw
    obtain ⟨n, hn⟩ := hv
    obtain ⟨m, -, hm⟩ := hn.under hx
    exact ih ⟨m, hm⟩ hw

/-- Every number of levels up to the one that a map needs is needed by some map. -/
theorem exists_levels (hv : h.Levels (n + 1) (.ref a)) (hn : ¬ h.Levels n (.ref a)) {i : Nat}
    (hi : i ≤ n) : ∃ b < h.size, h.Levels (i + 1) (.ref b) ∧ ¬ h.Levels i (.ref b) := by
  induction n generalizing a with
  | zero =>
    obtain rfl : i = 0 := Nat.le_zero.mp hi
    exact ⟨a, IsMap.lt_size (not_not.mp hn), hv, hn⟩
  | succ n ih =>
    have ha : h.IsMap (.ref a) := by
      by_contra hmap
      exact hn (levels_of_not_isMap hmap _)
    rcases Nat.le_succ_iff.mp hi with hi | rfl
    · rw [Levels] at hn
      push Not at hn
      obtain ⟨es, hes, e, he, hlow⟩ := hn
      obtain ⟨c, hview⟩ := mapEntries?_eq_some.mp hes
      obtain ⟨b, hb⟩ := part_ref (entry_parts hview he).2
      rw [hb] at hlow
      exact ih (hb ▸ hv es hes e he) hlow hi
    · exact ⟨a, ha.lt_size, hv, hn⟩

/-- A map is nested no deeper than there are objects. -/
theorem Nested.levels (hv : h.Nested (.ref a)) : h.Levels h.size (.ref a) := by
  classical
  refine Levels.mono ?_ (Nat.find_spec hv)
  cases hfind : Nat.find hv with
  | zero => exact Nat.zero_le _
  | succ n =>
    have htop : h.Levels (n + 1) (.ref a) := hfind ▸ Nat.find_spec hv
    have hlow : ¬ h.Levels n (.ref a) := Nat.find_min hv (by omega)
    choose! f hf using fun i (hi : i ≤ n) => exists_levels htop hlow hi
    have hcard := Finset.card_le_card_of_injOn (s := Finset.range (n + 1))
      (t := Finset.range h.size) f
      (fun i hi => Finset.mem_coe.mpr (Finset.mem_range.mpr
        (hf i (Nat.le_of_lt_succ (Finset.mem_range.mp hi))).1))
      (fun i hi j hj hij => ?_)
    · rwa [Finset.card_range, Finset.card_range] at hcard
    · have hi := hf i (Nat.le_of_lt_succ (Finset.mem_range.mp (Finset.mem_coe.mp hi)))
      have hj := hf j (Nat.le_of_lt_succ (Finset.mem_range.mp (Finset.mem_coe.mp hj)))
      rw [hij] at hi
      rcases Nat.lt_trichotomy i j with hlt | heq | hlt
      · exact absurd (hi.2.1.mono hlt) hj.2.2
      · exact heq
      · exact absurd (hj.2.1.mono hlt) hi.2.2

end DocDelta.Heap
