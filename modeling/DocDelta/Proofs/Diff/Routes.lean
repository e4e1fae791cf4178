import Mathlib.Data.List.Lex
import DocDelta.Diff.Tracker
import DocDelta.Proofs.Value.Guarded

/-! Routes through a graph of values, and their depth-first order.

A value contains its fields, items and entries in their order, so a route down is a list of
numbers, and the lexicographic order of these lists is the depth-first order. A `Route` goes
through no reference twice. A `Listing` holds, for every reference that some of the routes lead
to, the first route to it. It is put together part by part: what is found below one part need not
be looked for below the parts after it (`Route.beyond`), because a route that comes by a reference
found there could have come to its end below that part. -/
namespace DocDelta.Diff
open Heap Relation

/-! ### Steps down -/

/-- The reference that a value is. -/
def reference? (h : Heap) (v : Value) : Option Mark :=
  if (h.view v).isReference then v.identity h else none

/-- One step down: to an exported field, an item or the value of an entry. -/
inductive Contains (h : Heap) : Value → Value → Prop
  | link {v w : Value} (hl : h.Link v w) : Contains h v w
  | item {v w : Value} {xs : List Value} (hk : (h.view v).kind = .sequence)
      (hi : (h.view v).items? = some xs) (hx : w ∈ xs) : Contains h v w

/-- A reference is reached from a value. -/
def Reaches (h : Heap) (v : Value) (a : Addr) : Prop :=
  ∃ w, ReflTransGen (Contains h) v w ∧ reference? h w = some (some a)

/-- A step down from what is no reference. -/
def PlainStep (h : Heap) (v w : Value) : Prop :=
  (h.view v).isReference = false ∧ Contains h v w

/-- Every cycle that is reached from a value goes through a reference. -/
def Grounded (h : Heap) (v : Value) : Prop :=
  ∀ u, ReflTransGen (Contains h) v u → ¬ TransGen (PlainStep h) u u

section Steps
variable {h : Heap} {v w : Value} {m : Mark}

theorem Grounded.of_contains (hv : Grounded h v) (hw : Contains h v w) : Grounded h w :=
  fun u hu => hv u (.head hw hu)

theorem reference?_eq_some (hm : reference? h v = some m) :
    ∃ a, v = .ref a ∧ m = some a ∧ m ∈ h.marks := by
  unfold reference? at hm
  split at hm
  · rename_i hr
    have hn : h.view v ≠ .nil := by
      intro hn
      rw [hn] at hr
      cases hr
    obtain ⟨a, hv, ha, _⟩ := identity_eq_some hn hm
    exact ⟨a, hv, ha, identity_mem_marks hn hm⟩
  · cases hm

/-- A reference is one value. -/
theorem reference?_inj (hv : reference? h v = some m) (hw : reference? h w = some m) : v = w := by
  obtain ⟨a, rfl, rfl, _⟩ := reference?_eq_some hv
  obtain ⟨b, rfl, hb, _⟩ := reference?_eq_some hw
  cases hb
  rfl

theorem Contains.below (hc : Contains h v w) : w = .nil ∨ TransGen h.Part v w := by
  cases hc with
  | link hl => exact hl.below
  | item hk hi hx => exact .inr (.single (items?_part (by rw [hi]; exact hx)))

theorem Contains.view_ne_nil (hc : Contains h v w) : h.view v ≠ .nil := by
  intro hv
  cases hc with
  | link hl => exact hl.view_ne_nil hv
  | item hk =>
    rw [hv] at hk
    cases hk

theorem Contains.weight_le {v w : Value} (hc : Contains h v w) : weight w ≤ weight v := by
  rcases hc.below with rfl | hw
  · exact Nat.zero_le _
  · exact weight_below hw

theorem Contains.weight_lt {o : Object Value} {w : Value} (hc : Contains h (.inline o) w) :
    weight w < weight (.inline o) := by
  rcases hc.below with rfl | hw
  · have ho : o ≠ .nil := hc.view_ne_nil
    rw [weight_nil, weight_inline ho]
    exact depth_pos
  · exact weight_below_inline hw

/-- From an object of the heap the steps lead to objects of the heap. -/
theorem contains_ref {a : Addr} (hw : ReflTransGen (Contains h) (.ref a) w) (hn : h.view w ≠ .nil) :
    ∃ b, w = .ref b := by
  induction hw with
  | refl => exact ⟨a, rfl⟩
  | tail _ hc ih =>
    obtain ⟨b, rfl⟩ := ih hc.view_ne_nil
    rcases hc.below with rfl | hp
    · exact absurd rfl hn
    · exact within_ref hp.to_reflTransGen

/-- The parts that are walked are what a value contains. -/
theorem contains_iff (p : String) : Contains h v w ↔ ∃ q, (w, q) ∈ trackedParts h v p := by
  constructor
  · intro hc
    cases hc with
    | link hl =>
      cases hl with
      | field f hr hf =>
        simp only [trackedParts, Object.isRecord_iff.mp hr]
        exact ⟨_, List.mem_map.mpr ⟨f, hf, rfl⟩⟩
      | @entry _ he e hm =>
        simp only [trackedParts, mapping_of_entries he, he]
        exact ⟨_, List.mem_map.mpr ⟨e, hm, rfl⟩⟩
    | item hk hi hx =>
      obtain ⟨i, hlt, rfl⟩ := List.mem_iff_getElem.mp hx
      simp only [trackedParts, hk, hi]
      exact ⟨_, List.mem_map.mpr
        ⟨(_, i), List.mem_zipIdx_iff_getElem?.mpr (List.getElem?_eq_getElem hlt), rfl⟩⟩
  · rintro ⟨q, hq⟩
    unfold trackedParts at hq
    dsimp only at hq
    split at hq
    · rename_i hk
      obtain ⟨f, hf, he⟩ := List.mem_map.mp hq
      cases he
      exact .link (.field f (Object.isRecord_iff.mpr hk) hf)
    · rename_i hk
      obtain ⟨⟨x, i⟩, hm, he⟩ := List.mem_map.mp hq
      cases he
      have hx := List.fst_mem_of_mem_zipIdx hm
      cases hi : (h.view v).items? with
      | none =>
        rw [hi] at hx
        cases hx
      | some xs =>
        rw [hi] at hx
        exact .item hk hi hx
    · obtain ⟨e, hm, heq⟩ := List.mem_map.mp hq
      cases heq
      cases he : h.entries? (h.view v) with
      | none =>
        rw [he] at hm
        cases hm
      | some es =>
        rw [he] at hm
        exact .link (.entry he hm)
    · cases hq

/-- Where every object of the heap is a reference or has no parts, no cycle avoids them. -/
theorem grounded_ref (hr : ∀ a < h.size, (h.view (.ref a)).isReference = true ∨
    (h.view (.ref a)).children = []) (a : Addr) : Grounded h (.ref a) := by
  intro u hu hcycle
  obtain ⟨w, ⟨hplain, hc⟩, hw⟩ := TransGen.head'_iff.mp hcycle
  obtain ⟨b, rfl⟩ := contains_ref hu hc.view_ne_nil
  rcases hc.below with rfl | hp
  · -- a lacking field is nothing, from where no step leads back
    rcases hw.cases_head with he | ⟨_, hs, _⟩
    · exact hc.view_ne_nil (congrArg h.view he.symm)
    · exact hs.2.view_ne_nil rfl
  · obtain ⟨x, hx, _⟩ := TransGen.head'_iff.mp hp
    rcases hr b (part_lt_size hx) with hb | hb
    · exact absurd hplain (by rw [hb]; decide)
    · rw [Heap.Part, parts, hb] at hx
      cases hx

end Steps

/-! ### Routes -/

/-- A value that is no reference among those given. -/
def Fresh (h : Heap) (T : List Mark) (v : Value) : Prop := ∀ m, reference? h v = some m → m ∉ T

/-- A route from a value at a path down to another, by the number of the part at each step. It
goes through no reference twice, and through none of those given. -/
inductive Route (h : Heap) :
    List Mark → Value × String → List Nat → Value × String → Prop
  | here {T : List Mark} {x : Value × String} (hx : Fresh h T x.1) : Route h T x [] x
  | down {T : List Mark} {x y z : Value × String} {i : Nat} {r : List Nat} (hx : Fresh h T x.1)
      (hi : (trackedParts h x.1 x.2)[i]? = some y)
      (hr : Route h (T ++ (reference? h x.1).toList) y r z) : Route h T x (i :: r) z

/-- A value is met on some route. -/
def Visits (h : Heap) (T : List Mark) (x : Value × String) (w : Value) : Prop :=
  ∃ r q, Route h T x r (w, q)

section Routes
variable {h : Heap} {T T' : List Mark} {x y z : Value × String} {r : List Nat} {v w : Value} {m : Mark}

theorem Fresh.anti (hv : Fresh h T v) (hs : T' ⊆ T) : Fresh h T' v :=
  fun m hm hin => hv m hm (hs hin)

/-- A value is fresh among references and itself only if it is no reference. -/
theorem fresh_append (hv : Fresh h T w) :
    Fresh h (T ++ (reference? h v).toList) w ∨ w = v := by
  by_cases he : w = v
  · exact .inr he
  · refine .inl fun m hm hin => ?_
    rcases List.mem_append.mp hin with hin | hin
    · exact hv m hm hin
    · exact he (reference?_inj hm (Option.mem_toList.mp hin))

theorem Route.anti (hr : Route h T x r y) (hs : T' ⊆ T) : Route h T' x r y := by
  induction hr generalizing T' with
  | here hx => exact .here (hx.anti hs)
  | down hx hi _ ih =>
    refine .down (hx.anti hs) hi (ih (List.append_subset.mpr ⟨?_, List.subset_append_right _ _⟩))
    exact List.Subset.trans hs (List.subset_append_left _ _)

theorem Route.fresh (hr : Route h T x r y) : Fresh h T x.1 := by
  cases hr with
  | here hx => exact hx
  | down hx => exact hx

theorem Visits.down {i : Nat} (hx : Fresh h T x.1) (hi : (trackedParts h x.1 x.2)[i]? = some y)
    (hm : Visits h (T ++ (reference? h x.1).toList) y w) : Visits h T x w := by
  obtain ⟨r, q, hr⟩ := hm
  exact ⟨i :: r, q, .down hx hi hr⟩

/-- What a met value contains is met, unless it is one of the references given. -/
theorem Route.visits (hr : Route h T x r y) (hc : Contains h y.1 w) (hw : Fresh h T w) :
    Visits h T x w := by
  induction hr with
  | @here T x hx =>
    rcases fresh_append (v := x.1) hw with hw | rfl
    · obtain ⟨q, hq⟩ := (contains_iff x.2).mp hc
      obtain ⟨i, hi⟩ := List.mem_iff_getElem?.mp hq
      exact .down hx hi ⟨[], q, .here hw⟩
    · exact ⟨[], x.2, .here hx⟩
  | @down T x _ _ _ _ hx hi _ ih =>
    rcases fresh_append (v := x.1) hw with hw | rfl
    · exact .down hx hi (ih hc hw)
    · exact ⟨[], x.2, .here hx⟩

/-- From a met value on, a route is on values that are met. -/
theorem Route.visits_end (hr : Route h T' x r y) (hs : T ⊆ T') (hm : Visits h T z x.1) :
    Visits h T z y.1 := by
  induction hr with
  | here => exact hm
  | down hx hi hrest ih =>
    refine ih (List.Subset.trans hs (List.subset_append_left _ _)) ?_
    obtain ⟨s, q, hs'⟩ := hm
    refine hs'.visits ((contains_iff _).mpr ⟨_, List.mem_of_getElem? hi⟩) ?_
    exact hrest.fresh.anti (List.Subset.trans hs (List.subset_append_left _ _))

/-- A route comes by a reference that is met from elsewhere, and then so is its end, or it goes
through none of them. -/
theorem Route.beyond {M : List Mark} (hr : Route h T' x r y) (hs : T ⊆ T')
    (hM : ∀ m ∈ M, ∃ w, reference? h w = some m ∧ Visits h T z w) :
    Visits h T z y.1 ∨ Route h (T' ++ M) x r y := by
  have hfresh : ∀ {T' : List Mark} {x : Value × String}, Fresh h T' x.1 → ¬ Visits h T z x.1 →
      Fresh h (T' ++ M) x.1 := by
    intro T' x hx hvisits m hm hin
    rcases List.mem_append.mp hin with hin | hin
    · exact hx m hm hin
    · obtain ⟨w, hw, hmw⟩ := hM m hin
      exact hvisits (reference?_inj hm hw ▸ hmw)
  induction hr with
  | @here T' x hx =>
    by_cases hm : Visits h T z x.1
    · exact .inl hm
    · exact .inr (.here (hfresh hx hm))
  | @down T' x y _ _ _ hx hi hrest ih =>
    by_cases hm : Visits h T z x.1
    · exact .inl ((Route.down hx hi hrest).visits_end hs hm)
    · refine (ih (List.Subset.trans hs (List.subset_append_left _ _))).imp_right fun hrest => ?_
      refine .down (hfresh hx hm) hi (hrest.anti fun m hin => ?_)
      simp only [List.mem_append] at hin ⊢
      tauto

/-- Whatever is reached is met. -/
theorem visits_of_reaches {p : String} (hw : ReflTransGen (Contains h) v w) :
    Visits h [] (v, p) w := by
  have hfresh : ∀ w, Fresh h [] w := fun _ _ _ hin => nomatch hin
  induction hw with
  | refl => exact ⟨[], p, .here (hfresh v)⟩
  | tail _ hc ih =>
    obtain ⟨r, q, hr⟩ := ih
    exact hr.visits hc (hfresh _)

theorem Route.contains (hr : Route h T x r y) : ReflTransGen (Contains h) x.1 y.1 := by
  induction hr with
  | here => exact .refl
  | down _ hi _ ih => exact .head ((contains_iff _).mpr ⟨_, List.mem_of_getElem? hi⟩) ih

end Routes

/-! ### Listings -/

/-- A reference that is entered: on which route, and at which path. -/
structure Visit where
  route : List Nat
  mark : Mark
  path : String

namespace Visit

def entry (e : Visit) : Mark × String := (e.mark, e.path)

/-- A visit below the part with a number. -/
def under (i : Nat) (e : Visit) : Visit := { e with route := i :: e.route }

end Visit

/-- The references that routes of some sort lead to, in depth-first order: each entry is such a
route, and none to its reference comes before the first. -/
structure Listing (h : Heap) (F : List Nat → Value × String → Prop) (L : List Visit) : Prop where
  sound : ∀ e ∈ L, ∃ w, F e.route (w, e.path) ∧ reference? h w = some e.mark
  sorted : L.Pairwise fun e f => e.route < f.route
  least : ∀ r y m, F r y → reference? h y.1 = some m → ∃ e ∈ L, e.mark = m ∧ e.route ≤ r

/-- The routes that begin with one of some parts, numbered from a first number on. -/
def Among (h : Heap) (T : List Mark) (n : Nat) (xs : List (Value × String)) (r : List Nat)
    (y : Value × String) : Prop :=
  ∃ i x s, xs[i]? = some x ∧ r = (n + i) :: s ∧ Route h T x s y

section Listings
variable {h : Heap} {T : List Mark} {v : Value} {p : String} {m : Mark} {L M : List Visit} {n : Nat}
  {x : Value × String} {xs : List (Value × String)}

/-- Below a reference among those given there is nothing to list. -/
theorem listing_seen (hv : reference? h v = some m) (hm : m ∈ T) :
    Listing h (Route h T (v, p)) [] where
  sound _ he := nomatch he
  sorted := .nil
  least _ _ _ hr _ := absurd hm (hr.fresh m hv)

/-- Where a value is no reference, what its parts lead to is listed. -/
theorem listing_plain (hv : reference? h v = none)
    (hL : Listing h (Among h T 0 (trackedParts h v p)) L) : Listing h (Route h T (v, p)) L := by
  have hfresh : Fresh h T v := fun m hm => by
    rw [hv] at hm
    cases hm
  have hrest : T ++ (reference? h v).toList = T := by rw [hv]; exact List.append_nil T
  refine ⟨fun e he => ?_, hL.sorted, fun r y m hr hy => ?_⟩
  · obtain ⟨w, ⟨i, x, s, hi, hroute, hs⟩, hw⟩ := hL.sound e he
    rw [hroute, Nat.zero_add]
    exact ⟨w, .down hfresh hi (by rw [hrest]; exact hs), hw⟩
  · cases hr with
    | here =>
      rw [hv] at hy
      cases hy
    | @down _ _ _ _ i s _ hi hs =>
      rw [hrest] at hs
      exact hL.least _ _ _ ⟨i, _, s, hi, by rw [Nat.zero_add], hs⟩ hy

/-- A reference comes before what its parts lead to. -/
theorem listing_reference (hv : reference? h v = some m) (hm : m ∉ T)
    (hL : Listing h (Among h (T ++ [m]) 0 (trackedParts h v p)) L) :
    Listing h (Route h T (v, p)) (⟨[], m, p⟩ :: L) := by
  have hfresh : Fresh h T v := fun k hk => by
    cases hv.symm.trans hk
    exact hm
  have hrest : T ++ (reference? h v).toList = T ++ [m] := by rw [hv]; rfl
  refine ⟨fun e he => ?_, .cons (fun e he => ?_) hL.sorted, fun r y k hr hy => ?_⟩
  · rcases List.mem_cons.mp he with rfl | he
    · exact ⟨v, .here hfresh, hv⟩
    · obtain ⟨w, ⟨i, x, s, hi, hroute, hs⟩, hw⟩ := hL.sound e he
      rw [hroute, Nat.zero_add]
      exact ⟨w, .down hfresh hi (by rw [hrest]; exact hs), hw⟩
  · obtain ⟨_, ⟨_, _, _, _, hroute, _⟩, _⟩ := hL.sound e he
    rw [hroute]
    exact List.nil_lt_cons _ _
  · cases hr with
    | here =>
      cases hv.symm.trans hy
      exact ⟨_, List.mem_cons_self .., rfl, not_lt.mp (List.not_lt_nil _)⟩
    | @down _ _ _ _ i s _ hi hs =>
      rw [hrest] at hs
      obtain ⟨e, he, hmark, hle⟩ := hL.least _ _ _ ⟨i, _, s, hi, by rw [Nat.zero_add], hs⟩ hy
      exact ⟨e, List.mem_cons_of_mem _ he, hmark, hle⟩

theorem listing_nil : Listing h (Among h T n []) [] where
  sound _ he := nomatch he
  sorted := .nil
  least := by
    rintro _ _ _ ⟨i, x, s, hi, _⟩
    cases hi

/-- The parts after one need not be searched for what is found below it. -/
theorem listing_cons (hx : Listing h (Route h T x) L)
    (hxs : Listing h (Among h (T ++ L.map (·.mark)) (n + 1) xs) M) :
    Listing h (Among h T n (x :: xs)) (L.map (Visit.under n) ++ M) := by
  have hfound : ∀ m ∈ L.map (·.mark), ∃ w, reference? h w = some m ∧ Visits h T x w := by
    intro m hm
    obtain ⟨e, he, rfl⟩ := List.mem_map.mp hm
    obtain ⟨w, hr, hw⟩ := hx.sound e he
    exact ⟨w, hw, _, _, hr⟩
  have hlater : ∀ e ∈ M, ∃ i s, e.route = (n + 1 + i) :: s := by
    intro e he
    obtain ⟨_, ⟨i, _, s, _, hroute, _⟩, _⟩ := hxs.sound e he
    exact ⟨i, s, hroute⟩
  refine ⟨fun e he => ?_, List.pairwise_append.mpr ⟨?_, hxs.sorted, fun e he f hf => ?_⟩, ?_⟩
  · rcases List.mem_append.mp he with he | he
    · obtain ⟨e, hm, rfl⟩ := List.mem_map.mp he
      obtain ⟨w, hr, hw⟩ := hx.sound e hm
      exact ⟨w, ⟨0, x, e.route, rfl, rfl, hr⟩, hw⟩
    · obtain ⟨w, ⟨i, y, s, hi, hroute, hs⟩, hw⟩ := hxs.sound e he
      refine ⟨w, ⟨i + 1, y, s, hi, ?_, hs.anti (List.subset_append_left _ _)⟩, hw⟩
      rw [hroute, Nat.add_assoc, Nat.add_comm 1 i]
  · refine List.pairwise_map.mpr (hx.sorted.imp fun hlt => ?_)
    exact List.cons_lt_cons_iff.mpr (.inr ⟨rfl, hlt⟩)
  · obtain ⟨e, _, rfl⟩ := List.mem_map.mp he
    obtain ⟨i, s, hroute⟩ := hlater f hf
    rw [hroute]
    exact List.cons_lt_cons_iff.mpr (.inl (by omega))
  · rintro r y m ⟨i, z, s, hi, rfl, hs⟩ hy
    have hbelow : ∀ {s : List Nat}, Route h T x s y → ∃ e ∈ L, e.mark = m ∧ e.route ≤ s :=
      fun hs => hx.least _ _ _ hs hy
    cases i with
    | zero =>
      cases hi
      obtain ⟨e, he, hmark, hle⟩ := hbelow hs
      refine ⟨e.under n, List.mem_append_left _ (List.mem_map_of_mem he), hmark, ?_⟩
      exact List.cons_le_cons n hle
    | succ i =>
      rcases hs.beyond (List.Subset.refl T) hfound with ⟨s', q, hs'⟩ | hs
      · obtain ⟨e, he, hmark, _⟩ := hx.least _ _ _ hs' hy
        refine ⟨e.under n, List.mem_append_left _ (List.mem_map_of_mem he), hmark, ?_⟩
        exact le_of_lt (List.cons_lt_cons_iff.mpr (.inl (by omega)))
      · obtain ⟨e, he, hmark, hle⟩ := hxs.least ((n + (i + 1)) :: s) y m
          ⟨i, z, s, hi, by rw [Nat.add_assoc, Nat.add_comm 1 i], hs⟩ hy
        exact ⟨e, List.mem_append_right _ he, hmark, hle⟩

end Listings

end DocDelta.Diff
