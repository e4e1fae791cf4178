import DocDelta.Proofs.Diff.Tracking
import DocDelta.Proofs.Diff.Whole

/-! Looking for shared references does not change the patch, and finds the first of them.

The search fills one table for each side, and the comparison neither reads nor changes them. So
with the search a comparison has the same outcome, unless the tables have a reference in common:
then the one is reported that comes first in the depth-first order of the new side. -/
namespace DocDelta.Diff
open Heap Relation

/-! ### First visits -/

/-- The first route to a reference in depth-first order, and the path at its end. -/
def FirstVisit (h : Heap) (v : Value) (a : Addr) (r : List Nat) (p : String) : Prop :=
  (∃ w, reference? h w = some (some a) ∧ Route h [] (v, "") r (w, p)) ∧
    ∀ w s q, reference? h w = some (some a) → Route h [] (v, "") s (w, q) → r ≤ s

/-- A reference is reached from both of two values. -/
def IsShared (h : Heap) (old new : Value) (a : Addr) : Prop := Reaches h old a ∧ Reaches h new a

section Visits
variable {h : Heap} {old new v : Value} {a : Addr} {e : Visit} {L M : List Visit}

theorem isShared_comm : IsShared h old new a ↔ IsShared h new old a := and_comm

/-- A listing holds just the references that are reached. -/
theorem Listing.reaches (hL : Listing h (Route h [] (v, "")) L) :
    Reaches h v a ↔ ∃ e ∈ L, e.mark = some a := by
  constructor
  · rintro ⟨w, hw, ha⟩
    obtain ⟨r, q, hr⟩ := visits_of_reaches (p := "") hw
    obtain ⟨e, he, hmark, _⟩ := hL.least _ _ _ hr ha
    exact ⟨e, he, hmark⟩
  · rintro ⟨e, he, hmark⟩
    obtain ⟨w, hr, hw⟩ := hL.sound e he
    exact ⟨w, hr.contains, hmark ▸ hw⟩

/-- The first entry of a reference is its first visit. -/
theorem Listing.first (hL : Listing h (Route h [] (v, "")) L) {as bs : List Visit}
    (hsplit : L = as ++ e :: bs) (hmark : e.mark = some a) (hfirst : ∀ f ∈ as, f.mark ≠ some a) :
    FirstVisit h v a e.route e.path := by
  subst hsplit
  obtain ⟨w, hr, hw⟩ := hL.sound e (List.mem_append_right _ (List.mem_cons_self ..))
  refine ⟨⟨w, hmark ▸ hw, hr⟩, fun w s q hw hs => ?_⟩
  obtain ⟨f, hf, hfm, hle⟩ := hL.least _ _ _ hs hw
  have hsorted := (List.pairwise_cons.mp (List.pairwise_append.mp hL.sorted).2.1).1
  rcases List.mem_append.mp hf with hf | hf
  · exact absurd hfm (hfirst f hf)
  · rcases List.mem_cons.mp hf with rfl | hf
    · exact hle
    · exact (le_of_lt (hsorted f hf)).trans hle

theorem findShared_map : findShared (L.map Visit.entry) (M.map Visit.entry) =
    M.findSome? fun f =>
      (L.find? fun e => e.mark == f.mark).map fun e => (f.mark, f.path, e.path) := by
  rw [findShared, List.findSome?_map]
  congr 1
  funext f
  simp only [Function.comp_apply, Visit.entry, List.find?_map, Option.map_map]
  rfl

/-- Without a shared reference nothing is found. -/
theorem findShared_none (hL : Listing h (Route h [] (old, "")) L)
    (hM : Listing h (Route h [] (new, "")) M) (hs : ¬ ∃ a, IsShared h old new a) :
    findShared (L.map Visit.entry) (M.map Visit.entry) = none := by
  rw [findShared_map, List.findSome?_eq_none_iff]
  intro f hf
  rw [Option.map_eq_none_iff, List.find?_eq_none]
  intro e he hmark
  obtain ⟨w, _, hw⟩ := hM.sound f hf
  obtain ⟨a, _, ha, _⟩ := reference?_eq_some hw
  exact hs ⟨a, hL.reaches.mpr ⟨e, he, (beq_iff_eq.mp hmark).trans ha⟩, hM.reaches.mpr ⟨f, hf, ha⟩⟩

/-- What is found is the first shared reference of the new side, each path that of its first
visit. -/
theorem findShared_first (hL : Listing h (Route h [] (old, "")) L)
    (hM : Listing h (Route h [] (new, "")) M) (hs : ∃ a, IsShared h old new a) :
    ∃ a r q s q', findShared (L.map Visit.entry) (M.map Visit.entry) = some (some a, q, q') ∧
      IsShared h old new a ∧ FirstVisit h new a r q ∧ FirstVisit h old a s q' ∧
      ∀ b t k, IsShared h old new b → FirstVisit h new b t k → r ≤ t := by
  have hfinds : ∀ {a : Addr} {f : Visit}, Reaches h old a → f.mark = some a →
      ((L.find? fun e => e.mark == f.mark).map fun e => (f.mark, f.path, e.path)) ≠ none := by
    intro a f ha hf hnone
    obtain ⟨e, he, hmark⟩ := hL.reaches.mp ha
    exact List.find?_eq_none.mp (Option.map_eq_none_iff.mp hnone) e he
      (beq_iff_eq.mpr (hmark.trans hf.symm))
  rw [findShared_map]
  cases hfound : M.findSome? fun f =>
      (L.find? fun e => e.mark == f.mark).map fun e => (f.mark, f.path, e.path) with
  | none =>
    obtain ⟨a, hold, hnew⟩ := hs
    obtain ⟨f, hf, hmark⟩ := hM.reaches.mp hnew
    exact absurd (List.findSome?_eq_none_iff.mp hfound f hf) (hfinds hold hmark)
  | some found =>
    obtain ⟨ms, f, ms', hsplit, hfound, hearlier⟩ := List.findSome?_eq_some_iff.mp hfound
    obtain ⟨e, he, rfl⟩ := Option.map_eq_some_iff.mp hfound
    obtain ⟨hmark, ls, ls', hsplit', hearlier'⟩ := List.find?_eq_some_iff_append.mp he
    have hmark := beq_iff_eq.mp hmark
    have hf : f ∈ M := by rw [hsplit]; exact List.mem_append_right _ (List.mem_cons_self ..)
    obtain ⟨w, _, hw⟩ := hM.sound f hf
    obtain ⟨a, _, ha, _⟩ := reference?_eq_some hw
    have hold : Reaches h old a := hL.reaches.mpr ⟨e, List.mem_of_find?_eq_some he, hmark.trans ha⟩
    refine ⟨a, f.route, f.path, e.route, e.path, by rw [ha], ⟨hold, hM.reaches.mpr ⟨f, hf, ha⟩⟩,
      hM.first hsplit ha fun g hg hgm => hfinds hold hgm (hearlier g hg),
      hL.first hsplit' (hmark.trans ha) fun g hg hgm => ?_, fun b t k hb hvisit => ?_⟩
    · have := hearlier' g hg
      rw [hgm, ha] at this
      simp at this
    · obtain ⟨⟨w, hw, hr⟩, _⟩ := hvisit
      obtain ⟨g, hg, hgm, hle⟩ := hM.least _ _ _ hr hw
      have hsorted := (List.pairwise_cons.mp (List.pairwise_append.mp (hsplit ▸ hM.sorted)).2.1).1
      rw [hsplit] at hg
      rcases List.mem_append.mp hg with hg | hg
      · exact absurd (hearlier g hg) (hfinds hb.1 hgm)
      · rcases List.mem_cons.mp hg with rfl | hg
        · exact hle
        · exact (le_of_lt (hsorted g hg)).trans hle

end Visits

/-! ### The comparison -/

variable {h : Heap} {o : Options} {old new : Value} {p : Patch}

/-- The search lists the references of both sides. -/
theorem run_prepare (hd : o.detectsSharing = true) (ho : Grounded h old) (hn : Grounded h new) :
    ∃ u L M, (prepare h o old new).run .start = (.ok (), u) ∧
      Listing h (Route h [] (old, "")) L ∧ Listing h (Route h [] (new, "")) M ∧
      u.old = L.map Visit.entry ∧ u.new = M.map Visit.entry := by
  have hlists : Lists h true [] (fun T => Route h T (old, "")) (track h true old "") :=
    lists_track ho
  have hlists' : Lists h false [] (fun T => Route h T (new, "")) (track h false new "") :=
    lists_track hn
  obtain ⟨L, hL, hold⟩ := hlists .start (List.nil_subset _)
  obtain ⟨M, hM, hnew⟩ := hlists' (State.start.enter true (L.map Visit.entry)) (List.nil_subset _)
  rw [prepare, if_pos hd, trackRoots]
  rw [run_bind_eq hold, run_bind_eq hnew]
  exact ⟨_, L, M, rfl, hL, hM, rfl, rfl⟩

/-- **The search for shared references is exact and changes nothing else.** Let no cycle of either
value avoid the references, and let there be a patch without the search. If no reference is
reached from both values, the patch is the same with it. Otherwise it ends with a shared
reference: the first one in the depth-first order of the new value, with the paths of its first
visits in both. -/
theorem diff_detects_sharing (ho : Grounded h old) (hn : Grounded h new)
    (hd : (diff h { o with detectsSharing := false } old new).1 = .ok p) :
    ((¬ ∃ a, IsShared h old new a) →
      (diff h { o with detectsSharing := true } old new).1 = .ok p) ∧
    ((∃ a, IsShared h old new a) → ∃ a r q s q',
      (diff h { o with detectsSharing := true } old new).1 = .error (.sharedReference q a q') ∧
      IsShared h old new a ∧ FirstVisit h new a r q ∧ FirstVisit h old a s q' ∧
      ∀ b t k, IsShared h old new b → FirstVisit h new b t k → r ≤ t) := by
  obtain ⟨hc, u, t, hu, ht, _, rfl⟩ := diff_eq_ok.mp hd
  obtain ⟨u', L, M, hu', hL, hM, hold, hnew⟩ :=
    run_prepare (o := { o with detectsSharing := true }) rfl ho hn
  obtain ⟨hpatch, hlabels, hactive⟩ := prepare_start hu
  obtain ⟨hpatch', hlabels', hactive'⟩ := prepare_start hu'
  have hnarrows : Narrows h { o with detectsSharing := false } { o with detectsSharing := true } :=
    ⟨rfl, rfl, fun _ hi => hi⟩
  obtain ⟨t', cs, ds, ht', hthins, hleaves, hleaves'⟩ :=
    inStep_compare hnarrows old new (.plain "") u u' t (hactive.trans hactive'.symm) ht
  obtain rfl := thins_same (fun _ => by rfl) hthins
  have hrecords := hleaves.records
  have hrecords' := hleaves'.records
  rw [Records, hpatch, hlabels] at hrecords
  rw [Records, hpatch', hlabels'] at hrecords'
  have hsame : t'.patch = t.patch := congrArg Prod.fst (hrecords'.trans hrecords.symm)
  rw [diff_of_run hc hu' ht', sharedIn_detected (o := { o with detectsSharing := true }) rfl,
    hleaves'.old, hleaves'.new, hold, hnew, hsame]
  constructor
  · intro hs
    rw [findShared_none hL hM hs]
    rfl
  · intro hs
    obtain ⟨a, r, q, s, q', hfound, hfirst⟩ := findShared_first hL hM hs
    rw [hfound]
    exact ⟨a, r, q, s, q', rfl, hfirst⟩

/-- Two records that hold one list, which holds itself. -/
def knot : Heap :=
  ⟨#[.record ⟨"Box", .freeform⟩ [("items", 3), ("n", 4)],
    .record ⟨"Box", .freeform⟩ [("items", 3), ("n", 5)], .list none [3], .int none 1, .int none 2]⟩

theorem diff_detects_sharing_knot :
    Grounded knot (.ref 1) ∧ Grounded knot (.ref 2) ∧ IsShared knot (.ref 1) (.ref 2) 3 ∧
    (∃ p, (diff knot { Options.default with detectsSharing := false } (.ref 1) (.ref 2)).1 = .ok p ∧
      p.paths = ["n"]) ∧
    ∃ a r q s q', (diff knot { Options.default with detectsSharing := true } (.ref 1) (.ref 2)).1 =
        .error (.sharedReference q a q') ∧
      IsShared knot (.ref 1) (.ref 2) a ∧
      FirstVisit knot (.ref 2) a r q ∧ FirstVisit knot (.ref 1) a s q' := by
  have hcells : (∀ a < knot.size, (knot.view (.ref a)).isReference = true ∨
      (knot.view (.ref a)).children.isEmpty = true) ∧
      (diff knot { Options.default with detectsSharing := false } (.ref 1) (.ref 2)).1.toOption.map
        (·.paths) = some ["n"] := by decide +kernel
  obtain ⟨hcells, hrun⟩ := hcells
  have hgrounded := grounded_ref fun a ha => (hcells a ha).imp_right List.isEmpty_iff.mp
  have hreaches : ∀ v, v = .ref 1 ∨ v = .ref 2 → Reaches knot v 3 := by
    rintro v (rfl | rfl)
    all_goals
      refine ⟨.ref 3, .single ?_, rfl⟩
      exact .link (.field ⟨"items", "items", false⟩ rfl (by decide +kernel))
  have hshared : IsShared knot (.ref 1) (.ref 2) 3 := ⟨hreaches _ (.inl rfl), hreaches _ (.inr rfl)⟩
  obtain ⟨p, hp, hpaths⟩ := Option.map_eq_some_iff.mp hrun
  have hd := ok_of_toOption hp
  obtain ⟨a, r, q, s, q', hend, ha, hnew, hold, _⟩ :=
    (diff_detects_sharing (hgrounded 1) (hgrounded 2) hd).2 ⟨3, hshared⟩
  exact ⟨hgrounded 1, hgrounded 2, hshared, ⟨p, hd, hpaths⟩, a, r, q, s, q', hend, ha, hnew, hold⟩

end DocDelta.Diff
