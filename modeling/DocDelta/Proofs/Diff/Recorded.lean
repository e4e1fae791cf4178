import DocDelta.Proofs.Diff.Paths
import DocDelta.Proofs.Patch.Entries

/-! What a patch holds after a list of changes.

Every change makes at most one record, at the names of its path and, for an item, one more name
that is its own. Changes that are `Independent` are recorded at paths that lie apart, so the
patch holds all of them, each with the value it was recorded with. -/
namespace DocDelta.Diff
open Patch

/-! ### Records of changes -/

namespace Change

/-- The place names that a change takes. -/
def takes : Change → Nat
  | .whole .. => 0
  | .item .. => 1

/-- The record that a change makes where so many place names were taken before. -/
def record? (n : Nat) : Change → Option Record
  | .whole path (.set v) => some ⟨.set, joinAll (.plain "") path, v⟩
  | .whole path .unset => some ⟨.unset, joinAll (.plain "") path, .text ""⟩
  | .whole path (.push items) => pushed? (joinAll (.plain "") path) items
  | .item path _ v => some ⟨.set, joinPath (joinAll (.plain "") path) (placeName n), v⟩

/-- The filter that a change adds. -/
def filter? (n : Nat) : Change → Option Value
  | .whole .. => none
  | .item _ index _ => some (placeFilter n index)

/-- The names that a change is recorded under. -/
def names (n : Nat) : Change → List String
  | .whole path _ => path.map (·.text)
  | .item path _ _ => path.map (·.text) ++ [(placeName n).text]

/-- Changes that do not meet: their paths lie apart, or both are of items of one sequence. -/
def Independent (c d : Change) : Prop :=
  Apart (c.path.map (·.text)) (d.path.map (·.text)) ∨
    c.takes = 1 ∧ d.takes = 1 ∧ c.path.map (·.text) = d.path.map (·.text)

theorem Independent.under {c d : Change} (hi : Independent c d) (l : Label) :
    Independent (c.under l) (d.under l) := by
  have htakes : ∀ e : Change, (e.under l).takes = e.takes := fun e => by cases e <;> rfl
  unfold Independent
  simp only [path_under, List.map_cons, htakes]
  rcases hi with ha | ⟨hc, hd, he⟩
  · exact .inl (ha.under [l.text])
  · exact .inr ⟨hc, hd, by rw [he]⟩

/-- Independent changes are recorded under names that lie apart. -/
theorem Independent.names_apart {c d : Change} (hi : Independent c d) {m n : Nat}
    (hn : m + c.takes ≤ n) : Apart (c.names m) (d.names n) := by
  have hnames : ∀ (e : Change) (k : Nat), ∃ xs, e.names k = e.path.map (·.text) ++ xs := by
    intro e k
    cases e with
    | whole path action => exact ⟨[], (List.append_nil _).symm⟩
    | item path index v => exact ⟨[(placeName k).text], rfl⟩
  rcases hi with ha | ⟨hc, hd, he⟩
  · obtain ⟨xs, hxs⟩ := hnames c m
    obtain ⟨ys, hys⟩ := hnames d n
    rw [hxs, hys]
    exact ha.append xs ys
  · cases c with
    | whole path action => cases hc
    | item path index v =>
      cases d with
      | whole path' action => cases hd
      | item path' index' v' =>
        have hne : (placeName m).text ≠ (placeName n).text := fun hp => by
          have := placeName_inj hp
          simp only [takes] at hn
          omega
        show Apart (path.map (·.text) ++ _) (path'.map (·.text) ++ _)
        have he : path.map (·.text) = path'.map (·.text) := he
        rw [he]
        exact (apart_cons hne [] []).under _

/-- A change below segments is recorded under segments. -/
theorem segment_names {c : Change} (hp : ∀ l ∈ c.path, Segment l.text) (n : Nat) :
    ∀ s ∈ c.names n, Segment s := by
  have hpath : ∀ s ∈ c.path.map (·.text), Segment s := by
    intro s hs
    obtain ⟨l, hl, rfl⟩ := List.mem_map.mp hs
    exact hp l hl
  cases c with
  | whole path action => exact hpath
  | item path index v =>
    intro s hs
    rcases List.mem_append.mp hs with hs | hs
    · exact hpath s hs
    · rw [List.mem_singleton.mp hs]
      exact segment_placeName n

end Change

/-- The records that changes make, in their order. -/
def recordsFrom : Nat → List Change → List Record
  | _, [] => []
  | n, c :: cs => (c.record? n).toList ++ recordsFrom (n + c.takes) cs

/-- The filters that changes add, in their order. -/
def filtersFrom : Nat → List Change → List Value
  | _, [] => []
  | n, c :: cs => (c.filter? n).toList ++ filtersFrom (n + c.takes) cs

/-- A change is recorded at its names. -/
theorem path_record {c : Change} {n : Nat} {r : Record} (hr : c.record? n = some r) :
    r.path.text = dotted (c.names n) := by
  have hbase : ∀ path : List Label,
      (joinAll (.plain "") path).text = dotted (path.map (·.text)) := text_joinAll rfl
  cases c with
  | whole path action =>
    have hpath : r.path = joinAll (.plain "") path := by
      cases action with
      | set v => cases hr; rfl
      | unset => cases hr; rfl
      | push items =>
        simp only [Change.record?] at hr
        match items with
        | [] => cases hr
        | [v] => cases hr; rfl
        | _ :: _ :: _ => cases hr; rfl
    rw [hpath]
    exact hbase path
  | item path index v =>
    cases hr
    have hnames : dotted ((Change.item path index v).names n) =
        (joinPath (joinAll (.plain "") ((path.map (·.text)).map .plain)) (placeName n)).text := by
      simp [dotted, Change.names, joinAll]
      rfl
    rw [hnames]
    exact text_joinPath (hbase path) rfl

theorem names_record {c : Change} {n : Nat} {r : Record} (hr : c.record? n = some r)
    (hp : ∀ l ∈ c.path, Segment l.text) : names r.path.text = c.names n := by
  rw [path_record hr, names_dotted (Change.segment_names hp n)]

/-- The places that changes are recorded at, in their order. -/
def placesFrom : Nat → List Change → List (List String)
  | _, [] => []
  | n, c :: cs => ((c.record? n).map fun _ => c.names n).toList ++ placesFrom (n + c.takes) cs

theorem mem_placesFrom {ns : List String} {n : Nat} {cs : List Change}
    (hm : ns ∈ placesFrom n cs) : ∃ c ∈ cs, ∃ m, n ≤ m ∧ ns = c.names m := by
  induction cs generalizing n with
  | nil => cases hm
  | cons c cs ih =>
    rcases List.mem_append.mp hm with hm | hm
    · obtain ⟨r, _, rfl⟩ := Option.map_eq_some_iff.mp (Option.mem_toList.mp hm)
      exact ⟨c, List.mem_cons_self .., n, Nat.le_refl n, rfl⟩
    · obtain ⟨d, hd, m, hle, rfl⟩ := ih hm
      exact ⟨d, List.mem_cons_of_mem c hd, m, Nat.le_trans (Nat.le_add_right ..) hle, rfl⟩

/-- **Independent changes are recorded at places that lie apart.** -/
theorem placesFrom_apart {cs : List Change} (hi : cs.Pairwise Change.Independent) (n : Nat) :
    (placesFrom n cs).Pairwise Apart := by
  induction cs generalizing n with
  | nil => exact .nil
  | cons c cs ih =>
    obtain ⟨hc, hi⟩ := List.pairwise_cons.mp hi
    refine List.pairwise_append.mpr ⟨?_, ih hi (n + c.takes), fun ns hns ms hms => ?_⟩
    · cases c.record? n with
      | none => exact .nil
      | some r => exact List.pairwise_singleton ..
    · obtain ⟨r, _, rfl⟩ := Option.map_eq_some_iff.mp (Option.mem_toList.mp hns)
      obtain ⟨d, hd, m, hm, rfl⟩ := mem_placesFrom hms
      exact (hc d hd).names_apart hm

/-- The recorded paths are the places spelled out. -/
theorem paths_recordsFrom (n : Nat) (cs : List Change) :
    (recordsFrom n cs).map (·.path.text) = (placesFrom n cs).map dotted := by
  induction cs generalizing n with
  | nil => rfl
  | cons c cs ih =>
    rw [recordsFrom, placesFrom, List.map_append, List.map_append, ih]
    cases hr : c.record? n with
    | none => rfl
    | some r => simp [path_record hr]

theorem segment_placesFrom {n : Nat} {cs : List Change}
    (hp : ∀ c ∈ cs, ∀ l ∈ c.path, Segment l.text) :
    ∀ ns ∈ placesFrom n cs, ∀ s ∈ ns, Segment s := by
  intro ns hns
  obtain ⟨c, hc, m, _, rfl⟩ := mem_placesFrom hns
  exact Change.segment_names (hp c hc) m

/-- **Independent changes below segments are recorded at paths that lie apart.** -/
theorem recordsFrom_apart {cs : List Change} (hi : cs.Pairwise Change.Independent)
    (hp : ∀ c ∈ cs, ∀ l ∈ c.path, Segment l.text) (n : Nat) :
    (recordsFrom n cs).Pairwise fun r s => Apart (names r.path.text) (names s.path.text) := by
  have hplaces : ((placesFrom n cs).map dotted).Pairwise fun a b => Apart (names a) (names b) := by
    refine List.pairwise_map.mpr ((placesFrom_apart hi n).imp_of_mem fun {a b} ha hb hab => ?_)
    rwa [names_dotted (segment_placesFrom hp a ha), names_dotted (segment_placesFrom hp b hb)]
  rw [← paths_recordsFrom, List.pairwise_map] at hplaces
  exact hplaces

/-! ### The patch -/

theorem accumulates_replay {rs : List Record} {p : Patch} (h : Accumulates rs p) (n : Nat)
    (c : Change) :
    Accumulates (rs ++ (c.record? n).toList) (replay (.plain "") (p, n) c).1 ∧
      (replay (.plain "") (p, n) c).1.filters = p.filters ++ (c.filter? n).toList ∧
        (replay (.plain "") (p, n) c).2 = n + c.takes := by
  cases c with
  | whole path action =>
    cases action with
    | set v => exact ⟨accumulates_enter h ⟨.set, _, v⟩, (List.append_nil _).symm, rfl⟩
    | unset => exact ⟨accumulates_enter h ⟨.unset, _, .text ""⟩, (List.append_nil _).symm, rfl⟩
    | push items =>
      show Accumulates (rs ++ (pushed? _ items).toList) (p.push _ items) ∧
        (p.push _ items).filters = p.filters ++ [] ∧ n = n
      rw [push_eq]
      cases pushed? (joinAll (.plain "") path) items with
      | none => exact ⟨by simpa using h, (List.append_nil _).symm, rfl⟩
      | some r => exact ⟨accumulates_enter h r, (List.append_nil _).symm, rfl⟩
  | item path index v =>
    exact ⟨accumulates_enter (accumulates_addFilter h _) ⟨.set, _, v⟩, rfl, rfl⟩

theorem accumulates_replayAll {rs : List Record} {p : Patch} (h : Accumulates rs p) (n : Nat)
    (cs : List Change) :
    Accumulates (rs ++ recordsFrom n cs) (replayAll (.plain "") cs (p, n)).1 ∧
      (replayAll (.plain "") cs (p, n)).1.filters = p.filters ++ filtersFrom n cs := by
  induction cs generalizing rs p n with
  | nil =>
    rw [recordsFrom, filtersFrom, List.append_nil, List.append_nil]
    exact ⟨h, rfl⟩
  | cons c cs ih =>
    obtain ⟨hc, hfilters, hn⟩ := accumulates_replay h n c
    obtain ⟨hrest, hrestFilters⟩ := ih hc (n + c.takes)
    have hstep : replayAll (.plain "") (c :: cs) (p, n) =
        replayAll (.plain "") cs ((replay (.plain "") (p, n) c).1, n + c.takes) := by
      rw [← hn]
      rfl
    rw [hstep, hrestFilters, hfilters]
    simpa only [recordsFrom, filtersFrom, List.append_assoc, and_true] using hrest

/-- A patch made by changes from nothing. -/
theorem accumulates_changes {cs : List Change} {p : Patch} {n : Nat}
    (hp : (p, n) = replayAll (.plain "") cs (.empty, 0)) :
    Accumulates (recordsFrom 0 cs) p ∧ p.filters = filtersFrom 0 cs := by
  have hreplay := accumulates_replayAll accumulates_empty 0 cs
  rw [← hp] at hreplay
  exact hreplay

end DocDelta.Diff
