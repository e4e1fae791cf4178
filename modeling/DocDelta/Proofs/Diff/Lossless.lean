import DocDelta.Proofs.Diff.ConflictFree
import DocDelta.Proofs.Diff.Ways

/-! When no change of a comparison is lost.

A path is spelled out from the names on the way to a place, and a later record takes the place of
an earlier one with the same path. `diff_lossless` says how many records there were and how many
operations are left: one for each changed place and one for each path that spells such a place.
Both are the same as long as no name is empty or holds a dot. -/
namespace DocDelta.Diff
open Patch Heap
variable {h : Heap} {o : Options} {old new : Value} {p : Patch} {messages : List Message}

/-- A place that a change may be recorded at: the end of a way into two values, or an item there. -/
def IsPlace (h : Heap) (old new : Value) (place : List String) : Prop :=
  ∃ es, Way h (old, new) es ∧
    (place = es.map (·.name) ∨ ∃ n, place = es.map (·.name) ++ [(placeName n).text])

/-- Paths without repetition are as many as the texts that they are among just when those do not
repeat either. -/
theorem length_eq_iff_nodup {α : Type} [DecidableEq α] {xs ys : List α} (hx : xs.Nodup)
    (hm : ∀ a, a ∈ xs ↔ a ∈ ys) : xs.length = ys.length ↔ ys.Nodup := by
  have hsub : xs.Subperm ys := List.subperm_of_subset hx fun a ha => (hm a).mp ha
  constructor
  · intro hl
    exact (hsub.perm_of_length_le hl.ge).nodup_iff.mp hx
  · intro hy
    exact ((List.perm_ext_iff_of_nodup hx hy).mpr hm).length_eq

/-- **No change is lost where no two changed places are spelled alike.** Let the parts of every
layer of two values have distinct names, and the fields of any two records of one class that
meet. If there is a patch, with any options, it counts the changed places, and its operations
are at the paths that spell these; so every change is among them just when the paths differ. That
is so if no name is empty or holds a dot. -/
theorem diff_lossless (ho : h.Everywhere (h.Labelled fun _ => True) old)
    (hn : h.Everywhere (h.Labelled fun _ => True) new)
    (hm : h.MeetLabelled (fun _ => True) old new) (hd : diff h o old new = (.ok p, messages)) :
    (∃ places : List (List String), places.Pairwise Apart ∧
      (∀ place ∈ places, IsPlace h old new place) ∧
      p.metadata.totalChanges = .counted places.length ∧ p.paths.Nodup ∧
      (∀ path, path ∈ p.paths ↔ path ∈ places.map dotted) ∧
      (p.metadata.totalChanges = .counted p.entries.length ↔ (places.map dotted).Nodup)) ∧
    (h.Everywhere (h.Labelled Segment) old → h.Everywhere (h.Labelled Segment) new →
      h.MeetLabelled Segment old new → p.metadata.totalChanges = .counted p.entries.length) := by
  obtain ⟨cs, n, hy, hp⟩ := yields_diff hd
  obtain ⟨hrecords, -⟩ := accumulates_changes hp
  have hpaths : ∀ path, path ∈ p.paths ↔ path ∈ (placesFrom 0 cs).map dotted := fun path => by
    rw [mem_paths_iff hrecords, paths_recordsFrom]
  have htotal : p.metadata.totalChanges = .counted (placesFrom 0 cs).length := by
    have hlength := congrArg List.length (paths_recordsFrom 0 cs)
    rw [List.length_map, List.length_map] at hlength
    rw [hrecords.total, hlength]
  have hentries : p.paths.length = p.entries.length := List.length_map _
  have hcount : p.metadata.totalChanges = .counted p.entries.length ↔
      ((placesFrom 0 cs).map dotted).Nodup := by
    rw [← length_eq_iff_nodup (paths_nodup hrecords) hpaths, htotal, hentries, List.length_map,
      Total.counted.injEq, Nat.cast_inj]
    exact eq_comm
  refine ⟨⟨placesFrom 0 cs, ?_, ?_, htotal, paths_nodup hrecords, hpaths, hcount⟩,
    fun hos hns hms => ?_⟩
  · exact placesFrom_apart (yields_scattered hy ⟨ho, hn, hm⟩).independent 0
  · intro place hplace
    obtain ⟨c, hc, m, _, rfl⟩ := mem_placesFrom hplace
    obtain ⟨es, ⟨hw, hnames⟩, _⟩ := yields_way hy ⟨ho, hn, hm⟩ c hc
    refine ⟨es, hw, ?_⟩
    rw [hnames]
    cases c with
    | whole path action => exact .inl rfl
    | item path index v => exact .inr ⟨m, rfl⟩
  · have hs := yields_scattered hy ⟨hos, hns, hms⟩
    refine hcount.mpr ?_
    rw [← paths_recordsFrom]
    exact List.pairwise_map.mpr
      ((recordsFrom_apart hs.independent hs.sort 0).imp fun ha => (not_covers_of_apart ha).1)

theorem diff_lossless_boxes :
    ∃ p messages, diff boxes ⟨[], .smart, .set, false, []⟩ (.ref 1) (.ref 2) = (.ok p, messages) ∧
      p.paths = ["x", "xs.$[elem0]", "xs.$[elem1]"] ∧
      p.metadata.totalChanges = .counted p.entries.length ∧
      ∃ places : List (List String), places.Pairwise Apart ∧
        p.metadata.totalChanges = .counted places.length ∧ (places.map dotted).Nodup := by
  obtain ⟨hcells, hapart⟩ := boxes_named
  have hnamed := fun a => everywhere_wellNamed.mp (everywhere_ref wellNamed_nil hcells a)
  have hany := fun a => (hnamed a).imp fun _ hl => hl.imp (Q := fun _ => True) fun _ _ => trivial
  have hsegment := fun a => (hnamed a).imp fun _ hl => hl.imp fun _ hs => hs.1
  obtain ⟨p, messages, hd, hpaths⟩ := diff_boxes
  obtain ⟨⟨places, hplaces, _, htotal, _, _, hcount⟩, hall⟩ := diff_lossless (hany 1) (hany 2)
    ((mergesApart_iff.mp (hapart 1 2)).imp fun _ _ => trivial) hd
  have hlossless := hall (hsegment 1) (hsegment 2)
    ((mergesApart_iff.mp (hapart 1 2)).imp fun _ hs => hs.1)
  exact ⟨p, messages, hd, hpaths, hlossless, places, hplaces, htotal, hcount.mp hlossless⟩

/-- Two mappings with a key under another one and a key that spells the way there. -/
def spelled : Heap :=
  ⟨#[.map none [(3, 9), (5, 6)], .map none [(3, 10), (5, 8)], .text none "a", .text none "b",
    .text none "a.b", .int none 1, .int none 2, .int none 3, .map none [(4, 6)],
    .map none [(4, 7)]]⟩

/-- With dots in keys a change can be lost: two places are changed, and one operation is left. -/
theorem diff_loses_spelled :
    ¬ ∀ (h : Heap) (o : Options) (old new : Value) (p : Patch) (messages : List Message),
      h.Everywhere (h.Labelled fun _ => True) old → h.Everywhere (h.Labelled fun _ => True) new →
        diff h o old new = (.ok p, messages) →
          p.metadata.totalChanges = .counted p.entries.length := by
  intro hall
  have hfacts : (∀ a < spelled.size, (spelled.partNames (spelled.view (.ref a))).Nodup) ∧
      (diff spelled .default (.ref 1) (.ref 2)).1.toOption.map
        (fun p => (p.metadata.totalChanges.count, p.paths)) = some (2, ["a.b"]) := by decide +kernel
  obtain ⟨hcells, hrun⟩ := hfacts
  have hnamed := everywhere_ref labelled_nil fun a ha =>
    (⟨fun _ _ => trivial, hcells a ha⟩ : spelled.Labelled (fun _ => True) _)
  obtain ⟨p, hp, hfound⟩ := Option.map_eq_some_iff.mp hrun
  have htotal := hall spelled .default (.ref 1) (.ref 2) p _ (hnamed 1) (hnamed 2)
    (Prod.ext (ok_of_toOption hp) rfl)
  obtain ⟨hcount, hpaths⟩ := Prod.mk.inj hfound
  have hlength : p.entries.length = 1 := by
    rw [← List.length_map (fun e => e.2.1)]
    exact congrArg List.length hpaths
  rw [htotal, hlength] at hcount
  cases hcount

end DocDelta.Diff
