import DocDelta.Proofs.Diff.Ownership
import DocDelta.Proofs.Diff.Separation
import DocDelta.Proofs.Diff.Whole

/-! No two operations of a patch meet.

`yields_separate` is the invariant: a clear task yields changes at places with plain names that do
not meet. `diff_conflict_free` reads it off the patch. -/
namespace DocDelta.Diff
open Patch Heap
variable {h : Heap} {o : Options} {path : Label} {task : Task} {cs : List Change}

/-! ### Changes of a task -/

/-- Changes that keep to places with plain names and do not meet. -/
structure Separate (cs : List Change) : Prop where
  plain : ∀ c ∈ cs, ∀ l ∈ c.path, PlainName l.text
  independent : cs.Pairwise Change.Independent

/-- **The changes of a clear task do not meet.** -/
theorem yields_separate (hy : Yields h o task path cs) (hc : Clear h task) : Separate cs :=
  have hs := yields_scattered hy (clear_iff.mp hc)
  ⟨hs.sort, hs.independent⟩

/-! ### The patch -/

variable {old new : Value} {p : Patch} {messages : List Message}

/-- A patch of two values with names of their own comes from changes that do not meet. -/
theorem diff_separate (ho : h.Everywhere h.WellNamed old) (hn : h.Everywhere h.WellNamed new)
    (hm : h.MergesApart old new) (hd : diff h o old new = (.ok p, messages)) :
    ∃ cs, Yields h o (.compare old new) (.plain "") cs ∧ Separate cs ∧
      Accumulates (recordsFrom 0 cs) p ∧ p.filters = filtersFrom 0 cs := by
  obtain ⟨cs, n, hy, hp⟩ := yields_diff hd
  obtain ⟨hrecords, hfilters⟩ := accumulates_changes hp
  exact ⟨cs, hy, yields_separate hy ⟨ho, hn, hm⟩, hrecords, hfilters⟩

theorem Separate.records_apart (hs : Separate cs) :
    (recordsFrom 0 cs).Pairwise fun r s => Apart (names r.path.text) (names s.path.text) :=
  recordsFrom_apart hs.independent (fun c hc l hl => (hs.plain c hc l hl).1) 0

theorem Separate.records_nodup (hs : Separate cs) :
    ((recordsFrom 0 cs).map (·.path.text)).Nodup :=
  List.pairwise_map.mpr (hs.records_apart.imp fun ha => (not_covers_of_apart ha).1)

/-- **Conflict freedom.** Let the parts of every layer of two values have names of their own,
and the fields of any two records of one class that meet. If there is a patch, with any options,
no path was recorded twice or lies below another; in particular nothing is done to a whole
sequence some item of which is set. -/
theorem diff_conflict_free (ho : h.Everywhere h.WellNamed old) (hn : h.Everywhere h.WellNamed new)
    (hm : h.MergesApart old new) (hd : diff h o old new = (.ok p, messages)) :
    p.paths.Nodup ∧ p.metadata.totalChanges = .counted p.paths.length ∧
    (∀ a ∈ p.paths, ∀ b ∈ p.paths, a ≠ b → ¬ Covers a b) ∧
    ∀ whole n, whole.text ∈ p.paths → (joinPath whole (placeName n)).text ∉ p.paths := by
  obtain ⟨cs, _, hs, hrecords, _⟩ := diff_separate ho hn hm hd
  have hperm := paths_perm hrecords hs.records_nodup
  have hapart : ∀ a ∈ p.paths, ∀ b ∈ p.paths, a ≠ b → ¬ Covers a b := by
    have hpairs := hs.records_apart.imp fun ha => (not_covers_of_apart ha).2
    have hcovers : ((recordsFrom 0 cs).map (·.path.text)).Pairwise
        fun a b => ¬ Covers a b ∧ ¬ Covers b a := List.pairwise_map.mpr hpairs
    have : Std.Symm fun a b => ¬ Covers a b ∧ ¬ Covers b a := ⟨fun _ _ h => h.symm⟩
    intro a ha b hb hne
    exact (hcovers.forall (hperm.subset ha) (hperm.subset hb) hne).1
  refine ⟨hperm.nodup_iff.mpr hs.records_nodup, ?_, hapart, fun whole n hw hp => ?_⟩
  · rw [hrecords.total, hperm.length_eq, List.length_map]
  · refine hapart _ hw _ hp (fun he => ?_) (covers_joinPath whole (placeName n))
    have hnames := congrArg names he
    rw [names_joinPath whole (segment_placeName n)] at hnames
    simp at hnames

/-- Every class is one of records that hold any attributes. -/
def freeforms : ClassTable := fun n => .record ⟨n, .freeform⟩

/-- Two boxes that differ in `x` and in some of the `xs`. -/
def boxes : Heap :=
  ⟨#[.record ⟨"Box", .freeform⟩ [("x", 3), ("xs", 4)],
    .record ⟨"Box", .freeform⟩ [("x", 5), ("xs", 6)],
    .int none 1, .list none [7, 8, 7], .int none 2, .list none [8, 8, 8],
    .list none [3], .list none [5]]⟩

theorem boxes_named :
    (∀ a < boxes.size, boxes.WellNamed (boxes.view (.ref a))) ∧ ∀ a b, boxes.MergesApart (.ref a) (.ref b) := by
  have hcells : (∀ a < boxes.size, (∀ s ∈ boxes.partNames (boxes.view (.ref a)), PlainName s) ∧
      (boxes.partNames (boxes.view (.ref a))).Nodup) ∧
      ∀ a < boxes.size, ∀ b < boxes.size, (boxes.view (.ref a)).kind = .record →
        ∀ fs ∈ (boxes.view (.ref a)).fields? [boxes.view (.ref b)], OwnNames fs := by decide +kernel
  exact ⟨fun a ha => ⟨(hcells.1 a ha).1, (hcells.1 a ha).2⟩, mergesApart_ref hcells.2⟩

theorem follows_boxes (a : Addr) : boxes.Everywhere (Object.Follows freeforms) (.ref a) :=
  everywhere_ref (Object.follows_nil freeforms) (by decide) a

theorem diff_boxes : ∃ p messages,
    diff boxes ⟨[], .smart, .set, false, []⟩ (.ref 1) (.ref 2) = (.ok p, messages) ∧
      p.paths = ["x", "xs.$[elem0]", "xs.$[elem1]"] := by
  have hrun : (diff boxes ⟨[], .smart, .set, false, []⟩ (.ref 1) (.ref 2)).1.toOption.map (·.paths) =
      some ["x", "xs.$[elem0]", "xs.$[elem1]"] := by decide +kernel
  obtain ⟨p, hp, hpaths⟩ := Option.map_eq_some_iff.mp hrun
  exact ⟨p, _, Prod.ext (ok_of_toOption hp) rfl, hpaths⟩

theorem diff_conflict_free_boxes :
    boxes.Everywhere boxes.WellNamed (.ref 1) ∧ boxes.Everywhere boxes.WellNamed (.ref 2) ∧
    boxes.MergesApart (.ref 1) (.ref 2) ∧
    ∃ p messages, diff boxes ⟨[], .smart, .set, false, []⟩ (.ref 1) (.ref 2) = (.ok p, messages) ∧
      p.paths = ["x", "xs.$[elem0]", "xs.$[elem1]"] ∧ p.paths.Nodup ∧
      ∀ a ∈ p.paths, ∀ b ∈ p.paths, a ≠ b → ¬ Covers a b := by
  obtain ⟨hcells, hapart⟩ := boxes_named
  have hnamed := everywhere_ref wellNamed_nil hcells
  obtain ⟨p, messages, hd, hpaths⟩ := diff_boxes
  obtain ⟨hnodup, _, hcovers, _⟩ := diff_conflict_free (hnamed 1) (hnamed 2) (hapart 1 2) hd
  exact ⟨hnamed 1, hnamed 2, hapart 1 2, p, messages, hd, hpaths, hnodup, hcovers⟩

/-- Two records of a class that declares no fields, where a field of one has the external name
that another field of the other has. -/
def renamed : Heap :=
  ⟨#[.record ⟨"P", .freeform⟩ [("userId", 3)], .record ⟨"P", .freeform⟩ [("user_id", 4)],
    .int none 5, .record ⟨"Q", .freeform⟩ [("x", 5)], .int none 1]⟩

/-- Names of their own in each of the two values are not enough: one path is unset and another
below it is set. -/
theorem diff_conflicts_renamed :
    ¬ ∀ (h : Heap) (o : Options) (old new : Value) (p : Patch) (messages : List Message),
      h.Everywhere h.WellNamed old → h.Everywhere h.WellNamed new →
        diff h o old new = (.ok p, messages) →
          p.paths.Nodup ∧ ∀ a ∈ p.paths, ∀ b ∈ p.paths, a ≠ b → ¬ Covers a b := by
  intro hall
  have hfacts : (∀ a < renamed.size,
      (∀ s ∈ renamed.partNames (renamed.view (.ref a)), PlainName s) ∧
        (renamed.partNames (renamed.view (.ref a))).Nodup) ∧
      (diff renamed .default (.ref 1) (.ref 2)).1.toOption.map (·.paths) =
        some ["user_id", "user_id.x"] := by decide +kernel
  obtain ⟨hcells, hrun⟩ := hfacts
  have hnamed := everywhere_ref wellNamed_nil fun a ha => ⟨(hcells a ha).1, (hcells a ha).2⟩
  obtain ⟨p, hp, hpaths⟩ := Option.map_eq_some_iff.mp hrun
  obtain ⟨_, hcovers⟩ := hall renamed .default (.ref 1) (.ref 2) p _ (hnamed 1) (hnamed 2)
    (Prod.ext (ok_of_toOption hp) rfl)
  rw [hpaths] at hcovers
  exact hcovers "user_id" (by simp) "user_id.x" (by simp) (by decide) (.inr ⟨"x", by decide⟩)

end DocDelta.Diff
