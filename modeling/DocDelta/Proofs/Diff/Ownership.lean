import DocDelta.Proofs.Diff.Naming
import DocDelta.Proofs.Diff.Paths

/-! Names that keep subtrees apart.

The parts of each layer have plain names of their own, and so have the fields of two records that
meet. `Clear` says that of what a task is about. Every rule keeps it, so the subtrees that the
steps of a task own lie apart. -/
namespace DocDelta
open Relation Diff

/-- Fields whose external names are fit to stand on a path and distinct. -/
def OwnNames (fs : List Field) : Prop :=
  (∀ f ∈ fs, PlainName f.external) ∧ (fs.map (·.external)).Nodup

instance (fs : List Field) : Decidable (OwnNames fs) := inferInstanceAs (Decidable (_ ∧ _))

namespace Heap
variable (h : Heap)

/-- The parts of a layer have names of their own, each fit to stand on a path. -/
structure WellNamed (o : Object Value) : Prop where
  plain : ∀ s ∈ h.partNames o, PlainName s
  nodup : (h.partNames o).Nodup

/-- The fields of two records of one class that meet have external names of their own. -/
def MergesApart (old new : Value) : Prop :=
  ∀ x y, ReflTransGen h.Faces (old, new) (x, y) → (h.view x).cls = (h.view y).cls →
    (h.view x).kind = .record → ∀ fs ∈ (h.view x).fields? [h.view y], OwnNames fs

variable {h}

theorem wellNamed_iff {o : Object Value} : h.WellNamed o ↔ h.Labelled PlainName o :=
  ⟨fun hw => ⟨hw.plain, hw.nodup⟩, fun hl => ⟨hl.sort, hl.nodup⟩⟩

theorem everywhere_wellNamed {v : Value} :
    h.Everywhere h.WellNamed v ↔ h.Everywhere (h.Labelled PlainName) v :=
  ⟨fun hv => hv.imp fun _ => wellNamed_iff.mp, fun hv => hv.imp fun _ => wellNamed_iff.mpr⟩

theorem mergesApart_iff {x y : Value} : h.MergesApart x y ↔ h.MeetLabelled PlainName x y := Iff.rfl

theorem wellNamed_nil : h.WellNamed .nil := wellNamed_iff.mpr labelled_nil

theorem wellNamed_of_empty {z : Object Value} (hc : z.children = []) (hr : z.isRecord = false) :
    h.Everywhere h.WellNamed (.inline z) := everywhere_wellNamed.mpr (labelled_of_empty hc hr)

/-- In a heap any two records of which have names of their own, they have where they meet. -/
theorem mergesApart_ref (hm : ∀ a < h.size, ∀ b < h.size, (h.view (.ref a)).kind = .record →
      ∀ fs ∈ (h.view (.ref a)).fields? [h.view (.ref b)], OwnNames fs) (a b : Addr) :
    h.MergesApart (.ref a) (.ref b) := meetLabelled_ref hm a b

end Heap

namespace Diff
open Heap
variable {h : Heap} {o : Options} {path : Label} {task next : Task}

/-- A record's own fields. -/
theorem own_fields {v : Value} (hv : h.Everywhere h.WellNamed v)
    (hr : (h.view v).isRecord = true) :
    (h.view v).fields? [h.view .nil] = some (h.view v).fields ∧ OwnNames (h.view v).fields :=
  labelled_fields (everywhere_wellNamed.mp hv) hr

/-- What a task goes through has names of its own. -/
def Clear (h : Heap) : Task → Prop
  | .compare old new =>
    h.Everywhere h.WellNamed old ∧ h.Everywhere h.WellNamed new ∧ h.MergesApart old new
  | .add v | .addFields v | .remove v | .removeFields v => h.Everywhere h.WellNamed v

theorem clear_iff : Clear h task ↔ TaskLabelled PlainName h task := by
  cases task with
  | compare old new =>
    exact and_congr everywhere_wellNamed (and_congr everywhere_wellNamed mergesApart_iff)
  | _ => exact everywhere_wellNamed

theorem clear_becomes (hb : Becomes h task next) (hc : Clear h task) : Clear h next :=
  clear_iff.mpr (labelled_becomes hb (clear_iff.mp hc))

/-- The steps of a task have distinct plain names, and lead to clear tasks. -/
structure ClearSteps (h : Heap) (steps : List (Label × Task)) : Prop where
  plain : ∀ e ∈ steps, PlainName e.1.text
  nodup : (steps.map (·.1.text)).Nodup
  clear : ∀ e ∈ steps, Clear h e.2

/-- **The steps of a clear task own subtrees that lie apart.** -/
theorem clear_descends {steps : List (Label × Task)} (hd : Descends h o path task steps)
    (hc : Clear h task) : ClearSteps h steps := by
  have hsteps := labelled_descends hd (clear_iff.mp hc)
  exact ⟨hsteps.sort, hsteps.nodup, fun e he => clear_iff.mpr (hsteps.labelled e he)⟩

end Diff
end DocDelta
