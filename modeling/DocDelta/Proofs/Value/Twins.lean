import Mathlib.Data.List.Forall2
import DocDelta.Proofs.Value.Locality

/-! Two heaps that differ in what is out of sight.

A `Veil` says which exported fields and which text keys may hold different values. Heaps are
`Twins` under a veil when their layers are the same but for what these hold, and for the
attributes that no exported field tells. Whatever else a layer shows is the same in both, and
values with nothing veiled in them `Agree` altogether. -/
namespace DocDelta

/-- Which exported fields and which keys may hold different values. -/
structure Veil where
  field : Field → Prop
  key : String → Prop

namespace Veil
variable (V : Veil)

/-- Attributes of a name may differ: every exported field that tells them is veiled. -/
def Hides (o : Object Value) (name : String) : Prop := ∀ f ∈ o.fields, f.name = name → V.field f

/-- The same attributes in order, with the same values unless these may differ. -/
def SameAttributes (o : Object Value) (as bs : List (String × Value)) : Prop :=
  List.Forall₂ (fun a b => b.1 = a.1 ∧ (b.2 = a.2 ∨ V.Hides o a.1)) as bs

/-- The same keys in order, with the same values unless these may differ. -/
def SameEntries (h : Heap) (as bs : List (Value × Value)) : Prop :=
  List.Forall₂ (fun a b => b.1 = a.1 ∧
    (b.2 = a.2 ∨ ∃ s, (h.view a.1).text? = some s ∧ V.key s)) as bs

/-- One layer as two heaps show it. -/
inductive Alike (h : Heap) : Object Value → Object Value → Prop
  | same (o : Object Value) : Alike h o o
  | record {c : RecordClass} {as bs : List (String × Value)}
      (ha : V.SameAttributes (.record c as) as bs) : Alike h (.record c as) (.record c bs)
  | map {c : Option Subclass} {as bs : List (Value × Value)} (he : V.SameEntries h as bs) :
      Alike h (.map c as) (.map c bs)

variable {V} {h : Heap}

theorem SameAttributes.names {o : Object Value} {as bs : List (String × Value)}
    (ha : V.SameAttributes o as bs) : bs.map (·.1) = as.map (·.1) := by
  induction ha with
  | nil => rfl
  | cons hd _ ih => rw [List.map_cons, List.map_cons, hd.1, ih]

theorem SameEntries.keys {as bs : List (Value × Value)} (he : V.SameEntries h as bs) :
    bs.map (·.1) = as.map (·.1) := by
  induction he with
  | nil => rfl
  | cons hd _ ih => rw [List.map_cons, List.map_cons, hd.1, ih]

theorem SameAttributes.find? {o : Object Value} {as bs : List (String × Value)}
    (ha : V.SameAttributes o as bs) {name : String} (hn : ¬ V.Hides o name) :
    (bs.find? fun b => b.1 == name).map (·.2) = (as.find? fun a => a.1 == name).map (·.2) := by
  induction ha with
  | nil => rfl
  | @cons a b as bs hd _ ih =>
    rw [List.find?_cons, List.find?_cons, hd.1]
    cases hname : a.1 == name with
    | false => exact ih
    | true =>
      rcases hd.2 with he | hv
      · rw [Option.map_some, Option.map_some, he]
      · exact absurd (eq_of_beq hname ▸ hv) hn

theorem sameEntries_refl (as : List (Value × Value)) : V.SameEntries h as as :=
  List.forall₂_same.mpr fun _ _ => ⟨rfl, .inl rfl⟩

/-- Entries none of which may differ are the same. -/
theorem SameEntries.eq {as bs : List (Value × Value)} (he : V.SameEntries h as bs)
    (hk : ∀ s, ¬ V.key s) : bs = as := by
  induction he with
  | nil => rfl
  | cons hd _ ih =>
    obtain ⟨hkey, hv | ⟨s, _, hs⟩⟩ := hd
    · rw [Prod.ext hkey hv, ih]
    · exact absurd hs (hk s)

theorem Alike.outline {x y : Object Value} (ha : V.Alike h x y) : y.outline = x.outline := by
  cases ha with
  | same => rfl
  | record ha =>
    have hnames := congrArg (List.map fun n => (n, ())) ha.names
    rw [List.map_map, List.map_map] at hnames
    exact congrArg (Object.record _) hnames
  | map he =>
    have hlength := congrArg (List.map fun _ => ((), ())) he.keys
    rw [List.map_map, List.map_map] at hlength
    exact congrArg (Object.map _) hlength

/-- An attribute that may not differ. -/
theorem Alike.attribute? {x y : Object Value} (ha : V.Alike h x y) {name : String}
    (hn : ¬ V.Hides x name) : y.attribute? name = x.attribute? name := by
  cases ha with
  | same => rfl
  | record ha => exact ha.find? hn
  | map => rfl

/-- A layer that is neither a record nor a map is the same. -/
theorem Alike.eq {x y : Object Value} (ha : V.Alike h x y) (hr : x.isRecord = false)
    (hk : x.kind ≠ .mapping) : y = x := by
  cases ha with
  | same => rfl
  | record => cases hr
  | map => exact absurd rfl hk

end Veil

namespace Heap
variable {h h' : Heap} {V : Veil}

/-- Two heaps of one size whose layers are alike under a veil. -/
structure Twins (V : Veil) (h h' : Heap) : Prop where
  size : h'.size = h.size
  layers : ∀ a, V.Alike h (h.view (.ref a)) (h'.view (.ref a))

/-- A value with the same layers all the way down. -/
def Agrees (h h' : Heap) (v : Value) : Prop := ∀ w, h.Within v w → h'.view w = h.view w

/-- Heaps of one size are twins when their cells are alike. -/
theorem twins_of_cells (hs : h'.size = h.size)
    (hl : ∀ a < h.size, V.Alike h (h.view (.ref a)) (h'.view (.ref a))) : Twins V h h' := by
  refine ⟨hs, fun a => ?_⟩
  by_cases ha : a < h.size
  · exact hl a ha
  · have ha := Nat.le_of_not_lt ha
    rw [Heap.view, Heap.view, object_of_size_le ha, object_of_size_le (hs ▸ ha)]
    exact .same _

theorem twins_self (V : Veil) (h : Heap) : Twins V h h := ⟨rfl, fun _ => .same _⟩

section Twins
variable (ht : Twins V h h')
include ht

theorem Twins.view (v : Value) : V.Alike h (h.view v) (h'.view v) := by
  cases v with
  | ref a => exact ht.layers a
  | inline o => exact .same o

theorem Twins.congruent : Congruent h h' := ⟨ht.size, fun v => (ht.view v).outline⟩

theorem Twins.symm : Twins V h' h := by
  refine ⟨ht.size.symm, fun a => ?_⟩
  have hfields := ht.congruent.fields (.ref a)
  have ha := ht.layers a
  generalize h.view (.ref a) = x at ha hfields
  generalize h'.view (.ref a) = y at ha hfields
  cases ha with
  | same => exact .same _
  | record ha =>
    refine .record ((ha.imp ?_).flip)
    rintro ⟨n, v⟩ ⟨_, w⟩ ⟨rfl, hv⟩
    refine ⟨rfl, hv.imp Eq.symm fun hh f hf => hh f ?_⟩
    rwa [← hfields]
  | map he =>
    refine .map ((he.imp ?_).flip)
    rintro a b ⟨hkey, hv⟩
    refine ⟨hkey.symm, hv.imp Eq.symm ?_⟩
    rintro ⟨s, hs, hk⟩
    exact ⟨s, by rw [hkey, ht.congruent.text?, hs], hk⟩

/-- The entries of a mapping, through views of it. -/
theorem Twins.entriesFrom {n : Nat} {x y : Object Value} (ha : V.Alike h x y) :
    Option.Rel (V.SameEntries h) (h.entriesFrom n x) (h'.entriesFrom n y) := by
  induction n generalizing x y with
  | zero =>
    cases ha with
    | same =>
      cases x with
      | map c es => exact .some (Veil.sameEntries_refl es)
      | _ => exact .none
    | record => exact .none
    | map he => exact .some he
  | succ n ih =>
    cases ha with
    | same =>
      cases x with
      | map c es => exact .some (Veil.sameEntries_refl es)
      | mapView t => exact ih (ht.view t)
      | _ => exact .none
    | record => exact .none
    | map he => exact .some he

theorem Twins.entries? (v : Value) :
    Option.Rel (V.SameEntries h) (h.entries? (h.view v)) (h'.entries? (h'.view v)) := by
  have hdepth : ∀ {x y : Object Value}, V.Alike h x y →
      Option.Rel (V.SameEntries h) (h.entries? x) (h'.entries? y) := by
    intro x y ha
    have hrel := fun n => ht.entriesFrom (n := n) ha
    unfold Heap.entries?
    rw [ht.size]
    cases ha with
    | same => exact hrel _
    | record => exact hrel _
    | map => exact hrel _
  exact hdepth (ht.view v)

end Twins

/-! ### Agreement -/

theorem Agrees.view {v : Value} (hv : Agrees h h' v) : h'.view v = h.view v := hv v .refl

theorem Agrees.of_within {v w : Value} (hv : Agrees h h' v) (hw : h.Within v w) : Agrees h h' w :=
  fun u hu => hv u (hw.trans hu)

theorem agrees_inline {o : Object Value} (ho : ∀ w ∈ o.children, Agrees h h' w) :
    Agrees h h' (.inline o) := by
  intro w hw
  rcases hw.cases_head with rfl | ⟨u, hp, hu⟩
  · rfl
  · exact ho u hp w hu

/-- Values that agree are a set in which the heaps show the same. -/
theorem sameOn_agrees (hc : Congruent h h') : SameOn h h' (Agrees h h') where
  toCongruent := hc
  view hv := hv.view
  below hv hw := hv.of_within (.single (Object.contents_children hw))

end Heap
end DocDelta
