import Mathlib.Data.Finset.Prod
import Mathlib.Data.Fintype.Card
import Mathlib.Logic.Relation
import Mathlib.Tactic.IntervalCases
import DocDelta.Value.Field

/-! What a value is made of.

`Part` is one step down: to the children of the layer that a value shows. `Within` is any
number of steps. Properties of whole values are stated of everything within them
(`Everywhere`), so they pass to the parts, and from a field, an item or an entry of a value
to what that holds. `Link` is the step that a comparison takes: through exported fields and
the entries of mappings only. -/
namespace DocDelta.Heap
open Relation
variable (h : Heap)

/-! ### Parts -/

/-- The children of the layer that a value shows. -/
def parts (v : Value) : List Value := (h.view v).children

def Part (v w : Value) : Prop := w ∈ h.parts v

/-- The values that a value is made of, itself among them. -/
def Within (v w : Value) : Prop := ReflTransGen h.Part v w

/-- What holds of the layers of everything within a value. -/
def Everywhere (P : Object Value → Prop) (v : Value) : Prop := ∀ w, h.Within v w → P (h.view w)

/-- No value is within itself. -/
def Acyclic (v : Value) : Prop := ∀ w, h.Within v w → ¬ TransGen h.Part w w

variable {h}

theorem within_self (v : Value) : h.Within v v := .refl

theorem Everywhere.here {P : Object Value → Prop} {v : Value} (hv : h.Everywhere P v) :
    P (h.view v) := hv v (within_self v)

theorem Everywhere.of_within {P : Object Value → Prop} {v w : Value} (hv : h.Everywhere P v)
    (hw : h.Within v w) : h.Everywhere P w := fun u hu => hv u (hw.trans hu)

theorem Everywhere.imp {P Q : Object Value → Prop} {v : Value} (hp : h.Everywhere P v)
    (hi : ∀ o, P o → Q o) : h.Everywhere Q v := fun w hw => hi _ (hp w hw)

theorem Acyclic.of_within {v w : Value} (hv : h.Acyclic v) (hw : h.Within v w) : h.Acyclic w :=
  fun u hu => hv u (hw.trans hu)

@[simp] theorem view_inline (o : Object Value) : h.view (.inline o) = o := rfl

theorem within_nil {w : Value} (hw : h.Within .nil w) : w = .nil := by
  induction hw with
  | refl => rfl
  | tail _ hp ih =>
    subst ih
    cases hp

theorem everywhere_nil {P : Object Value → Prop} (hn : P .nil) : h.Everywhere P .nil := by
  intro w hw
  rw [within_nil hw]
  exact hn

theorem acyclic_nil : h.Acyclic .nil := by
  intro w hw ht
  rw [within_nil hw] at ht
  obtain ⟨u, hu, _⟩ := TransGen.head'_iff.mp ht
  cases hu

/-- A value whose parts do not contain themselves is not within one of them. -/
theorem acyclic_of_parts {v : Value} (hp : ∀ w, h.Part v w → h.Acyclic w) : h.Acyclic v := by
  intro w hw ht
  rcases hw.cases_head with rfl | ⟨u, hu, huw⟩
  · obtain ⟨u, hu, huv⟩ := TransGen.head'_iff.mp ht
    exact hp u hu u .refl (TransGen.tail' huv hu)
  · exact hp u hu w huw ht

theorem everywhere_of_parts {P : Object Value → Prop} {v : Value} (hv : P (h.view v))
    (hp : ∀ w, h.Part v w → h.Everywhere P w) : h.Everywhere P v := by
  intro w hw
  rcases hw.cases_head with rfl | ⟨u, hu, huw⟩
  · exact hv
  · exact hp u hu w huw

/-! ### Layers of the heap -/

theorem children_mapChildren (o : Object Addr) :
    (o.mapChildren Value.ref).children = o.children.map .ref := by
  cases o <;> simp [Object.mapChildren, Object.children, List.map_flatMap, List.flatMap_map]

/-- The parts of an object of the heap are objects of the heap. -/
theorem part_ref {a : Addr} {w : Value} (hp : h.Part (.ref a) w) : ∃ b, w = .ref b := by
  have hw : w ∈ ((h.object a).mapChildren Value.ref).children := hp
  rw [children_mapChildren] at hw
  obtain ⟨b, _, rfl⟩ := List.mem_map.mp hw
  exact ⟨b, rfl⟩

theorem within_ref {a : Addr} {w : Value} (hw : h.Within (.ref a) w) : ∃ b, w = .ref b := by
  induction hw with
  | refl => exact ⟨a, rfl⟩
  | tail _ hp ih =>
    obtain ⟨b, rfl⟩ := ih
    exact part_ref hp

/-- An address outside the heap shows nothing. -/
theorem object_of_size_le {a : Addr} (ha : h.size ≤ a) : h.object a = .nil := by
  cases a with
  | zero => simp [Heap.size] at ha
  | succ a =>
    have : h.cells[a]? = none := Array.getElem?_eq_none (by simp only [Heap.size] at ha; omega)
    simp [Heap.object, this]

theorem part_lt_size {a : Addr} {w : Value} (hp : h.Part (.ref a) w) : a < h.size := by
  by_contra hlt
  have hw : w ∈ ((h.object a).mapChildren Value.ref).children := hp
  rw [object_of_size_le (Nat.le_of_not_lt hlt)] at hw
  cases hw

/-- Objects that rank above their parts do not contain themselves. -/
theorem acyclic_ref (r : Addr → Nat)
    (hr : ∀ a < h.size, ∀ b ∈ (h.object a).children, r b < r a) (a : Addr) : h.Acyclic (.ref a) := by
  have hpart : ∀ {a : Addr} {w : Value}, h.Part (.ref a) w → ∃ b, w = .ref b ∧ r b < r a := by
    intro a w hp
    have hw : w ∈ ((h.object a).mapChildren Value.ref).children := hp
    rw [children_mapChildren] at hw
    obtain ⟨b, hb, rfl⟩ := List.mem_map.mp hw
    exact ⟨b, rfl, hr a (part_lt_size hp) b hb⟩
  intro w hw ht
  obtain ⟨b, rfl⟩ := within_ref hw
  have hbelow : ∀ u, TransGen h.Part (.ref b) u → ∃ c, u = .ref c ∧ r c < r b := by
    intro u hu
    induction hu with
    | single hp => exact hpart hp
    | tail _ hp ih =>
      obtain ⟨c, rfl, hc⟩ := ih
      obtain ⟨d, rfl, hd⟩ := hpart hp
      exact ⟨d, rfl, hd.trans hc⟩
  obtain ⟨c, hc, hlt⟩ := hbelow _ ht
  cases hc
  exact absurd hlt (Nat.lt_irrefl _)

/-- What holds of nothing and of every cell of the heap holds everywhere in it. -/
theorem everywhere_ref {P : Object Value → Prop} (hn : P .nil)
    (hc : ∀ a < h.size, P (h.view (.ref a))) (a : Addr) : h.Everywhere P (.ref a) := by
  intro w hw
  obtain ⟨b, rfl⟩ := within_ref hw
  by_cases hb : b < h.size
  · exact hc b hb
  · rw [Heap.view, object_of_size_le (Nat.le_of_not_lt hb)]
    exact hn

/-! ### Depth -/

theorem depth_le_listDepth {w : Value} {xs : List Value} (hw : w ∈ xs) :
    w.depth ≤ Value.listDepth xs := by
  induction xs with
  | nil => cases hw
  | cons x xs ih =>
    rw [Value.listDepth]
    rcases List.mem_cons.mp hw with rfl | hw
    · exact Nat.le_max_left _ _
    · exact Nat.le_trans (ih hw) (Nat.le_max_right _ _)

theorem depth_le_entriesDepth {w : Value} {es : List (Value × Value)}
    (hw : w ∈ es.flatMap fun e => [e.1, e.2]) : w.depth ≤ Value.entriesDepth es := by
  induction es with
  | nil => cases hw
  | cons e es ih =>
    obtain ⟨k, v⟩ := e
    rw [Value.entriesDepth, Value.entryDepth]
    rcases List.mem_append.mp hw with hw | hw
    · rcases List.mem_cons.mp hw with rfl | hw
      · exact Nat.le_trans (Nat.le_max_left _ _) (Nat.le_max_left _ _)
      · rw [List.mem_singleton.mp hw]
        exact Nat.le_trans (Nat.le_max_right _ _) (Nat.le_max_left _ _)
    · exact Nat.le_trans (ih hw) (Nat.le_max_right _ _)

theorem depth_le_attributesDepth {w : Value} {as : List (String × Value)}
    (hw : w ∈ as.map (·.2)) : w.depth ≤ Value.attributesDepth as := by
  induction as with
  | nil => cases hw
  | cons a as ih =>
    obtain ⟨n, v⟩ := a
    rw [Value.attributesDepth, Value.attributeDepth]
    rcases List.mem_cons.mp hw with rfl | hw
    · exact Nat.le_max_left _ _
    · exact Nat.le_trans (ih hw) (Nat.le_max_right _ _)

theorem depth_le_objectDepth {o : Object Value} {w : Value} (hw : w ∈ o.children) :
    w.depth ≤ Value.objectDepth o := by
  cases o with
  | member c n v =>
    rw [List.mem_singleton.mp hw, Value.objectDepth]
  | list c xs => exact depth_le_listDepth hw
  | tuple c xs => exact depth_le_listDepth hw
  | set c xs => exact depth_le_listDepth hw
  | frozenset c xs => exact depth_le_listDepth hw
  | map c es => exact depth_le_entriesDepth hw
  | mapView t =>
    rw [List.mem_singleton.mp hw, Value.objectDepth]
  | record c as => exact depth_le_attributesDepth hw
  | _ => cases hw

/-- The parts of a value in place are less deep, those of an object of the heap have no depth. -/
theorem depth_part {v w : Value} (hp : h.Part v w) : w.depth ≤ v.depth - 1 := by
  cases v with
  | ref a =>
    obtain ⟨b, rfl⟩ := part_ref hp
    simp [Value.depth]
  | inline o =>
    have := depth_le_objectDepth (show w ∈ o.children from hp)
    simpa [Value.depth] using this

theorem depth_pos {o : Object Value} : 0 < (Value.inline o).depth := by
  simp [Value.depth]

/-! ### Fields, items and entries -/

theorem attribute?_mem {o : Object Value} {name : String} {w : Value}
    (ha : o.attribute? name = some w) : w ∈ o.children := by
  cases o with
  | record c as =>
    simp only [Object.attribute?, Option.map_eq_some_iff] at ha
    obtain ⟨a, hf, rfl⟩ := ha
    exact List.mem_map.mpr ⟨a, List.mem_of_find?_eq_some hf, rfl⟩
  | _ => cases ha

/-- A field's value is a part, or nothing where the field is lacking. -/
theorem fieldValue_part (v : Value) (name : String) :
    h.fieldValue v name = .nil ∨ h.Part v (h.fieldValue v name) := by
  unfold fieldValue
  cases ha : (h.view v).attribute? name with
  | none => exact .inl rfl
  | some w => exact .inr (attribute?_mem ha)

theorem member_part {v w : Value} {c : EnumClass} {n : String} (hv : h.view v = .member c n w) :
    h.Part v w := by
  show w ∈ (h.view v).children
  rw [hv]
  exact List.mem_singleton.mpr rfl

theorem items?_children {o : Object Value} {xs : List Value} (hi : o.items? = some xs) :
    o.children = xs := by
  cases o with
  | list c ys => cases hi; rfl
  | tuple c ys => cases hi; rfl
  | record c as =>
    simp only [Object.items?] at hi
    split at hi
    · cases hi
      rfl
    · cases hi
  | _ => cases hi

theorem entry_children {c : Option Subclass} {es : List (Value × Value)} {e : Value × Value}
    (hm : e ∈ es) : e.1 ∈ (Object.map c es).children ∧ e.2 ∈ (Object.map c es).children :=
  ⟨List.mem_flatMap.mpr ⟨e, hm, List.mem_cons_self ..⟩,
    List.mem_flatMap.mpr ⟨e, hm, List.mem_cons_of_mem _ (List.mem_cons_self ..)⟩⟩

theorem item_part {v w : Value} {c : Option Subclass} {xs : List Value} (hv : h.view v = .list c xs)
    (hw : w ∈ xs) : h.Part v w := by
  rwa [Part, parts, hv]

theorem entry_parts {v : Value} {c : Option Subclass} {es : List (Value × Value)}
    (hv : h.view v = .map c es) {e : Value × Value} (hm : e ∈ es) :
    h.Part v e.1 ∧ h.Part v e.2 := by
  rw [Part, Part, parts, hv]
  exact entry_children hm

theorem entriesFrom_map {n : Nat} {o : Object Value} {es : List (Value × Value)}
    (he : h.entriesFrom n o = some es) :
    (∃ c, o = .map c es) ∨ ∃ w ∈ o.children, ∃ u c, h.Within w u ∧ h.view u = .map c es := by
  induction n generalizing o with
  | zero =>
    cases o with
    | map c fs =>
      cases he
      exact .inl ⟨c, rfl⟩
    | _ => cases he
  | succ n ih =>
    cases o with
    | map c fs =>
      cases he
      exact .inl ⟨c, rfl⟩
    | mapView t =>
      have ht : t ∈ (Object.mapView t).children := List.mem_singleton.mpr rfl
      rcases ih (o := h.view t) he with ⟨c, hc⟩ | ⟨w, hw, u, c, hu, hc⟩
      · exact .inr ⟨t, ht, t, c, .refl, hc⟩
      · exact .inr ⟨t, ht, u, c, .head hw hu, hc⟩
    | _ => cases he

/-- The entries of a mapping are those of a map within it. -/
theorem entries?_map {v : Value} {es : List (Value × Value)}
    (he : h.entries? (h.view v) = some es) : ∃ u c, h.Within v u ∧ h.view u = .map c es := by
  rcases entriesFrom_map he with ⟨c, hc⟩ | ⟨w, hw, u, c, hu, hc⟩
  · exact ⟨v, c, .refl, hc⟩
  · exact ⟨u, c, .head hw hu, hc⟩

theorem entries?_of_map {c : Option Subclass} {es : List (Value × Value)} :
    h.entries? (.map c es) = some es := by
  cases hn : h.size <;> simp [entries?, entriesFrom, hn]

/-- Only mappings have entries. -/
theorem mapping_of_entries {o : Object Value} {es : List (Value × Value)}
    (he : h.entries? o = some es) : o.kind = .mapping := by
  unfold entries? at he
  cases h.size <;> cases o <;> first | rfl | cases he

theorem entries?_none {o : Object Value} (hk : o.kind ≠ .mapping) : h.entries? o = none := by
  cases he : h.entries? o with
  | none => rfl
  | some es => exact absurd (mapping_of_entries he) hk

theorem entries?_record {o : Object Value} (hr : o.isRecord = true) : h.entries? o = none := by
  refine entries?_none fun hk => ?_
  cases o <;> simp_all [Object.kind, Object.isRecord]

/-- The keys and values of a mapping are below it. -/
theorem entries?_below {v : Value} {es : List (Value × Value)}
    (he : h.entries? (h.view v) = some es) {e : Value × Value} (hm : e ∈ es) :
    TransGen h.Part v e.1 ∧ TransGen h.Part v e.2 := by
  obtain ⟨u, c, hu, hc⟩ := entries?_map he
  obtain ⟨hk, hv⟩ := entry_parts hc hm
  exact ⟨.tail' hu hk, .tail' hu hv⟩

theorem within_fieldValue {v : Value} (name : String) :
    h.fieldValue v name = .nil ∨ h.Within v (h.fieldValue v name) :=
  (fieldValue_part v name).imp_right .single

theorem Everywhere.fieldValue {P : Object Value → Prop} {v : Value} (hv : h.Everywhere P v)
    (hn : P .nil) (name : String) : h.Everywhere P (h.fieldValue v name) := by
  rcases within_fieldValue (h := h) (v := v) name with he | hw
  · rw [he]
    exact everywhere_nil hn
  · exact hv.of_within hw

theorem Acyclic.fieldValue {v : Value} (hv : h.Acyclic v) (name : String) :
    h.Acyclic (h.fieldValue v name) := by
  rcases within_fieldValue (h := h) (v := v) name with he | hw
  · rw [he]
    exact acyclic_nil
  · exact hv.of_within hw

/-! ### Identity -/

theorem view_ref_ne_nil {a : Addr} (ha : h.view (.ref a) ≠ .nil) : h.object a ≠ .nil := by
  intro ho
  apply ha
  rw [Heap.view, ho]
  rfl

/-- What has no identity is a value in place other than nothing. -/
theorem identity_eq_none {v : Value} (hv : v.identity h = none) :
    ∃ o, v = .inline o ∧ o ≠ .nil := by
  cases v with
  | ref a =>
    simp only [Value.identity] at hv
    split at hv <;> cases hv
  | inline o =>
    refine ⟨o, rfl, ?_⟩
    rintro rfl
    cases hv

/-- An identity other than that of nothing is an address of the heap. -/
theorem identity_eq_some {v : Value} {m : Option Addr} (hn : h.view v ≠ .nil)
    (hv : v.identity h = some m) : ∃ a, v = .ref a ∧ m = some a ∧ a < h.size := by
  cases v with
  | ref a =>
    have ho := view_ref_ne_nil hn
    have hlt : a < h.size := by
      by_contra hle
      exact ho (object_of_size_le (Nat.le_of_not_lt hle))
    simp only [Value.identity] at hv
    cases hv
    exact ⟨a, rfl, rfl, hlt⟩
  | inline o =>
    cases o with
    | nil => exact absurd rfl hn
    | _ => cases hv

/-! ### Weight

The depth of a value in place counts nothing itself, so a lacking field, which is nothing in
place, would be deeper than the record of the heap that lacks it. The weight does not, and it
falls with every step down from a value in place. -/

/-- How many layers of a value stand in place above the heap, where nothing is none. -/
def weight : Value → Nat
  | .inline .nil => 0
  | v => v.depth

@[simp] theorem weight_nil : weight .nil = 0 := rfl

theorem weight_inline {o : Object Value} (ho : o ≠ .nil) :
    weight (.inline o) = (Value.inline o).depth := by
  cases o <;> first | rfl | exact absurd rfl ho

theorem weight_le_depth (v : Value) : weight v ≤ v.depth := by
  cases v with
  | ref a => exact Nat.le_refl _
  | inline o =>
    by_cases ho : o = .nil
    · rw [ho]
      exact Nat.zero_le _
    · rw [weight_inline ho]

theorem depth_below {v w : Value} (hw : TransGen h.Part v w) : w.depth ≤ v.depth - 1 := by
  induction hw with
  | single hp => exact depth_part hp
  | tail _ hp ih =>
    have := depth_part hp
    omega

theorem weight_below {v w : Value} (hw : TransGen h.Part v w) : weight w ≤ weight v := by
  have hd := depth_below hw
  have hl := weight_le_depth w
  cases v with
  | ref a =>
    have : (Value.ref a).depth = 0 := by simp [Value.depth]
    omega
  | inline o =>
    obtain ⟨u, hu, _⟩ := TransGen.head'_iff.mp hw
    have ho : o ≠ .nil := by
      rintro rfl
      cases hu
    rw [weight_inline ho]
    omega

/-- Everything below a value in place weighs less than it. -/
theorem weight_below_inline {o : Object Value} {w : Value} (hw : TransGen h.Part (.inline o) w) :
    weight w < weight (.inline o) := by
  obtain ⟨u, hu, _⟩ := TransGen.head'_iff.mp hw
  have ho : o ≠ .nil := by
    rintro rfl
    cases hu
  have := depth_below hw
  have := weight_le_depth w
  have := depth_pos (o := o)
  rw [weight_inline ho]
  omega

theorem weight_fieldValue (v : Value) (name : String) : weight (h.fieldValue v name) ≤ weight v := by
  rcases fieldValue_part (h := h) v name with he | hp
  · rw [he]
    exact Nat.zero_le _
  · exact weight_below (.single hp)

theorem weight_fieldValue_inline {o : Object Value} (ho : o ≠ .nil) (name : String) :
    weight (h.fieldValue (.inline o) name) < weight (.inline o) := by
  rcases fieldValue_part (h := h) (.inline o) name with he | hp
  · rw [he, weight_inline ho]
    exact depth_pos
  · exact weight_below_inline (.single hp)

/-! ### Links -/

variable (h)

/-- The steps of a comparison: to the value of an exported field and to a mapping's value. -/
inductive Link : Value → Value → Prop
  | field {v : Value} (f : Field) (hr : (h.view v).isRecord = true)
      (hf : f ∈ (h.view v).fields) : Link v (h.fieldValue v f.name)
  | entry {v : Value} {es : List (Value × Value)} (he : h.entries? (h.view v) = some es)
      {e : Value × Value} (hm : e ∈ es) : Link v e.2

variable {h}

/-- A step leads below the value, or to nothing. -/
theorem Link.below {v w : Value} (hl : h.Link v w) : w = .nil ∨ TransGen h.Part v w := by
  cases hl with
  | field f hr hf => exact (fieldValue_part v f.name).imp_right .single
  | entry he hm => exact .inr (entries?_below he hm).2

theorem Link.view_ne_nil {v w : Value} (hl : h.Link v w) : h.view v ≠ .nil := by
  intro hv
  cases hl with
  | field f hr hf =>
    rw [hv] at hr
    cases hr
  | entry he hm =>
    obtain ⟨u, c, hu, hc⟩ := entries?_map he
    rcases hu.cases_head with rfl | ⟨w, hp, _⟩
    · rw [hv] at hc
      cases hc
    · rw [Part, parts, hv] at hp
      cases hp

theorem Link.weight_le {v w : Value} (hl : h.Link v w) : weight w ≤ weight v := by
  rcases hl.below with rfl | hw
  · exact Nat.zero_le _
  · exact weight_below hw

theorem Link.weight_lt {o : Object Value} {w : Value} (hl : h.Link (.inline o) w) :
    weight w < weight (.inline o) := by
  rcases hl.below with rfl | hw
  · have ho : o ≠ .nil := hl.view_ne_nil
    rw [weight_nil, weight_inline ho]
    exact depth_pos
  · exact weight_below_inline hw

end DocDelta.Heap
