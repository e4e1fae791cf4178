import DocDelta.Proofs.Document.Matched
import DocDelta.Proofs.Value.Outline

/-! Values whose mappings come in another order.

A value is `Rearranged` where the entries of mappings, at any depth, come in another order and all
else is as it was: keys, and whatever is compared as a whole, stay the objects they are. What one
layer tells is the same then, and the parts of it are rearranged again: by attribute, by place and
by key. -/
namespace DocDelta.Heap
open Relation

/-! ### Layers -/

/-- Entries with the same keys and with values that `R` relates, in some order. -/
def Shuffled (R : Value → Value → Prop) (es fs : List (Value × Value)) : Prop :=
  ∃ ds, List.Forall₂ (fun x y => x.1 = y.1 ∧ R x.2 y.2) es ds ∧ ds.Perm fs

variable (h : Heap)

/-- One layer: the same object, or one with the same parts but for `R`, where the entries of a map
may come in another order. -/
inductive Reorders (R : Value → Value → Prop) (a b : Value) : Prop
  | same (he : a = b)
  | list {c : Option Subclass} {xs ys : List Value} (ha : h.view a = .list c xs)
      (hb : h.view b = .list c ys) (hp : List.Forall₂ R xs ys)
  | tuple {c : Option Subclass} {xs ys : List Value} (ha : h.view a = .tuple c xs)
      (hb : h.view b = .tuple c ys) (hp : List.Forall₂ R xs ys)
  | record {c : RecordClass} {as bs : List (String × Value)} (ha : h.view a = .record c as)
      (hb : h.view b = .record c bs) (hp : List.Forall₂ (fun x y => x.1 = y.1 ∧ R x.2 y.2) as bs)
  | map {c : Option Subclass} {es fs : List (Value × Value)} (ha : h.view a = .map c es)
      (hb : h.view b = .map c fs) (hp : Shuffled R es fs)
  | mapView {t u : Value} (ha : h.view a = .mapView t) (hb : h.view b = .mapView u) (hp : R t u)

/-- One value is the other but for the order of the entries of mappings, at any depth. -/
def Rearranged (a b : Value) : Prop := ∃ R, (∀ u w, R u w → h.Reorders R u w) ∧ R a b

variable {h} {R S : Value → Value → Prop} {a b u w x y : Value} {es fs : List (Value × Value)}

theorem Shuffled.imp (hs : Shuffled R es fs) (hi : ∀ u w, R u w → S u w) : Shuffled S es fs := by
  obtain ⟨ds, hp, ho⟩ := hs
  exact ⟨ds, hp.imp fun _ _ hxy => ⟨hxy.1, hi _ _ hxy.2⟩, ho⟩

theorem Shuffled.flip (hs : Shuffled R es fs) : Shuffled (fun u w => R w u) fs es := by
  obtain ⟨ds, hp, ho⟩ := hs
  have hback : Relation.Comp List.Perm
      (List.Forall₂ fun x y : Value × Value => x.1 = y.1 ∧ R y.2 x.2) fs es :=
    ⟨ds, ho.symm, hp.flip.imp fun _ _ hxy => ⟨hxy.1.symm, hxy.2⟩⟩
  rwa [← List.forall₂_comp_perm_eq_perm_comp_forall₂] at hback

theorem shuffled_refl (hr : ∀ v, R v v) (es : List (Value × Value)) : Shuffled R es es :=
  ⟨es, List.forall₂_same.mpr fun e _ => ⟨rfl, hr e.2⟩, .refl es⟩

theorem Shuffled.length_eq (hs : Shuffled R es fs) : es.length = fs.length := by
  obtain ⟨ds, hp, ho⟩ := hs
  exact hp.length_eq.trans ho.length_eq

theorem mem_of_forall₂ {α β : Type} {P : α → β → Prop} {xs : List α} {ys : List β}
    (hp : List.Forall₂ P xs ys) {y : β} (hy : y ∈ ys) : ∃ x ∈ xs, P x y := by
  obtain ⟨i, hi, rfl⟩ := List.mem_iff_getElem.mp hy
  obtain ⟨hl, hp⟩ := List.forall₂_iff_get.mp hp
  exact ⟨xs[i], List.getElem_mem (hl ▸ hi), hp i (hl ▸ hi) hi⟩

/-- Every entry is that of one on the other side. -/
theorem Shuffled.mem (hs : Shuffled R es fs) {f : Value × Value} (hf : f ∈ fs) :
    ∃ e ∈ es, e.1 = f.1 ∧ R e.2 f.2 := by
  obtain ⟨ds, hp, ho⟩ := hs
  exact mem_of_forall₂ hp (ho.mem_iff.mpr hf)

theorem Reorders.imp (hr : h.Reorders R a b) (hi : ∀ u w, R u w → S u w) : h.Reorders S a b := by
  cases hr with
  | same he => exact .same he
  | list ha hb hp => exact .list ha hb (hp.imp hi)
  | tuple ha hb hp => exact .tuple ha hb (hp.imp hi)
  | record ha hb hp => exact .record ha hb (hp.imp fun _ _ hxy => ⟨hxy.1, hi _ _ hxy.2⟩)
  | map ha hb hp => exact .map ha hb (hp.imp hi)
  | mapView ha hb hp => exact .mapView ha hb (hi _ _ hp)

theorem Reorders.flip (hr : h.Reorders R a b) : h.Reorders (fun u w => R w u) b a := by
  cases hr with
  | same he => exact .same he.symm
  | list ha hb hp => exact .list hb ha hp.flip
  | tuple ha hb hp => exact .tuple hb ha hp.flip
  | record ha hb hp => exact .record hb ha (hp.flip.imp fun _ _ hxy => ⟨hxy.1.symm, hxy.2⟩)
  | map ha hb hp => exact .map hb ha hp.flip
  | mapView ha hb hp => exact .mapView hb ha hp

/-! ### Rearranged values -/

theorem rearranged_refl (a : Value) : h.Rearranged a a := ⟨Eq, fun _ _ => .same, rfl⟩

theorem Rearranged.reorders (hr : h.Rearranged a b) : h.Reorders h.Rearranged a b := by
  obtain ⟨R, hR, hab⟩ := hr
  exact (hR a b hab).imp fun u w huw => ⟨R, hR, huw⟩

theorem Rearranged.symm (hr : h.Rearranged a b) : h.Rearranged b a :=
  ⟨fun u w => h.Rearranged w u, fun _ _ huw => huw.reorders.flip, hr⟩

/-- Whatever is no record, sequence or mapping is the same object. -/
theorem Rearranged.eq_of_leaf (hr : h.Rearranged a b) (hl : (h.view a).kind.isLeaf = true) :
    a = b := by
  cases hr.reorders with
  | same he => exact he
  | list ha | tuple ha | record ha | map ha | mapView ha =>
    rw [ha] at hl
    cases hl

/-- All that a layer shows without its children is as it was. -/
theorem Rearranged.outline (hr : h.Rearranged a b) : (h.view b).outline = (h.view a).outline := by
  have hunits : ∀ {α γ : Type} (c : γ) {xs ys : List α}, xs.length = ys.length →
      ys.map (fun _ => c) = xs.map fun _ => c := by
    intro α γ c xs ys hl
    rw [List.map_const', List.map_const', hl]
  cases hr.reorders with
  | same he => rw [he]
  | list ha hb hp =>
    rw [ha, hb]
    exact congrArg (Object.list _) (hunits () hp.length_eq)
  | tuple ha hb hp =>
    rw [ha, hb]
    exact congrArg (Object.tuple _) (hunits () hp.length_eq)
  | map ha hb hp =>
    rw [ha, hb]
    exact congrArg (Object.map _) (hunits ((), ()) hp.length_eq)
  | mapView ha hb hp =>
    rw [ha, hb]
    rfl
  | @record c as bs ha hb hp =>
    have hnames : (bs.map fun a => (a.1, ())) = as.map fun a => (a.1, ()) := by
      clear ha hb
      induction hp with
      | nil => rfl
      | cons hxy _ ih => rw [List.map_cons, List.map_cons, ih, hxy.1]
    rw [ha, hb]
    exact congrArg (Object.record c) hnames

/-- What is told by one layer alone is told of both. -/
theorem Rearranged.told {α : Type} (hr : h.Rearranged a b) {f : Object Value → α}
    {g : Object Unit → α} (hf : ∀ o, g o.outline = f o) : f (h.view b) = f (h.view a) := by
  rw [← hf, hr.outline, hf]

theorem Rearranged.cls (hr : h.Rearranged a b) : (h.view b).cls = (h.view a).cls :=
  hr.told Object.cls_outline

theorem Rearranged.kind (hr : h.Rearranged a b) : (h.view b).kind = (h.view a).kind :=
  hr.told Object.kind_outline

theorem Rearranged.isNil (hr : h.Rearranged a b) : (h.view b).isNil = (h.view a).isNil :=
  hr.told Object.isNil_outline

theorem Rearranged.isRecord (hr : h.Rearranged a b) : (h.view b).isRecord = (h.view a).isRecord :=
  hr.told Object.isRecord_outline

theorem Rearranged.names (hr : h.Rearranged a b) :
    (h.view b).attributeNames? = (h.view a).attributeNames? :=
  hr.told Object.attributeNames?_outline

theorem Rearranged.zero? (hr : h.Rearranged a b) : (h.view b).zero? = (h.view a).zero? :=
  hr.told Object.zero?_outline

theorem Rearranged.view_nil (hr : h.Rearranged a b) : h.view b = .nil ↔ h.view a = .nil :=
  Object.eq_nil_of_outline hr.outline

/-- Two records have the same fields. -/
theorem Rearranged.fields? (hx : h.Rearranged x u) (hy : h.Rearranged y w) :
    (h.view u).fields? [h.view w] = (h.view x).fields? [h.view y] := by
  rw [← Object.fields?_outline, ← Object.fields?_outline (h.view x), List.map_singleton,
    List.map_singleton, hx.outline, hy.outline]

theorem Rearranged.fields (hr : h.Rearranged a b) : (h.view b).fields = (h.view a).fields := by
  rw [Object.fields, Object.fields, ← Object.fields?_outline, ← Object.fields?_outline (h.view a),
    hr.outline]

/-! ### Parts -/

/-- The value of an attribute. -/
theorem Rearranged.attribute (hr : h.Rearranged a b) (name : String) :
    Option.Rel h.Rearranged ((h.view a).attribute? name) ((h.view b).attribute? name) := by
  cases hr.reorders with
  | same he =>
    rw [he]
    cases (h.view b).attribute? name with
    | none => exact .none
    | some v => exact .some (rearranged_refl v)
  | list ha hb | tuple ha hb | map ha hb | mapView ha hb =>
    rw [ha, hb]
    exact .none
  | record ha hb hp =>
    rw [ha, hb]
    clear ha hb
    induction hp with
    | nil => exact .none
    | @cons x y _ _ hxy _ ih =>
      simp only [Object.attribute?, List.find?_cons, ← hxy.1] at ih ⊢
      cases x.1 == name with
      | true => exact .some hxy.2
      | false => exact ih

/-- The value of a field. -/
theorem Rearranged.fieldValue (hr : h.Rearranged a b) (name : String) :
    h.Rearranged (h.fieldValue a name) (h.fieldValue b name) := by
  have hn := hr.attribute name
  unfold Heap.fieldValue
  generalize (h.view a).attribute? name = x at *
  generalize (h.view b).attribute? name = y at *
  cases hn with
  | none => exact rearranged_refl _
  | some hvw => exact hvw

/-- The items of a sequence. -/
theorem Rearranged.items (hr : h.Rearranged a b) {xs : List Value}
    (hx : (h.view a).items? = some xs) :
    ∃ ys, (h.view b).items? = some ys ∧ List.Forall₂ h.Rearranged xs ys := by
  cases hr.reorders with
  | same he => exact ⟨xs, he ▸ hx, List.forall₂_same.mpr fun v _ => rearranged_refl v⟩
  | list ha hb hp =>
    rw [ha] at hx
    cases hx
    exact ⟨_, by rw [hb]; rfl, hp⟩
  | tuple ha hb hp =>
    rw [ha] at hx
    cases hx
    exact ⟨_, by rw [hb]; rfl, hp⟩
  | @record c as bs ha hb hp =>
    rw [ha, Object.items?] at hx
    rw [hb, Object.items?]
    split at hx
    · cases hx
      rw [if_pos ‹_›]
      refine ⟨_, rfl, List.forall₂_map_left_iff.mpr (List.forall₂_map_right_iff.mpr ?_)⟩
      exact hp.imp fun _ _ hxy => hxy.2
    · cases hx
  | map ha hb hp =>
    rw [ha] at hx
    cases hx
  | mapView ha hb hp =>
    rw [ha] at hx
    cases hx

theorem entriesFrom_rearranged {n : Nat} (hr : h.Rearranged a b)
    (he : h.entriesFrom n (h.view a) = some es) :
    ∃ fs, h.entriesFrom n (h.view b) = some fs ∧ Shuffled h.Rearranged es fs := by
  induction n generalizing a b with
  | zero =>
    cases hr.reorders with
    | same hab => exact ⟨es, hab ▸ he, shuffled_refl rearranged_refl es⟩
    | map ha hb hp =>
      rw [ha] at he
      cases he
      exact ⟨_, by rw [hb]; rfl, hp⟩
    | list ha | tuple ha | record ha | mapView ha =>
      rw [ha] at he
      cases he
  | succ n ih =>
    cases hr.reorders with
    | same hab => exact ⟨es, hab ▸ he, shuffled_refl rearranged_refl es⟩
    | map ha hb hp =>
      rw [ha] at he
      cases he
      exact ⟨_, by rw [hb]; rfl, hp⟩
    | mapView ha hb hp =>
      rw [ha] at he
      rw [hb]
      exact ih hp he
    | list ha | tuple ha | record ha =>
      rw [ha] at he
      cases he

/-- How far views are followed to the entries of an object of the heap. -/
theorem entries?_placed (hv : a = .nil ∨ ∃ i, a = .ref i) :
    h.entries? (h.view a) = h.entriesFrom h.size (h.view a) := by
  unfold entries?
  split
  · rename_i t ht
    rcases hv with rfl | ⟨i, rfl⟩
    · cases ht
    · obtain ⟨j, rfl⟩ : ∃ j, t = .ref j := part_ref (a := i) (by
        show t ∈ (h.view (.ref i)).children
        rw [ht]
        exact List.mem_singleton.mpr rfl)
      rw [Value.depth, Nat.add_zero]
  · rfl

/-- The entries of a mapping. -/
theorem Rearranged.entries (hr : h.Rearranged a b) (ha : a = .nil ∨ ∃ i, a = .ref i)
    (hb : b = .nil ∨ ∃ i, b = .ref i) (he : h.entries? (h.view a) = some es) :
    ∃ fs, h.entries? (h.view b) = some fs ∧ Shuffled h.Rearranged es fs := by
  rw [entries?_placed ha] at he
  rw [entries?_placed hb]
  exact entriesFrom_rearranged hr he

/-! ### What is within -/

/-- Every part comes from a part of the value as it was. -/
theorem Rearranged.part (hr : h.Rearranged a b) (hw : h.Part b w) :
    ∃ u, h.Part a u ∧ h.Rearranged u w := by
  have hchildren : ∀ {o : Object Value}, h.view b = o → w ∈ o.children := fun hb => hb ▸ hw
  have hpart : ∀ {o : Object Value} {u : Value}, h.view a = o → u ∈ o.children → h.Part a u :=
    fun ha hu => by rwa [Part, parts, ha]
  cases hr.reorders with
  | same he => exact ⟨w, he ▸ hw, rearranged_refl w⟩
  | list ha hb hp | tuple ha hb hp =>
    obtain ⟨u, hu, huw⟩ := mem_of_forall₂ hp (hchildren hb)
    exact ⟨u, hpart ha hu, huw⟩
  | record ha hb hp =>
    obtain ⟨y, hy, rfl⟩ := List.mem_map.mp (hchildren hb)
    obtain ⟨x, hx, hxy⟩ := mem_of_forall₂ hp hy
    exact ⟨x.2, hpart ha (List.mem_map_of_mem hx), hxy.2⟩
  | map ha hb hp =>
    obtain ⟨f, hf, hwf⟩ := List.mem_flatMap.mp (hchildren hb)
    obtain ⟨e, he, hkey, hef⟩ := hp.mem hf
    rcases List.mem_pair.mp hwf with rfl | rfl
    · exact ⟨e.1, hpart ha (List.mem_flatMap.mpr ⟨e, he, List.mem_cons_self ..⟩),
        hkey ▸ rearranged_refl e.1⟩
    · exact ⟨e.2, hpart ha (List.mem_flatMap.mpr ⟨e, he, List.mem_pair.mpr (.inr rfl)⟩), hef⟩
  | @mapView t u ha hb hp =>
    obtain rfl := List.mem_singleton.mp (hchildren hb)
    exact ⟨t, hpart ha (List.mem_singleton_self t), hp⟩

theorem Rearranged.within (hr : h.Rearranged a b) (hw : h.Within b w) :
    ∃ u, h.Within a u ∧ h.Rearranged u w := by
  induction hw with
  | refl => exact ⟨a, .refl, hr⟩
  | tail _ hp ih =>
    obtain ⟨u, hu, huw⟩ := ih
    obtain ⟨x, hx, hxw⟩ := huw.part hp
    exact ⟨x, hu.tail hx, hxw⟩

/-- Rearranging makes no value contain itself. -/
theorem Rearranged.acyclic (hr : h.Rearranged a b) (ha : h.Acyclic a) : h.Acyclic b := by
  intro w hw
  obtain ⟨u, hu, huw⟩ := hr.within hw
  -- a way from `w` back to `w` leads from `u` to one below it that is `w` rearranged again
  refine (ha.of_within hu).induction (P := fun u => h.Rearranged u w → ¬ TransGen h.Part w w) ?_ huw
  intro u hua ih huw hloop
  obtain ⟨y, hy, hyw⟩ := TransGen.head'_iff.mp hloop
  obtain ⟨x, hx, hxy⟩ := huw.part hy
  obtain ⟨u', hu', huw'⟩ := hxy.within hyw
  exact ih u' (hua.of_within (hu'.head hx)) (hua.rank_below (TransGen.head' hx hu')) huw' hloop

/-! ### Entries by their keys -/

theorem entry?_perm {s : String} (hp : es.Perm fs)
    (hn : (es.filterMap fun e => (h.view e.1).text?).Nodup) : h.entry? s es = h.entry? s fs := by
  have hn' := (hp.filterMap fun e => (h.view e.1).text?).nodup_iff.mp hn
  cases hx : h.entry? s fs with
  | none =>
    refine entry?_eq_none.mpr fun e he => ?_
    exact entry?_eq_none.mp hx e (hp.mem_iff.mp he)
  | some x =>
    obtain ⟨e, he, rfl, hs⟩ := entry?_mem hx
    exact entry?_of_mem hn (hp.mem_iff.mpr he) hs

/-- The same texts are keys. -/
theorem Shuffled.texts (hs : Shuffled R es fs) :
    (es.filterMap fun e => (h.view e.1).text?).Perm (fs.filterMap fun e => (h.view e.1).text?) := by
  obtain ⟨ds, hp, ho⟩ := hs
  have hkeys : (es.filterMap fun e => (h.view e.1).text?) =
      ds.filterMap fun e => (h.view e.1).text? := by
    clear ho
    induction hp with
    | nil => rfl
    | cons hxy _ ih => rw [List.filterMap_cons, List.filterMap_cons, ih, hxy.1]
  rw [hkeys]
  exact ho.filterMap _

/-- What is under a key is related to what was there. -/
theorem Shuffled.entry? (hs : Shuffled R es fs)
    (hn : (es.filterMap fun e => (h.view e.1).text?).Nodup) (s : String) :
    (h.entry? s es = none ∧ h.entry? s fs = none) ∨
      ∃ x y, h.entry? s es = some x ∧ h.entry? s fs = some y ∧ R x y := by
  have hn' := (hs.texts (h := h)).nodup_iff.mp hn
  obtain ⟨ds, hp, ho⟩ := hs
  rw [← entry?_perm ho ((ho.filterMap fun e => (h.view e.1).text?).nodup_iff.mpr hn')]
  exact entry?_forall₂ hp s

end DocDelta.Heap
