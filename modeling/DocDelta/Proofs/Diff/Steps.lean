import DocDelta.Diff.Walk
import DocDelta.Proofs.Value.Guarded

/-! What a comparison steps to.

Records are gone through by the exported fields of either side and mappings by the keys of
either, so a step leads on both sides to a part, or to nothing on the side that lacks it. -/
namespace DocDelta

namespace Field

theorem mem_ofNames {names : List String} {f : Field} :
    f ∈ ofNames names ↔
      f.name ∈ names ∧ isPrivate f.name = false ∧ f = ⟨f.name, externalName f.name none, false⟩ := by
  simp only [ofNames, List.mem_map, List.mem_eraseDups, List.mem_filter, Bool.not_eq_true']
  constructor
  · rintro ⟨n, ⟨hn, hp⟩, rfl⟩
    exact ⟨hn, hp, rfl⟩
  · rintro ⟨hn, hp, hf⟩
    exact ⟨f.name, ⟨hn, hp⟩, hf.symm⟩

theorem nodup_eraseDups (names : List String) : names.eraseDups.Nodup := by
  induction hn : names.length using Nat.strong_induction_on generalizing names with
  | h n ih =>
    cases names with
    | nil => exact List.nodup_nil
    | cons a names =>
      rw [List.eraseDups_cons, List.nodup_cons]
      refine ⟨fun ha => ?_, ih _ ?_ _ rfl⟩
      · simp [List.mem_eraseDups] at ha
      · rw [← hn, List.length_cons]
        exact Nat.lt_succ_of_le (List.length_filter_le ..)

theorem nodup_ofNames (names : List String) : (ofNames names).Nodup :=
  (nodup_eraseDups _).map fun _ _ he => congrArg Field.name he

end Field

namespace Object
variable {α : Type}

/-- Whether a value is a record that declares its fields. -/
def isDeclared : Object α → Bool
  | .record c _ => c.isDeclared
  | _ => false

/-- Without declared fields, the fields are those that any of the values holds. -/
theorem fields?_names {o : Object α} (hd : o.isDeclared = false) (others : List (Object α)) :
    o.fields? others =
      ((o :: others).mapM attributeNames?).map fun names => Field.ofNames names.flatten := by
  unfold fields?
  split
  · cases hd
  · cases (o :: others).mapM attributeNames? <;> rfl

theorem fields_declared {o : Object α} (hd : o.isDeclared = true) (others : List (Object α)) :
    o.fields? others = some o.fields := by
  cases o with
  | record c as =>
    obtain ⟨name, shape⟩ := c
    cases shape with
    | declared fields frozen => rfl
    | _ => cases hd
  | _ => cases hd

/-- Whether a value declares its fields is said by its class. -/
theorem isDeclared_form {o : Object α} {c : RecordClass} (ho : o.form = .record c) :
    o.isDeclared = c.isDeclared := by
  obtain ⟨as, rfl⟩ := record_of_form ho
  rfl

theorem isDeclared_eq {β : Type} {x : Object α} {y : Object β} (hf : x.form = y.form) :
    x.isDeclared = y.isDeclared := by
  cases hd : x.isDeclared with
  | true =>
    cases x with
    | record c as => rw [isDeclared_form hf.symm, ← hd, isDeclared]
    | _ => cases hd
  | false =>
    cases y with
    | record c as => rw [← hd, isDeclared_form hf, isDeclared]
    | _ => rfl

/-- Records of one class that declares its fields have the same fields. -/
theorem fields_eq_of_declared {β : Type} {x : Object α} {y : Object β} (hf : x.form = y.form)
    (hd : x.isDeclared = true) : x.fields = y.fields := by
  cases x with
  | record c as =>
    obtain ⟨bs, rfl⟩ := record_of_form hf.symm
    obtain ⟨name, shape⟩ := c
    cases shape with
    | declared fields frozen => rfl
    | _ => cases hd
  | _ => cases hd

end Object

namespace Heap
variable {h : Heap}

/-- A field leads to a part that a comparison visits, or to nothing. -/
def Leads (h : Heap) (v : Value) (name : String) : Prop :=
  h.fieldValue v name = .nil ∨ h.Link v (h.fieldValue v name)

theorem leads_of_fields {v : Value} {f : Field} (hr : (h.view v).isRecord = true)
    (hf : f ∈ (h.view v).fields) : h.Leads v f.name := .inr (.field f hr hf)

/-- Every public attribute of a record without declared fields is a field. -/
theorem leads_of_public {v : Value} {name : String} (hd : (h.view v).isDeclared = false)
    (hp : Field.isPrivate name = false) : h.Leads v name := by
  cases ha : (h.view v).attribute? name with
  | none =>
    refine .inl ?_
    rw [fieldValue, ha]
    rfl
  | some w =>
    cases hv : h.view v with
    | record c as =>
      rw [hv, Object.attribute?] at ha
      obtain ⟨a, hfind, rfl⟩ := Option.map_eq_some_iff.mp ha
      have hname : a.1 = name := by simpa using List.find?_some hfind
      have hmem : name ∈ as.map (·.1) :=
        List.mem_map.mpr ⟨a, List.mem_of_find?_eq_some hfind, hname⟩
      have hfields : (h.view v).fields = Field.ofNames (as.map (·.1)) := by
        rw [Object.fields, Object.fields?_names hd, hv]
        simp [Object.attributeNames?]
      refine leads_of_fields (f := ⟨name, Field.externalName name none, false⟩) (by rw [hv]; rfl) ?_
      rw [hfields]
      exact Field.mem_ofNames.mpr ⟨hmem, hp, rfl⟩
    | _ =>
      rw [hv] at ha
      cases ha

end Heap

namespace Diff
open Heap
variable {h : Heap} {o : Options} {old new : Value} {path : Label}

/-! ### Values -/

theorem isNil_false {v : Value} (hv : h.view v ≠ .nil) : (h.view v).isNil = false :=
  Bool.eq_false_iff.mpr fun hn => hv (Object.isNil_iff.mp hn)

/-- Two values that are there are compared by their kind if they are of one class. -/
theorem diffValues_objects (n : Nat) (ho : h.view old ≠ .nil) (hn : h.view new ≠ .nil) :
    diffValues h o (n + 1) old new path =
      if (h.view old).cls ≠ (h.view new).cls then
        throw (.classMismatch path (h.view old).cls (h.view new).cls)
      else match (h.view old).kind with
        | .record => visiting h old new path (diffStructs h o n old new path)
        | .sequence => visiting h old new path (diffSequences h o.strategy old new path)
        | .mapping => visiting h old new path (diffMappings h o n old new path)
        | _ => diffScalars h o old new path := by
  rw [diffValues]
  simp only [isNil_false ho, isNil_false hn, Bool.or_self]
  rfl

/-- Where either value is nothing, a record on the other side is gone through field by field
and any other value is recorded whole. -/
theorem diffValues_lone (n : Nat) (hv : ((h.view old).isNil || (h.view new).isNil) = true) :
    diffValues h o (n + 2) old new path =
      if (h.view old).isNil && (h.view new).isNil then pure ()
      else if (h.view old).isNil then
        if (h.view new).isRecord then addStructFields h o n new path
        else onPatch (·.set path new)
      else if (h.view old).isRecord then unsetStructFields h o n old path
      else onPatch (·.unset path) := by
  rw [diffValues, if_pos hv, diffPointers]
  by_cases ho : (h.view old).isNil = true
  · simp only [ho, if_true]
  · have hn : (h.view new).isNil = true := by simpa [ho] using hv
    simp only [ho, hn, if_true]

theorem diffValues_nothing (n : Nat) (ho : h.view old = .nil) (hn : h.view new = .nil) :
    diffValues h o (n + 2) old new path = pure () := by
  rw [diffValues_lone n (by rw [ho]; rfl), ho, hn]
  rfl

/-- A value on the new side only is added. -/
theorem diffValues_added (n : Nat) (ho : h.view old = .nil) (hn : h.view new ≠ .nil) :
    diffValues h o (n + 2) old new path =
      if (h.view new).isRecord then addStructFields h o n new path
      else onPatch (·.set path new) := by
  rw [diffValues_lone n (by rw [ho]; rfl), ho, isNil_false hn]
  rfl

/-- A value on the old side only is removed. -/
theorem diffValues_removed (n : Nat) (ho : h.view old ≠ .nil) (hn : h.view new = .nil) :
    diffValues h o (n + 2) old new path =
      if (h.view old).isRecord then unsetStructFields h o n old path
      else onPatch (·.unset path) := by
  rw [diffValues_lone n (by rw [hn]; exact Bool.or_true _), hn, isNil_false ho]
  rfl

/-! ### Fields -/

/-- Another record of the class, or nothing. -/
def Beside (h : Heap) (old new : Value) : Prop :=
  (h.view new).form = (h.view old).form ∨ h.view new = .nil

theorem nothing_beside (v : Value) : Beside h v .nil := .inr rfl

theorem leads_nil {v : Value} (hv : h.view v = .nil) (name : String) : h.Leads v name := by
  refine .inl ?_
  rw [fieldValue, hv]
  rfl

/-- The fields of two records of one class, and where they lead. -/
theorem fields?_leads (hk : (h.view old).kind = .record) (hb : Beside h old new) :
    ∃ fs, (h.view old).fields? [h.view new] = some fs ∧
      ∀ f ∈ fs, h.Leads old f.name ∧ h.Leads new f.name := by
  have hro : (h.view old).isRecord = true := Object.isRecord_iff.mpr hk
  cases hd : (h.view old).isDeclared with
  | true =>
    refine ⟨_, Object.fields_declared hd _, fun f hf => ⟨leads_of_fields hro hf, ?_⟩⟩
    rcases hb with hform | hnil
    · have hrn : (h.view new).isRecord = true := by
        rw [Object.isRecord_iff, ← Object.kind_form, hform, Object.kind_form, hk]
      exact leads_of_fields hrn (Object.fields_eq_of_declared hform.symm hd ▸ hf)
    · exact leads_nil hnil f.name
  | false =>
    obtain ⟨as, has⟩ := Object.attributeNames?_of_record hk
    have hnew : ∃ bs, (h.view new).attributeNames? = some bs := by
      rcases hb with hform | hnil
      · exact Object.attributeNames?_of_record (by
          rw [← Object.kind_form, hform, Object.kind_form, hk])
      · exact ⟨[], by rw [hnil]; rfl⟩
    obtain ⟨bs, hbs⟩ := hnew
    refine ⟨Field.ofNames [as, bs].flatten, ?_, fun f hf => ?_⟩
    · rw [Object.fields?_names hd]
      simp [has, hbs]
    · have hp := (Field.mem_ofNames.mp hf).2.1
      refine ⟨leads_of_public hd hp, ?_⟩
      rcases hb with hform | hnil
      · exact leads_of_public (by rw [Object.isDeclared_eq hform, hd]) hp
      · exact leads_nil hnil f.name

/-- The fields gone through, each with its path. -/
theorem activeFields_leads (o : Options) (path : Label) (hk : (h.view old).kind = .record) (hb : Beside h old new) :
    ∃ fs, activeFields h o old new path = .ok fs ∧
      ∀ p ∈ fs, h.Leads old p.1.name ∧ h.Leads new p.1.name := by
  obtain ⟨fs, hfs, hleads⟩ := fields?_leads hk hb
  refine ⟨_, by rw [activeFields, hfs], fun p hp => ?_⟩
  obtain ⟨f, hf, rfl⟩ := List.mem_map.mp (List.mem_filter.mp hp).1
  exact hleads f hf

/-- With nothing ignored, every field is gone through. -/
theorem activeFields_all (hi : o.ignored = []) {fs : List Field}
    (hfs : (h.view old).fields? [h.view new] = some fs) :
    activeFields h o old new path = .ok (fs.map fun f => (f, joinPath path (.plain f.external))) := by
  rw [activeFields, hfs]
  simp [Options.ignores, hi]

/-! ### Items -/

theorem itemsOf_items {v : Value} (hk : (h.view v).kind = .sequence) {xs : List Value}
    (hx : (h.view v).items? = some xs) : itemsOf h v = .ok xs := by
  unfold itemsOf
  generalize h.view v = o at hk hx
  cases o with
  | list c ys => cases hx; rfl
  | tuple c ys => cases hx; rfl
  | int c n => cases c <;> cases hk
  | float c x => cases c <;> cases hk
  | _ => cases hk

/-! ### Keys -/

/-- With nothing ignored, every key that is a text is gone through. -/
theorem keyPath_all (hi : o.ignored = []) {key : Value} {l : Label}
    (hl : (h.view key).label? = some l) : keyPath h o path key = .ok (some (joinPath path l)) := by
  rw [keyPath, hl]
  simp [Options.ignores, hi]

theorem filterM_eq_ok {α : Type} {p : α → Except Fault Bool} {b : α → Bool} {xs : List α}
    (hp : ∀ x ∈ xs, p x = .ok (b x)) : xs.filterM p = .ok (xs.filter b) := by
  have haux : ∀ (xs acc : List α), (∀ x ∈ xs, p x = .ok (b x)) →
      xs.filterAuxM p acc = .ok ((xs.filter b).reverse ++ acc) := by
    intro xs
    induction xs with
    | nil => exact fun acc _ => rfl
    | cons x xs ih =>
      intro acc hp
      rw [List.filterAuxM, hp x (List.mem_cons_self ..)]
      refine (ih _ fun y hy => hp y (List.mem_cons_of_mem x hy)).trans ?_
      cases hb : b x <;> simp [hb]
  simp only [List.filterM, haux xs [] hp]
  simp [bind, Except.bind, pure, Except.pure]

/-- Whether a key is not among the entries of a map. -/
def lacks (h : Heap) (as : List (Value × Value)) (key : Value) : Bool :=
  match h.find? key as with
  | .ok none => true
  | _ => false

/-- The keys of both mappings: those of the old one, then those it lacks. -/
theorem unionKeys_eq {as bs : List (Value × Value)} (hf : ∀ e ∈ bs, Answers (h.find? e.1 as)) :
    unionKeys h as bs = .ok (as.map (·.1) ++ (bs.filter fun e => lacks h as e.1).map (·.1)) := by
  have hp : ∀ e ∈ bs, (do return (← h.find? e.1 as).isNone) = Except.ok (lacks h as e.1) := by
    intro e he
    obtain ⟨found, hfound⟩ := hf e he
    rw [lacks, hfound]
    cases found <;> rfl
  rw [unionKeys, filterM_eq_ok hp]
  rfl

/-- What is under a key of a mapping is nothing or one of its values. -/
theorem valueUnder_link {v key w : Value} {es : List (Value × Value)}
    (he : h.entries? (h.view v) = some es) (hw : valueUnder h key es = .ok w) :
    w = .nil ∨ h.Link v w := by
  obtain ⟨found, hf, hw⟩ := bind_eq_ok.mp hw
  cases hw
  cases found with
  | none => exact .inl rfl
  | some w =>
    obtain ⟨e, hm, rfl⟩ := find?_mem hf
    exact .inr (.entry he hm)

end Diff
end DocDelta
