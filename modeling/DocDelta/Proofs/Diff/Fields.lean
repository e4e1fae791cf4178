import DocDelta.Proofs.Diff.Steps

/-! The fields that records are gone through by.

A record that declares its fields has those; another one is gone through by the names that it or
the record opposite to it holds, so some fields may be lacking on either side. -/
namespace DocDelta

namespace Object

/-- Beside nothing, a record has its own fields. -/
theorem fields?_nil {o : Object Value} (hr : o.isRecord = true) :
    o.fields? [.nil] = some o.fields := by
  cases hd : o.isDeclared with
  | true => exact fields_declared hd _
  | false =>
    obtain ⟨as, has⟩ := attributeNames?_of_record (isRecord_iff.mp hr)
    have hnil : (Object.nil : Object Value).attributeNames? = some [] := rfl
    rw [fields, fields?_names hd, fields?_names hd]
    simp [has, hnil]

end Object

namespace Heap
variable {h : Heap} {v w : Value}

/-- Fields that a record is gone through by: its own, and others that it lacks. -/
structure Spans (h : Heap) (v : Value) (fs : List Field) : Prop where
  own : ∀ f ∈ (h.view v).fields, f ∈ fs
  lacking : ∀ f ∈ fs, f ∈ (h.view v).fields ∨ (h.view v).attribute? f.name = none

theorem spans_own (h : Heap) (v : Value) : Spans h v (h.view v).fields :=
  ⟨fun _ hf => hf, fun _ hf => .inl hf⟩

/-- A record without declared fields has its public attributes as fields. -/
theorem fields_names {names : List String} (hd : (h.view v).isDeclared = false)
    (hn : (h.view v).attributeNames? = some names) : (h.view v).fields = Field.ofNames names := by
  rw [Object.fields, Object.fields?_names hd]
  simp [hn]

/-- Two records of one class without declared fields have those of either. -/
theorem fields?_both (hk : (h.view v).kind = .record) (hf : (h.view v).form = (h.view w).form)
    (hd : (h.view v).isDeclared = false) : ∃ as bs,
    (h.view v).attributeNames? = some as ∧ (h.view w).attributeNames? = some bs ∧
      (h.view v).fields? [h.view w] = some (Field.ofNames (as ++ bs)) := by
  have hkw : (h.view w).kind = .record := by
    rw [← Object.kind_form, ← hf, Object.kind_form, hk]
  obtain ⟨as, has⟩ := Object.attributeNames?_of_record hk
  obtain ⟨bs, hbs⟩ := Object.attributeNames?_of_record hkw
  refine ⟨as, bs, has, hbs, ?_⟩
  rw [Object.fields?_names hd]
  simp [has, hbs]

/-- Among the names of several records, those of each span it. -/
theorem spans_names {names as : List String} (hd : (h.view v).isDeclared = false)
    (has : (h.view v).attributeNames? = some as) (hn : ∀ n ∈ as, n ∈ names) :
    Spans h v (Field.ofNames names) := by
  have hfields := fields_names hd has
  refine ⟨fun f hf => ?_, fun f hf => ?_⟩
  · rw [hfields, Field.mem_ofNames] at hf
    exact Field.mem_ofNames.mpr ⟨hn _ hf.1, hf.2⟩
  · obtain ⟨_, hp⟩ := Field.mem_ofNames.mp hf
    by_cases hm : f.name ∈ as
    · rw [hfields]
      exact .inl (Field.mem_ofNames.mpr ⟨hm, hp⟩)
    · refine .inr (Option.not_isSome_iff_eq_none.mp fun hs => hm ?_)
      have hname := (Object.attribute?_isSome.mp hs).1
      rwa [has] at hname

/-- The fields of two records of one class span both, and each is a field of one of them. -/
theorem spans_both (hk : (h.view v).kind = .record) (hf : (h.view v).form = (h.view w).form)
    {fs : List Field} (hfs : (h.view v).fields? [h.view w] = some fs) :
    Spans h v fs ∧ Spans h w fs ∧ ∀ f ∈ fs, f ∈ (h.view v).fields ∨ f ∈ (h.view w).fields := by
  cases hd : (h.view v).isDeclared with
  | true =>
    rw [Object.fields_declared hd] at hfs
    cases hfs
    refine ⟨spans_own h v, ?_, fun f hm => .inl hm⟩
    rw [Object.fields_eq_of_declared hf hd]
    exact spans_own h w
  | false =>
    obtain ⟨as, bs, has, hbs, hboth⟩ := fields?_both hk hf hd
    obtain rfl : Field.ofNames (as ++ bs) = fs := Option.some.inj (hboth.symm.trans hfs)
    have hdw : (h.view w).isDeclared = false := Object.isDeclared_eq hf ▸ hd
    refine ⟨spans_names hd has fun n hn => List.mem_append_left _ hn,
      spans_names hdw hbs fun n hn => List.mem_append_right _ hn, fun f hm => ?_⟩
    obtain ⟨hm, hp⟩ := Field.mem_ofNames.mp hm
    rw [fields_names hd has, fields_names hdw hbs]
    exact (List.mem_append.mp hm).imp (fun hm => Field.mem_ofNames.mpr ⟨hm, hp⟩)
      fun hm => Field.mem_ofNames.mpr ⟨hm, hp⟩

end Heap
end DocDelta
