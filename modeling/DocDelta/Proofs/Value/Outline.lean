import DocDelta.Proofs.Value.Form
import DocDelta.Value.Zero

/-! What a layer shows without its children.

The outline of a layer keeps its constructor, its class and what stands in it, and forgets which
values its children are. Two heaps whose layers have the same outlines agree on every question
that is settled by one layer alone: class, kind, names of attributes, fields and the zero. -/
namespace DocDelta.Object
variable {α β : Type}

/-- A layer without its children. -/
def outline (o : Object α) : Object Unit := o.mapChildren fun _ => ()

@[simp] theorem cls_outline (o : Object α) : o.outline.cls = o.cls := by cases o <;> rfl

@[simp] theorem isNil_outline (o : Object α) : o.outline.isNil = o.isNil := by cases o <;> rfl

@[simp] theorem isRecord_outline (o : Object α) : o.outline.isRecord = o.isRecord := by
  cases o <;> rfl

@[simp] theorem kind_outline (o : Object α) : o.outline.kind = o.kind := by cases o <;> rfl

@[simp] theorem zero?_outline (o : Object α) : o.outline.zero? = o.zero? := by cases o <;> rfl

@[simp] theorem text?_outline (o : Object α) : o.outline.text? = o.text? := by cases o <;> rfl

@[simp] theorem label?_outline (o : Object α) : o.outline.label? = o.label? := by cases o <;> rfl

@[simp] theorem whole?_outline (o : Object α) : o.outline.whole? = o.whole? := by cases o <;> rfl

@[simp] theorem isPrimitive_outline (o : Object α) : o.outline.isPrimitive = o.isPrimitive := by
  cases o <;> rfl

@[simp] theorem attributeNames?_outline (o : Object α) :
    o.outline.attributeNames? = o.attributeNames? := by
  cases o with
  | record c as => simp [outline, mapChildren, attributeNames?]
  | int c n => cases c <;> rfl
  | float c x => cases c <;> rfl
  | text c s => cases c <;> rfl
  | bytes c bs => cases c <;> rfl
  | buffer c bs => cases c <;> rfl
  | list c xs => cases c <;> rfl
  | tuple c xs => cases c <;> rfl
  | set c xs => cases c <;> rfl
  | frozenset c xs => cases c <;> rfl
  | map c es => cases c <;> rfl
  | _ => rfl

@[simp] theorem fields?_outline (o : Object α) (others : List (Object α)) :
    o.outline.fields? (others.map outline) = o.fields? others := by
  have hnames : ∀ os : List (Object α),
      (os.map outline).mapM attributeNames? = os.mapM attributeNames? := by
    intro os
    induction os with
    | nil => rfl
    | cons x os ih => rw [List.map_cons, List.mapM_cons, List.mapM_cons, ih, attributeNames?_outline]
  have hothers : (o.outline :: others.map outline).mapM attributeNames? =
      (o :: others).mapM attributeNames? := hnames (o :: others)
  cases o with
  | record c as =>
    obtain ⟨name, shape⟩ := c
    cases shape with
    | declared fields frozen => rfl
    | positional fields => exact congrArg (fun x => x >>= fun names : List (List String) =>
        pure (Field.ofNames names.flatten)) hothers
    | freeform => exact congrArg (fun x => x >>= fun names : List (List String) =>
        pure (Field.ofNames names.flatten)) hothers
  | _ => exact congrArg (fun x => x >>= fun names : List (List String) =>
      pure (Field.ofNames names.flatten)) hothers

/-- Only nothing shows as nothing. -/
theorem eq_nil_of_outline {x : Object α} {y : Object β} (hs : x.outline = y.outline) :
    x = .nil ↔ y = .nil := by
  rw [← isNil_iff, ← isNil_iff, ← isNil_outline x, hs, isNil_outline]

end DocDelta.Object
