import DocDelta.Value.Field

/-! What the class of a value says about it.

Values know their class by name only, and defined classes have distinct names. A class table
says what each name stands for; values that follow one table have one form when they have one
class, so a comparison that has found two classes equal goes on with two values of one kind,
and with records of one record class. -/
namespace DocDelta

/-- What a class is. -/
inductive Form
  | basic (name : String)
  | derived (base : String) (cls : Subclass)
  | member (cls : EnumClass)
  | record (cls : RecordClass)
  deriving DecidableEq, Repr

namespace Form

def cls : Form → Class
  | .basic name => .basic name
  | .derived _ c => .defined c.name
  | .member c => .defined c.name
  | .record c => .defined c.name

def ofSubclass (base : String) : Option Subclass → Form
  | some c => .derived base c
  | none => .basic base

theorem cls_ofSubclass (base : String) (c : Option Subclass) :
    (ofSubclass base c).cls = .ofSubclass base c := by
  cases c <;> rfl

theorem eq_basic {f : Form} {name : String} (hf : f.cls = .basic name) : f = .basic name := by
  cases f with
  | basic n =>
    cases hf
    rfl
  | _ => cases hf

end Form

/-- What each defined name stands for. -/
abbrev ClassTable := String → Form

namespace Object
variable {α β : Type}

/-- What the class of a value is. -/
def form : Object α → Form
  | .nil => .basic "NoneType"
  | .missing => .basic "object"
  | .bool _ => .basic "bool"
  | .int c _ => .ofSubclass "int" c
  | .float c _ => .ofSubclass "float" c
  | .complex .. => .basic "complex"
  | .decimal _ => .basic "Decimal"
  | .text c _ => .ofSubclass "str" c
  | .bytes c _ => .ofSubclass "bytes" c
  | .buffer c _ => .ofSubclass "bytearray" c
  | .date _ => .basic "date"
  | .time _ => .basic "time"
  | .datetime _ => .basic "datetime"
  | .duration _ => .basic "timedelta"
  | .member c .. => .member c
  | .type _ isEnum => .basic (if isEnum then "EnumType" else "type")
  | .list c _ => .ofSubclass "list" c
  | .tuple c _ => .ofSubclass "tuple" c
  | .set c _ => .ofSubclass "set" c
  | .frozenset c _ => .ofSubclass "frozenset" c
  | .map c _ => .ofSubclass "dict" c
  | .mapView _ => .basic "mappingproxy"
  | .record c _ => .record c

theorem cls_form (o : Object α) : o.form.cls = o.cls := by
  cases o <;> first | rfl | exact Form.cls_ofSubclass _ _

/-- A value's class is what the table says of its name. -/
def Follows (K : ClassTable) (o : Object α) : Prop := ∀ n, o.cls = .defined n → K n = o.form

instance (K : ClassTable) (o : Object α) : Decidable (o.Follows K) :=
  match hc : o.cls with
  | .defined n =>
    decidable_of_iff (K n = o.form)
      ⟨fun hf m hm => by cases hc.symm.trans hm; exact hf, fun hf => hf n hc⟩
  | .basic _ => isTrue fun n hn => by cases hc.symm.trans hn

theorem follows_nil (K : ClassTable) : (Object.nil : Object α).Follows K := by
  intro n hn
  cases hn

/-- Values of one class have one form. -/
theorem form_eq {K : ClassTable} {x : Object α} {y : Object β} (hx : x.Follows K)
    (hy : y.Follows K) (hc : x.cls = y.cls) : x.form = y.form := by
  cases hn : x.cls with
  | defined n => rw [← hx n hn, ← hy n (hc ▸ hn)]
  | basic name =>
    have hxf : x.form.cls = .basic name := (cls_form x).trans hn
    have hyf : y.form.cls = .basic name := (cls_form y).trans (hc ▸ hn)
    rw [Form.eq_basic hxf, Form.eq_basic hyf]

end Object

/-- Leaves are compared as a whole. -/
def Kind.isLeaf : Kind → Bool
  | .nil | .time | .scalar => true
  | .record | .sequence | .mapping => false

/-- The kind of the values of a form. -/
def Form.kind : Form → Kind
  | .basic name =>
    if name = "NoneType" then .nil
    else if name ∈ ["date", "time", "datetime", "timedelta"] then .time
    else if name ∈ ["dict", "mappingproxy"] then .mapping
    else if name ∈ ["list", "tuple"] then .sequence
    else .scalar
  | .derived base _ =>
    if base ∈ ["int", "float"] then .record
    else if base = "dict" then .mapping
    else if base ∈ ["list", "tuple"] then .sequence
    else .scalar
  | .member _ => .scalar
  | .record _ => .record

namespace Object
variable {α β : Type}

theorem kind_form (o : Object α) : o.form.kind = o.kind := by
  cases o with
  | int c n => cases c <;> rfl
  | float c x => cases c <;> rfl
  | text c s => cases c <;> rfl
  | bytes c bs => cases c <;> rfl
  | buffer c bs => cases c <;> rfl
  | list c xs => cases c <;> rfl
  | tuple c xs => cases c <;> rfl
  | set c xs => cases c <;> rfl
  | frozenset c xs => cases c <;> rfl
  | map c es => cases c <;> rfl
  | type n isEnum => cases isEnum <;> rfl
  | _ => rfl

theorem kind_eq {K : ClassTable} {x : Object α} {y : Object β} (hx : x.Follows K)
    (hy : y.Follows K) (hc : x.cls = y.cls) : x.kind = y.kind := by
  rw [← kind_form, ← kind_form, form_eq hx hy hc]

theorem isRecord_iff {o : Object α} : o.isRecord = true ↔ o.kind = .record := by
  cases o with
  | int c n => cases c <;> simp [isRecord, kind]
  | float c x => cases c <;> simp [isRecord, kind]
  | _ => simp [isRecord, kind]

theorem ne_nil_of_record {o : Object α} (hk : o.kind = .record) : o ≠ .nil := by
  rintro rfl
  cases hk

theorem isNil_iff {o : Object α} : o.isNil = true ↔ o = .nil := by
  cases o <;> simp [isNil]

/-- A value of a record class's form is a record of that class. -/
theorem record_of_form {c : RecordClass} {o : Object α} (ho : o.form = .record c) :
    ∃ as, o = .record c as := by
  cases o with
  | record d as =>
    cases ho
    exact ⟨as, rfl⟩
  | int d n => cases d <;> cases ho
  | float d x => cases d <;> cases ho
  | text d s => cases d <;> cases ho
  | bytes d bs => cases d <;> cases ho
  | buffer d bs => cases d <;> cases ho
  | list d xs => cases d <;> cases ho
  | tuple d xs => cases d <;> cases ho
  | set d xs => cases d <;> cases ho
  | frozenset d xs => cases d <;> cases ho
  | map d es => cases d <;> cases ho
  | _ => cases ho

/-- A value of an enumeration's form is a member of it. -/
theorem member_of_form {c : EnumClass} {o : Object α}
    (ho : o.form = .member c) : ∃ n w, o = .member c n w := by
  cases o with
  | member d n w =>
    cases ho
    exact ⟨n, w, rfl⟩
  | int d n => cases d <;> cases ho
  | float d x => cases d <;> cases ho
  | text d s => cases d <;> cases ho
  | bytes d bs => cases d <;> cases ho
  | buffer d bs => cases d <;> cases ho
  | list d xs => cases d <;> cases ho
  | tuple d xs => cases d <;> cases ho
  | set d xs => cases d <;> cases ho
  | frozenset d xs => cases d <;> cases ho
  | map d es => cases d <;> cases ho
  | _ => cases ho

/-- Records of one class name are of one record class. -/
theorem record_class_eq {K : ClassTable} {c d : RecordClass} {as : List (String × α)}
    {bs : List (String × β)} (hx : (Object.record c as).Follows K)
    (hy : (Object.record d bs).Follows K) (hc : c.name = d.name) : c = d := by
  have := form_eq hx hy (by simp [cls, hc])
  cases this
  rfl

/-- A sequence that is no record is a list or a tuple. -/
theorem items?_of_sequence {o : Object α} (ho : o.kind = .sequence) : ∃ xs, o.items? = some xs := by
  cases o with
  | list c xs => exact ⟨xs, rfl⟩
  | tuple c xs => exact ⟨xs, rfl⟩
  | int c n => cases c <;> simp [isRecord, kind] at ho
  | float c x => cases c <;> simp [isRecord, kind] at ho
  | _ => simp [isRecord, kind] at ho

theorem items?_of_mapping {o : Object α} (ho : o.kind = .mapping) : o.items? = none := by
  cases o with
  | int c n | float c n => cases c <;> cases ho
  | _ => first | rfl | cases ho

/-- A record has room for attributes. -/
theorem attributeNames?_of_record {o : Object α} (ho : o.kind = .record) :
    ∃ names, o.attributeNames? = some names := by
  cases o with
  | int c n => cases c <;> simp [isRecord, kind, attributeNames?] at ho ⊢
  | float c x => cases c <;> simp [isRecord, kind, attributeNames?] at ho ⊢
  | record c as => exact ⟨as.map (·.1), rfl⟩
  | _ => simp [isRecord, kind] at ho

/-- Records have attributes under the names that they give. -/
theorem attribute?_isSome {x : Object α} {name : String} :
    (x.attribute? name).isSome = true ↔ name ∈ x.attributeNames?.getD [] ∧ x.isRecord = true := by
  cases x with
  | record c as => simp [attribute?, attributeNames?, isRecord]
  | int c n => cases c <;> simp [attribute?, attributeNames?]
  | float c n => cases c <;> simp [attribute?, attributeNames?]
  | _ => simp [attribute?, isRecord]

end Object
end DocDelta
