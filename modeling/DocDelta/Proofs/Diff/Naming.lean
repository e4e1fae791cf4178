import DocDelta.Proofs.Diff.Changes
import DocDelta.Proofs.Diff.Fields
import DocDelta.Proofs.Value.Matching

/-! The names a comparison goes through.

Below every place a task goes on under names that are distinct and of a given sort, as long as
the names in the values it is about are: those of the parts of each layer, and those of the
fields of two records that meet. `TaskLabelled` says that of a task, and every rule keeps it. -/
namespace DocDelta
open Relation Diff

/-! ### Names of parts -/

/-- Fields whose external names are distinct and of a given sort. -/
def FieldsLabelled (P : String → Prop) (fs : List Field) : Prop :=
  (∀ f ∈ fs, P f.external) ∧ (fs.map (·.external)).Nodup

instance (P : String → Prop) [DecidablePred P] (fs : List Field) :
    Decidable (FieldsLabelled P fs) :=
  inferInstanceAs (Decidable (_ ∧ _))

namespace Heap
variable (h : Heap) {P : String → Prop}

/-- The names of the parts of a layer: the external names of fields, or the keys. -/
def partNames : Object Value → List String
  | .map _ es => es.filterMap fun e => (h.view e.1).text?
  | o => o.fields.map (·.external)

/-- The parts of a layer have distinct names of a given sort. -/
structure Labelled (P : String → Prop) (o : Object Value) : Prop where
  sort : ∀ s ∈ h.partNames o, P s
  nodup : (h.partNames o).Nodup

/-- Two values that a comparison meets at one place lead to two that it meets further down. -/
inductive Faces : Value × Value → Value × Value → Prop
  | field {x y : Value} (name : String) (hc : (h.view x).cls = (h.view y).cls)
      (hk : (h.view x).kind = .record) :
      Faces (x, y) (h.fieldValue x name, h.fieldValue y name)
  | entry {x y u w key : Value} {as bs : List (Value × Value)}
      (hc : (h.view x).cls = (h.view y).cls)
      (ha : h.entries? (h.view x) = some as) (hb : h.entries? (h.view y) = some bs)
      (hu : valueUnder h key as = .ok u) (hw : valueUnder h key bs = .ok w) :
      Faces (x, y) (u, w)

/-- The fields of two records of one class that meet have distinct external names of a sort. -/
def MeetLabelled (P : String → Prop) (old new : Value) : Prop :=
  ∀ x y, ReflTransGen h.Faces (old, new) (x, y) → (h.view x).cls = (h.view y).cls →
    (h.view x).kind = .record → ∀ fs ∈ (h.view x).fields? [h.view y], FieldsLabelled P fs

variable {h}

theorem Labelled.imp {Q : String → Prop} {o : Object Value} (hl : h.Labelled P o)
    (hpq : ∀ s, P s → Q s) : h.Labelled Q o :=
  ⟨fun s hs => hpq s (hl.sort s hs), hl.nodup⟩

theorem MeetLabelled.imp {Q : String → Prop} {old new : Value} (hm : h.MeetLabelled P old new)
    (hpq : ∀ s, P s → Q s) : h.MeetLabelled Q old new :=
  fun x y hf hc hk fs hfs => ⟨fun f hm' => hpq _ ((hm x y hf hc hk fs hfs).1 f hm'),
    (hm x y hf hc hk fs hfs).2⟩

theorem labelled_nil : h.Labelled P .nil := ⟨nofun, List.nodup_nil⟩

theorem cls_nil_iff {o : Object Value} : o.cls = .basic "NoneType" ↔ o = .nil := by
  cases o with
  | int c n => cases c <;> simp [Object.cls, Class.ofSubclass]
  | float c x => cases c <;> simp [Object.cls, Class.ofSubclass]
  | text c s => cases c <;> simp [Object.cls, Class.ofSubclass]
  | bytes c bs => cases c <;> simp [Object.cls, Class.ofSubclass]
  | buffer c bs => cases c <;> simp [Object.cls, Class.ofSubclass]
  | list c xs => cases c <;> simp [Object.cls, Class.ofSubclass]
  | tuple c xs => cases c <;> simp [Object.cls, Class.ofSubclass]
  | set c xs => cases c <;> simp [Object.cls, Class.ofSubclass]
  | frozenset c xs => cases c <;> simp [Object.cls, Class.ofSubclass]
  | map c es => cases c <;> simp [Object.cls, Class.ofSubclass]
  | type n isEnum => cases isEnum <;> simp [Object.cls]
  | _ => simp [Object.cls]

theorem entries?_nil : h.entries? .nil = none := entries?_none (by decide)

/-- Nothing is met below two values one of which is nothing. -/
theorem not_faces {x y : Value} (hn : h.view x = .nil ∨ h.view y = .nil) (p : Value × Value) :
    ¬ h.Faces (x, y) p := by
  have hboth : (h.view x).cls = (h.view y).cls → h.view x = .nil := fun hc => by
    rcases hn with hx | hy
    · exact hx
    · exact cls_nil_iff.mp (hc.trans (cls_nil_iff.mpr hy))
  intro hf
  cases hf with
  | field name hc hk =>
    rw [hboth hc] at hk
    cases hk
  | entry hc ha hb hu hw =>
    rw [hboth hc, entries?_nil] at ha
    cases ha

theorem meetLabelled_of_nil {x y : Value} (hn : h.view x = .nil ∨ h.view y = .nil) :
    h.MeetLabelled P x y := by
  intro u w hf hc hk
  rcases hf.cases_head with he | ⟨p, hp, _⟩
  · cases he
    rcases hn with hx | hy
    · rw [hx] at hk
      cases hk
    · rw [hy] at hc
      rw [cls_nil_iff.mp hc] at hk
      cases hk
  · exact absurd hp (not_faces hn p)

theorem MeetLabelled.of_faces {x y u w : Value} (hm : h.MeetLabelled P x y)
    (hf : h.Faces (x, y) (u, w)) : h.MeetLabelled P u w :=
  fun _ _ hr => hm _ _ (.head hf hr)

/-- What is met below two values lies within them. -/
theorem faces_within {old new : Value} {p : Value × Value}
    (hf : ReflTransGen h.Faces (old, new) p) :
    (p.1 = .nil ∨ h.Within old p.1) ∧ (p.2 = .nil ∨ h.Within new p.2) := by
  have hfield : ∀ {v w : Value} (name : String), (w = .nil ∨ h.Within v w) →
      h.fieldValue w name = .nil ∨ h.Within v (h.fieldValue w name) := by
    rintro v w name (rfl | hw)
    · exact .inl rfl
    · exact (within_fieldValue name).imp_right hw.trans
  have hentry : ∀ {v w u key : Value} {es : List (Value × Value)}, (w = .nil ∨ h.Within v w) →
      h.entries? (h.view w) = some es → valueUnder h key es = .ok u → u = .nil ∨ h.Within v u := by
    rintro v w u key es (rfl | hw) he hu
    · have he : h.entries? .nil = some es := he
      rw [entries?_nil] at he
      cases he
    · rcases valueUnder_link he hu with hnil | hl
      · exact .inl hnil
      · exact hl.below.imp_right fun hb => hw.trans hb.to_reflTransGen
  induction hf with
  | refl => exact ⟨.inr .refl, .inr .refl⟩
  | tail _ hp ih =>
    cases hp with
    | field name hc hk => exact ⟨hfield name ih.1, hfield name ih.2⟩
    | entry hc ha hb hu hw => exact ⟨hentry ih.1 ha hu, hentry ih.2 hb hw⟩

/-- A value without parts that is no record has no names either. -/
theorem partNames_of_empty {o : Object Value} (hc : o.children = []) (hr : o.isRecord = false) :
    h.partNames o = [] := by
  cases o with
  | map c es =>
    cases es with
    | nil => rfl
    | cons e es => cases hc
  | record c as => cases hr
  | int c n => cases c <;> rfl
  | float c x => cases c <;> rfl
  | text c s => cases c <;> rfl
  | bytes c bs => cases c <;> rfl
  | buffer c bs => cases c <;> rfl
  | list c xs => cases c <;> rfl
  | tuple c xs => cases c <;> rfl
  | set c xs => cases c <;> rfl
  | frozenset c xs => cases c <;> rfl
  | _ => rfl

theorem labelled_of_empty {z : Object Value} (hc : z.children = []) (hr : z.isRecord = false) :
    h.Everywhere (h.Labelled P) (.inline z) := by
  refine everywhere_of_empty hc ⟨?_, ?_⟩
  all_goals rw [partNames_of_empty hc hr]
  · exact nofun
  · exact List.nodup_nil

/-- A mapping without parts has no entries. -/
theorem entries?_of_empty {x : Value} {es : List (Value × Value)} (hc : (h.view x).children = [])
    (he : h.entries? (h.view x) = some es) : es = [] := by
  refine List.eq_nil_iff_forall_not_mem.mpr fun e hm => ?_
  obtain ⟨w, hp, _⟩ := TransGen.head'_iff.mp (entries?_below he hm).1
  have hp : w ∈ (h.view x).children := hp
  rw [hc] at hp
  cases hp

/-- No name is used under an empty value, and nothing lies opposite to what is added there. -/
theorem meetLabelled_of_empty {z : Object Value} (hc : z.children = []) (hr : z.isRecord = false)
    (y : Value) : h.MeetLabelled P (.inline z) y := by
  have hrecord : z.kind ≠ .record := fun hk => by
    rw [Object.isRecord_iff.mpr hk] at hr
    cases hr
  intro u w hf hcls hk
  rcases hf.cases_head with he | ⟨p, hp, hf⟩
  · cases he
    exact absurd hk hrecord
  · cases hp with
    | field name _ hkz => exact absurd hkz hrecord
    | entry _ ha hb hu hw =>
      obtain rfl := entries?_of_empty (x := .inline z) hc ha
      obtain rfl := Except.ok.inj hu
      exact meetLabelled_of_nil (.inl rfl) _ _ hf hcls hk

/-- What is met below two objects of the heap are objects of the heap, or nothing. -/
theorem faces_refs {a b : Addr} {p : Value × Value}
    (hf : ReflTransGen h.Faces (.ref a, .ref b) p) :
    (p.1 = .nil ∨ ∃ c, p.1 = .ref c) ∧ (p.2 = .nil ∨ ∃ c, p.2 = .ref c) :=
  ⟨(faces_within hf).1.imp_right within_ref, (faces_within hf).2.imp_right within_ref⟩

/-- In a heap any two records of which have names of their own, they have where they meet. -/
theorem meetLabelled_ref (hm : ∀ a < h.size, ∀ b < h.size, (h.view (.ref a)).kind = .record →
      ∀ fs ∈ (h.view (.ref a)).fields? [h.view (.ref b)], FieldsLabelled P fs) (a b : Addr) :
    h.MeetLabelled P (.ref a) (.ref b) := by
  intro x y hf hc hk
  have hsize : ∀ {c : Addr}, h.view (.ref c) ≠ .nil → c < h.size := fun {c} hv => by
    by_contra hle
    apply hv
    rw [Heap.view, object_of_size_le (Nat.le_of_not_lt hle)]
    rfl
  have hx := Object.ne_nil_of_record hk
  have hy : h.view y ≠ .nil := fun hy => by
    rw [hy] at hc
    exact hx (cls_nil_iff.mp hc)
  obtain ⟨hxr, hyr⟩ := faces_refs hf
  rcases hxr with rfl | ⟨c, rfl⟩
  · exact absurd rfl hx
  · rcases hyr with rfl | ⟨d, rfl⟩
    · exact absurd rfl hy
    · exact hm c (hsize hx) d (hsize hy) hk

end Heap

/-! ### Tasks -/

namespace Diff
open Heap
variable {P : String → Prop} {h : Heap} {o : Options} {path : Label} {task next : Task}

/-- What a task goes through has distinct names of a sort. -/
def TaskLabelled (P : String → Prop) (h : Heap) : Task → Prop
  | .compare old new =>
    h.Everywhere (h.Labelled P) old ∧ h.Everywhere (h.Labelled P) new ∧ h.MeetLabelled P old new
  | .add v | .addFields v | .remove v | .removeFields v => h.Everywhere (h.Labelled P) v

theorem labelled_becomes (hb : Becomes h task next) (hc : TaskLabelled P h task) :
    TaskLabelled P h next := by
  cases hb with
  | added ho hr => exact hc.2.1
  | removed hn hr => exact hc.1
  | addedFields hr => exact hc
  | fromZero hr hz =>
    have hblank := Object.zero?_blank hz
    have hr := hblank.isRecord.trans hr
    exact ⟨labelled_of_empty hblank.children hr, hc, meetLabelled_of_empty hblank.children hr _⟩
  | removedFields hz hr => exact hc

/-- Steps with distinct names of a sort that lead to tasks with such names. -/
structure LabelledSteps (P : String → Prop) (h : Heap) (steps : List (Label × Task)) : Prop where
  sort : ∀ e ∈ steps, P e.1.text
  nodup : (steps.map (·.1.text)).Nodup
  labelled : ∀ e ∈ steps, TaskLabelled P h e.2

/-- Going through fields with names of their own. -/
theorem labelled_byField {old new : Value} {t : String → Task} {steps : List (Label × Task)}
    {fs : List Field} (hfs : (h.view old).fields? [h.view new] = some fs)
    (hn : FieldsLabelled P fs) (hf : ByField h o old new path t steps)
    (ht : ∀ name, TaskLabelled P h (t name)) :
    LabelledSteps P h steps := by
  obtain ⟨gs, hgs, rfl⟩ := hf
  rw [activeFields, hfs] at hgs
  cases hgs
  have hsub : ((((fs.map fun f => (f, joinPath path (.plain f.external))).filter fun p =>
      !o.ignores h [p.1.name, p.1.external, p.2.text]).map
        fun f => (Label.plain f.1.external, t f.1.name)).map (·.1.text)).Sublist
          (fs.map (·.external)) := by
    have hall : (fs.map fun f => (f, joinPath path (.plain f.external))).map
        (fun p => p.1.external) = fs.map (·.external) := by
      simp [Function.comp_def]
    rw [List.map_map, ← hall]
    exact List.filter_sublist.map _
  refine ⟨fun e he => ?_, hn.2.sublist hsub, fun e he => ?_⟩
  · obtain ⟨f, hf, he⟩ := List.mem_map.mp (hsub.subset (List.mem_map_of_mem he))
    exact he ▸ hn.1 f hf
  · obtain ⟨f, _, rfl⟩ := List.mem_map.mp he
    exact ht f.1.name

/-- A record's own fields. -/
theorem labelled_fields {v : Value} (hv : h.Everywhere (h.Labelled P) v)
    (hr : (h.view v).isRecord = true) :
    (h.view v).fields? [h.view .nil] = some (h.view v).fields ∧
      FieldsLabelled P (h.view v).fields := by
  have hnames : h.partNames (h.view v) = (h.view v).fields.map (·.external) := by
    unfold partNames
    split
    · rename_i hv
      rw [hv] at hr
      cases hr
    · rfl
  refine ⟨Object.fields?_nil hr, fun f hf => ?_, ?_⟩
  · exact hv.here.sort _ (hnames ▸ List.mem_map_of_mem hf)
  · exact hnames ▸ hv.here.nodup

theorem text?_of_label? {α : Type} {k : Object α} {l : Label} (hl : k.label? = some l) :
    k.text? = some l.text := by
  cases k <;> cases hl
  rfl

theorem label?_of_text? {α : Type} {k : Object α} {s : String} (hk : k.text? = some s) :
    ∃ l, k.label? = some l ∧ l.text = s := by
  cases k <;> cases hk
  exact ⟨_, rfl, rfl⟩

/-- A key that is a text is gone through or ignored. -/
theorem keyPath_text {key : Value} {s : String} (hk : (h.view key).text? = some s) :
    ∃ l : Label, l.text = s ∧ keyPath h o path key =
      .ok (if o.ignores h [s, (joinPath path l).text] then none else some (joinPath path l)) := by
  obtain ⟨l, hl, rfl⟩ := label?_of_text? hk
  exact ⟨l, rfl, by rw [keyPath, hl]⟩

/-- The names of the keys that are gone through are among those of the keys. -/
theorem names_keyed {α : Type} {key : α → Value} {R : α → Label × Task → Prop} {xs : List α}
    {steps : List (Label × Task)}
    (hs : List.Forall₂ (fun x step => (h.view (key x)).label? = some step.1 ∧ R x step) xs steps) :
    steps.map (·.1.text) = xs.filterMap fun x => (h.view (key x)).text? := by
  induction hs with
  | nil => rfl
  | cons hx _ ih => rw [List.map_cons, List.filterMap_cons, text?_of_label? hx.1, ih]

theorem forall₂_right {α β : Type} {R : α → β → Prop} {xs : List α} {ys : List β}
    (hs : List.Forall₂ R xs ys) {y : β} (hy : y ∈ ys) : ∃ x ∈ xs, R x y := by
  induction hs with
  | nil => cases hy
  | cons hx _ ih =>
    rcases List.mem_cons.mp hy with rfl | hy
    · exact ⟨_, List.mem_cons_self .., hx⟩
    · obtain ⟨x, hm, hr⟩ := ih hy
      exact ⟨x, List.mem_cons_of_mem _ hm, hr⟩

/-- The texts among the keys of a mapping are distinct and of the sort. -/
theorem labelled_keys {v : Value} {es : List (Value × Value)} (hv : h.Everywhere (h.Labelled P) v)
    (he : h.entries? (h.view v) = some es) :
    (∀ s ∈ es.filterMap fun e => (h.view e.1).text?, P s) ∧
      (es.filterMap fun e => (h.view e.1).text?).Nodup := by
  obtain ⟨u, c, hu, hc⟩ := entries?_map he
  have hn := hv u hu
  rw [hc] at hn
  exact ⟨hn.sort, hn.nodup⟩

theorem answers_filterM {α : Type} {p : α → Except Fault Bool} {xs ys : List α}
    (hf : xs.filterM p = .ok ys) : ∀ x ∈ xs, Answers (p x) := by
  have haux : ∀ (xs acc r : List α), xs.filterAuxM p acc = .ok r → ∀ x ∈ xs, Answers (p x) := by
    intro xs
    induction xs with
    | nil => exact fun _ _ _ x hx => nomatch hx
    | cons x xs ih =>
      intro acc r hr
      rw [List.filterAuxM] at hr
      obtain ⟨b, hb, hr⟩ := bind_eq_ok.mp hr
      intro y hy
      rcases List.mem_cons.mp hy with rfl | hy
      · exact ⟨b, hb⟩
      · exact ih _ _ hr y hy
  obtain ⟨r, hr, _⟩ := bind_eq_ok.mp hf
  exact haux xs [] r hr

/-- Where the keys of both mappings can be told, each new one was looked for. -/
theorem finds_of_unionKeys {as bs : List (Value × Value)} {keys : List Value}
    (hu : unionKeys h as bs = .ok keys) : ∀ e ∈ bs, Answers (h.find? e.1 as) := by
  obtain ⟨added, hf, _⟩ := bind_eq_ok.mp hu
  intro e he
  obtain ⟨r, hr⟩ := answers_filterM hf e he
  obtain ⟨found, hfound, _⟩ := bind_eq_ok.mp hr
  exact ⟨found, hfound⟩

/-- What the keys of both mappings are where they can be told. -/
theorem unionKeys_ok {as bs : List (Value × Value)} {keys : List Value}
    (hu : unionKeys h as bs = .ok keys) :
    keys = as.map (·.1) ++ (bs.filter fun e => lacks h as e.1).map (·.1) :=
  Except.ok.inj (hu.symm.trans (unionKeys_eq (finds_of_unionKeys hu)))

/-- A key matches a text where it is that text. -/
theorem matchPart_same_text {a b : Value} {s : String} (hb : (h.view b).text? = some s) :
    matchPart h h.same a b = .ok ((h.view a).text? == some s) := by
  have hbound : h.pairBound a b = (h.size * h.size + a.depth + b.depth) + 1 := by
    simp only [pairBound]
    omega
  show matchPart h (h.sameWithin (h.pairBound a b)) a b = _
  rw [hbound]
  exact matchPart_text hb

/-- A mapping does not lack a key whose text one of its keys has. -/
theorem not_lacks {key : Value} {as : List (Value × Value)} {a : Value × Value} (ha : a ∈ as)
    {s : String} (hs : (h.view a.1).text? = some s) (hk : (h.view key).text? = some s) :
    lacks h as key = false := by
  have hfind : h.find? key as ≠ .ok none := by
    induction as with
    | nil => cases ha
    | cons e es ih =>
      intro hf
      obtain ⟨r, hr, hf⟩ := bind_eq_ok.mp hf
      cases r with
      | true => cases hf
      | false =>
        rcases List.mem_cons.mp ha with rfl | ha
        · rw [matchPart_same_text hk, hs, BEq.rfl] at hr
          cases hr
        · exact ih ha hf
  unfold lacks
  split
  · exact absurd ‹_› hfind
  · rfl

/-- A part that matches a text is that text. -/
theorem text?_of_match {k key : Value} {s : String} (hk : (h.view key).text? = some s)
    (hm : matchPart h h.same k key = .ok true) : (h.view k).text? = some s :=
  eq_of_beq (Except.ok.inj ((matchPart_same_text hk).symm.trans hm))

/-- What matches a text among the parts is that text. -/
theorem text?_of_match_left {k key : Value} {s : String} (hk : (h.view k).text? = some s)
    (hm : matchPart h h.same k key = .ok true) : (h.view key).text? = some s := by
  rcases layers_of_matching hm with hsame | ⟨eq, hequal⟩
  · rwa [← hsame]
  · obtain ⟨c, hc⟩ := text_of_text? hk
    rw [hc, text_sameObject] at hequal
    exact (eq_of_beq (Except.ok.inj hequal)).symm

section Union
variable {as bs : List (Value × Value)} {keys : List Value} (hu : unionKeys h as bs = .ok keys)
include hu

theorem nodup_union (ha : (as.filterMap fun e => (h.view e.1).text?).Nodup)
    (hb : (bs.filterMap fun e => (h.view e.1).text?).Nodup) :
    (keys.filterMap fun k => (h.view k).text?).Nodup := by
  have hsub : ((bs.filter fun e => lacks h as e.1).filterMap
      fun e => (h.view e.1).text?).Sublist (bs.filterMap fun e => (h.view e.1).text?) :=
    List.filter_sublist.filterMap _
  rw [unionKeys_ok hu, List.filterMap_append, List.filterMap_map, List.filterMap_map]
  refine List.nodup_append.mpr ⟨ha, hb.sublist hsub, ?_⟩
  rintro s hs _ ht rfl
  obtain ⟨a, ham, has⟩ := List.mem_filterMap.mp hs
  obtain ⟨b, hbm, hbs⟩ := List.mem_filterMap.mp ht
  have hlacks := (List.mem_filter.mp hbm).2
  rw [not_lacks ham has hbs] at hlacks
  cases hlacks

/-- A key of the other mapping is among the keys of both, or one of the first that matches it is. -/
theorem mem_union {e : Value × Value} (he : e ∈ bs) :
    e.1 ∈ keys ∨ ∃ d ∈ as, matchPart h h.same d.1 e.1 = .ok true := by
  obtain ⟨found, hf⟩ := finds_of_unionKeys hu e he
  rw [unionKeys_ok hu]
  cases found with
  | none =>
    refine .inl (List.mem_append_right _ (List.mem_map_of_mem (List.mem_filter.mpr ⟨he, ?_⟩)))
    rw [lacks, hf]
  | some w =>
    obtain ⟨d, hd, hm, _⟩ := find?_match hf
    exact .inr ⟨d, hd, hm⟩

theorem mem_union_left {e : Value × Value} (he : e ∈ as) : e.1 ∈ keys := by
  rw [unionKeys_ok hu]
  exact List.mem_append_left _ (List.mem_map_of_mem he)

/-- A key of both mappings is one of either. -/
theorem mem_of_union {k : Value} (hk : k ∈ keys) : ∃ e ∈ as ++ bs, e.1 = k := by
  rw [unionKeys_ok hu] at hk
  rcases List.mem_append.mp hk with hk | hk
  · obtain ⟨e, he, rfl⟩ := List.mem_map.mp hk
    exact ⟨e, List.mem_append_left _ he, rfl⟩
  · obtain ⟨e, he, rfl⟩ := List.mem_map.mp hk
    exact ⟨e, List.mem_append_right _ (List.mem_filter.mp he).1, rfl⟩

/-- The texts among the keys of both mappings are those of either. -/
theorem texts_union {s : String} : (s ∈ keys.filterMap fun k => (h.view k).text?) ↔
    s ∈ (as ++ bs).filterMap fun e => (h.view e.1).text? := by
  simp only [List.mem_filterMap]
  constructor
  · rintro ⟨k, hk, hs⟩
    obtain ⟨e, he, rfl⟩ := mem_of_union hu hk
    exact ⟨e, he, hs⟩
  · rintro ⟨e, he, hs⟩
    rcases List.mem_append.mp he with he | he
    · exact ⟨e.1, mem_union_left hu he, hs⟩
    · rcases mem_union hu he with hk | ⟨d, hd, hm⟩
      · exact ⟨e.1, hk, hs⟩
      · exact ⟨d.1, mem_union_left hu hd, text?_of_match hs hm⟩

/-- The keys of both mappings are texts where those of either are. -/
theorem all_texts_union : (∀ k ∈ keys, ∃ s, (h.view k).text? = some s) ↔
    ∀ e ∈ as ++ bs, ∃ s, (h.view e.1).text? = some s := by
  constructor
  · intro hall e he
    rcases List.mem_append.mp he with he | he
    · exact hall _ (mem_union_left hu he)
    · rcases mem_union hu he with hk | ⟨d, hd, hm⟩
      · exact hall _ hk
      · obtain ⟨s, hs⟩ := hall _ (mem_union_left hu hd)
        exact ⟨s, text?_of_match_left hs hm⟩
  · intro hall k hk
    obtain ⟨e, he, rfl⟩ := mem_of_union hu hk
    exact hall e he

end Union

/-- The texts among the keys of two mappings are distinct and of the sort. -/
theorem labelled_unionKeys {old new : Value} {as bs : List (Value × Value)} {keys : List Value}
    (ho : h.Everywhere (h.Labelled P) old) (hn : h.Everywhere (h.Labelled P) new)
    (ha : h.entries? (h.view old) = some as) (hb : h.entries? (h.view new) = some bs)
    (hu : unionKeys h as bs = .ok keys) :
    (∀ s ∈ keys.filterMap fun k => (h.view k).text?, P s) ∧
      (keys.filterMap fun k => (h.view k).text?).Nodup := by
  obtain ⟨hpa, hda⟩ := labelled_keys ho ha
  obtain ⟨hpb, hdb⟩ := labelled_keys hn hb
  refine ⟨fun s hs => ?_, nodup_union hu hda hdb⟩
  have hs := (texts_union hu).mp hs
  rw [List.filterMap_append] at hs
  exact (List.mem_append.mp hs).elim (hpa s) (hpb s)

theorem everywhere_valueUnder {P : Object Value → Prop} {v key w : Value}
    {es : List (Value × Value)} (hv : h.Everywhere P v) (hp : P .nil)
    (he : h.entries? (h.view v) = some es) (hw : valueUnder h key es = .ok w) :
    h.Everywhere P w := by
  rcases valueUnder_link he hw with rfl | hl
  · exact everywhere_nil hp
  · rcases hl.below with rfl | hw
    · exact everywhere_nil hp
    · exact hv.of_within hw.to_reflTransGen

/-- The names of the keys that are gone through are distinct and of the sort. -/
theorem keyed_names {α : Type} (key : α → Value) {R : α → Label × Task → Prop} {xs : List α}
    {keep : α → Bool} {steps : List (Label × Task)}
    (hn : (∀ s ∈ xs.filterMap fun x => (h.view (key x)).text?, P s) ∧
      (xs.filterMap fun x => (h.view (key x)).text?).Nodup)
    (hs : List.Forall₂ (fun x step => (h.view (key x)).label? = some step.1 ∧ R x step)
      (xs.filter keep) steps) :
    (∀ e ∈ steps, P e.1.text) ∧ (steps.map (·.1.text)).Nodup := by
  have hnames := names_keyed hs
  have hsub : ((xs.filter keep).filterMap fun x => (h.view (key x)).text?).Sublist
      (xs.filterMap fun x => (h.view (key x)).text?) := List.filter_sublist.filterMap _
  refine ⟨fun e he => hn.1 _ (hsub.subset (hnames ▸ List.mem_map_of_mem he)), ?_⟩
  rw [hnames]
  exact hn.2.sublist hsub

/-- Going through keys with names of their own. -/
theorem labelled_keyed {α : Type} (key : α → Value) {R : α → Label × Task → Prop} {xs : List α}
    {keep : α → Bool} {steps : List (Label × Task)}
    (hn : (∀ s ∈ xs.filterMap fun x => (h.view (key x)).text?, P s) ∧
      (xs.filterMap fun x => (h.view (key x)).text?).Nodup)
    (hs : List.Forall₂ (fun x step => (h.view (key x)).label? = some step.1 ∧ R x step)
      (xs.filter keep) steps)
    (hc : ∀ x ∈ xs, ∀ step, R x step → TaskLabelled P h step.2) : LabelledSteps P h steps := by
  obtain ⟨hsort, hnodup⟩ := keyed_names key hn hs
  refine ⟨hsort, hnodup, fun e he => ?_⟩
  obtain ⟨x, hx, _, hr⟩ := forall₂_right hs he
  exact hc x (List.mem_filter.mp hx).1 e hr

/-- **The steps of a labelled task have distinct names and lead to labelled tasks.** -/
theorem labelled_descends {steps : List (Label × Task)} (hd : Descends h o path task steps)
    (hc : TaskLabelled P h task) : LabelledSteps P h steps := by
  cases hd with
  | records hcls hk hf =>
    obtain ⟨ho, hn, hm⟩ := hc
    cases hfs : Object.fields? _ _ with
    | none =>
      obtain ⟨fs, hactive, _⟩ := hf
      rw [activeFields, hfs] at hactive
      cases hactive
    | some fs =>
      refine labelled_byField hfs (hm _ _ .refl hcls hk fs hfs) hf fun name => ?_
      exact ⟨ho.fieldValue labelled_nil name, hn.fieldValue labelled_nil name,
        hm.of_faces (.field name hcls hk)⟩
  | mappings hcls hk ha hb hu hs =>
    obtain ⟨ho, hn, hm⟩ := hc
    refine labelled_keyed id (labelled_unionKeys ho hn ha hb hu) hs fun key _ step hr => ?_
    obtain ⟨x, y, hx, hy, he⟩ := hr
    rw [he]
    exact ⟨everywhere_valueUnder ho labelled_nil ha hx,
      everywhere_valueUnder hn labelled_nil hb hy, hm.of_faces (.entry hcls ha hb hx hy)⟩
  | added hr hf =>
    obtain ⟨hfs, hn⟩ := labelled_fields hc hr
    exact labelled_byField hfs hn hf fun name => Everywhere.fieldValue hc labelled_nil name
  | removed hr hf =>
    obtain ⟨hfs, hn⟩ := labelled_fields hc hr
    exact labelled_byField hfs hn hf fun name => Everywhere.fieldValue hc labelled_nil name
  | emptied hz hr he hs =>
    refine labelled_keyed Prod.fst (labelled_keys hc he) hs fun e hm step hs => ?_
    rw [hs]
    exact ⟨Everywhere.of_within hc (entries?_below he hm).2.to_reflTransGen,
      everywhere_nil labelled_nil, meetLabelled_of_nil (.inr rfl)⟩

end Diff
end DocDelta
