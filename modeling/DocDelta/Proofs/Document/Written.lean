import Mathlib.Data.List.Forall2
import DocDelta.Document
import DocDelta.Proofs.Value.Acyclic
import DocDelta.Value.Contents

/-! What the document of a value is made of.

The document of a value without cycles is made of the documents of its parts: a record's by
external name, without the fields that are left out, a mapping's under the same keys, and a
sequence's in the same order. -/
namespace DocDelta
open Relation

/-- Going through a list succeeds when it does at every item. -/
theorem mapM_eq_ok {α β : Type} {f : α → Except Fault β} {xs : List α} {ys : List β} :
    xs.mapM f = .ok ys ↔ List.Forall₂ (fun x y => f x = .ok y) xs ys := by
  induction xs generalizing ys with
  | nil =>
    rw [List.mapM_nil, List.forall₂_nil_left_iff]
    exact ⟨fun he => (Except.ok.inj he).symm, fun he => he ▸ rfl⟩
  | cons x xs ih =>
    rw [List.mapM_cons, bind_eq_ok, List.forall₂_cons_left_iff]
    constructor
    · rintro ⟨y, hy, hr⟩
      obtain ⟨zs, hzs, hr⟩ := bind_eq_ok.mp hr
      exact ⟨y, zs, hy, ih.mp hzs, (Except.ok.inj hr).symm⟩
    · rintro ⟨y, zs, hy, hzs, rfl⟩
      exact ⟨y, hy, bind_eq_ok.mpr ⟨zs, ih.mpr hzs, rfl⟩⟩

theorem mapM_congr {α β : Type} {f g : α → Except Fault β} {xs : List α}
    (hf : ∀ x ∈ xs, f x = g x) : xs.mapM f = xs.mapM g := by
  induction xs with
  | nil => rfl
  | cons x xs ih =>
    rw [List.mapM_cons, List.mapM_cons, hf x (List.mem_cons_self ..),
      ih fun y hy => hf y (List.mem_cons_of_mem x hy)]

theorem answers_mapM {α β : Type} {f : α → Except Fault β} {xs : List α}
    (hf : ∀ x ∈ xs, Answers (f x)) : Answers (xs.mapM f) := by
  induction xs with
  | nil => exact answers_ok []
  | cons x xs ih =>
    rw [List.mapM_cons]
    refine answers_bind (hf x (List.mem_cons_self ..)) fun y _ => ?_
    exact answers_bind (ih fun z hz => hf z (List.mem_cons_of_mem x hz)) fun ys _ =>
      answers_ok _

/-- What is related goes over to what stands at the same places of two other lists. -/
theorem forall₂_square {α β γ δ : Type} {R : α → β → Prop} {P : α → γ → Prop} {Q : β → δ → Prop}
    {S : γ → δ → Prop} {xs : List α} {ys : List β} {ds : List γ} {es : List δ}
    (hr : List.Forall₂ R xs ys) (hp : List.Forall₂ P xs ds) (hq : List.Forall₂ Q ys es)
    (hs : ∀ x ∈ xs, ∀ y ∈ ys, ∀ d e, R x y → P x d → Q y e → S d e) : List.Forall₂ S ds es := by
  induction hr generalizing ds es with
  | nil =>
    cases hp
    cases hq
    exact .nil
  | cons hxy _ ih =>
    cases hp with
    | cons hxd hp =>
      cases hq with
      | cons hye hq =>
        refine .cons (hs _ (List.mem_cons_self ..) _ (List.mem_cons_self ..) _ _ hxy hxd hye) ?_
        exact ih hp hq fun x hx y hy =>
          hs x (List.mem_cons_of_mem _ hx) y (List.mem_cons_of_mem _ hy)

namespace Heap
variable {h : Heap} {v : Value}

/-! ### Entries by name -/

section Entries
variable {s t : String} {es : List (Value × Value)}

@[simp] theorem entry?_nil : h.entry? s [] = none := rfl

theorem entry?_cons (e : Value × Value) :
    h.entry? s (e :: es) = if h.isText s e.1 then some e.2 else h.entry? s es := by
  unfold entry?
  rw [List.find?_cons]
  cases h.isText s e.1 <;> rfl

theorem isText_iff {w : Value} : h.isText s w = true ↔ (h.view w).text? = some s := by
  simp [isText]

theorem isText_text : h.isText t (.text s) = true ↔ s = t := by
  rw [isText_iff]
  exact ⟨fun he => Option.some.inj he, fun he => congrArg some he⟩

theorem entry?_mem {x : Value} (he : h.entry? s es = some x) :
    ∃ e ∈ es, e.2 = x ∧ (h.view e.1).text? = some s := by
  obtain ⟨e, hf, rfl⟩ := Option.map_eq_some_iff.mp he
  have hs : h.isText s e.1 = true := by simpa using List.find?_some hf
  exact ⟨e, List.mem_of_find?_eq_some hf, rfl, isText_iff.mp hs⟩

theorem entry?_eq_none : h.entry? s es = none ↔ ∀ e ∈ es, (h.view e.1).text? ≠ some s := by
  simp [isText, entry?]

/-- The entry under a key that no other entry has. -/
theorem entry?_of_mem (hd : (es.filterMap fun e => (h.view e.1).text?).Nodup) {e : Value × Value}
    (he : e ∈ es) (hs : (h.view e.1).text? = some s) : h.entry? s es = some e.2 := by
  induction es with
  | nil => cases he
  | cons d es ih =>
    rw [entry?_cons]
    rcases List.mem_cons.mp he with rfl | he
    · rw [if_pos (isText_iff.mpr hs)]
    · by_cases ht : h.isText s d.1 = true
      · rw [List.filterMap_cons, isText_iff.mp ht] at hd
        exact absurd (List.mem_filterMap.mpr ⟨e, he, hs⟩) (List.nodup_cons.mp hd).1
      · rw [if_neg ht]
        refine ih ?_ he
        rw [List.filterMap_cons] at hd
        split at hd
        · exact hd
        · exact (List.nodup_cons.mp hd).2

/-- Entries that keep their keys are found at the same names. -/
theorem entry?_forall₂ {ds : List (Value × Value)} {R : Value → Value → Prop}
    (hr : List.Forall₂ (fun e d => e.1 = d.1 ∧ R e.2 d.2) es ds) (s : String) :
    (h.entry? s es = none ∧ h.entry? s ds = none) ∨
      ∃ x y, h.entry? s es = some x ∧ h.entry? s ds = some y ∧ R x y := by
  induction hr with
  | nil => exact .inl ⟨rfl, rfl⟩
  | @cons e d _ _ hed _ ih =>
    rw [entry?_cons, entry?_cons, ← hed.1]
    by_cases ht : h.isText s e.1 = true
    · rw [if_pos ht, if_pos ht]
      exact .inr ⟨e.2, d.2, rfl, rfl, hed.2⟩
    · rw [if_neg ht, if_neg ht]
      exact ih

/-- The entries of a table. -/
def namedEntries (es : List (String × Value)) : List (Value × Value) :=
  es.map fun e => (.text e.1, e.2)

theorem entry?_putNamed (d : Value) (es : List (String × Value)) :
    h.entry? t (namedEntries (putNamed s d es)) =
      if s = t then some d else h.entry? t (namedEntries es) := by
  induction es with
  | nil =>
    show h.entry? t [(.text s, d)] = _
    rw [entry?_cons]
    simp only [isText_text]
    rfl
  | cons e es ih =>
    unfold putNamed
    by_cases hn : e.1 = s
    · simp only [hn, if_true, namedEntries, List.map_cons, entry?_cons, isText_text]
      by_cases hs : s = t
      · simp [hs]
      · simp [hs]
    · simp only [hn, if_false, namedEntries, List.map_cons, entry?_cons, isText_text] at ih ⊢
      rw [ih]
      by_cases he : e.1 = t
      · have hst : s ≠ t := fun hs => hn (he.trans hs.symm)
        simp [he, hst]
      · simp [he]

end Entries

/-! ### Documents by layers -/

/-- Whether a field is left out of the document of a record. -/
def Omitted (h : Heap) (v : Value) (f : Field) : Prop :=
  f.omitsEmpty = true ∧ h.isZero (h.fieldValue v f.name) = .ok true

/-- The test for leaving a field out. -/
def omits (h : Heap) (v : Value) (f : Field) : Except Fault Bool :=
  if f.omitsEmpty then h.isZero (h.fieldValue v f.name) else .ok false

theorem omits_eq_true {f : Field} : h.omits v f = .ok true ↔ h.Omitted v f := by
  unfold omits Omitted
  by_cases hb : f.omitsEmpty = true <;> simp [hb]

theorem fieldDocuments_cons (doc : Value → Except Fault Value) (f : Field) (fs : List Field)
    (es : List (String × Value)) :
    h.fieldDocuments doc v (f :: fs) es = (h.omits v f >>= fun omitted =>
      if omitted then h.fieldDocuments doc v fs es
      else doc (h.fieldValue v f.name) >>= fun d =>
        h.fieldDocuments doc v fs (putNamed f.external d es)) := by
  unfold omits
  by_cases hb : f.omitsEmpty = true
  · rw [fieldDocuments, if_pos hb, if_pos hb]
  · rw [fieldDocuments, if_neg hb, if_neg hb]

theorem fieldDocuments_congr {doc doc' : Value → Except Fault Value} {fs : List Field}
    (hd : ∀ f ∈ fs, doc (h.fieldValue v f.name) = doc' (h.fieldValue v f.name))
    (es : List (String × Value)) : h.fieldDocuments doc v fs es = h.fieldDocuments doc' v fs es := by
  induction fs generalizing es with
  | nil => rfl
  | cons f fs ih =>
    have ih := ih fun g hg => hd g (List.mem_cons_of_mem f hg)
    rw [fieldDocuments_cons, fieldDocuments_cons, hd f (List.mem_cons_self ..)]
    simp only [ih]

/-- The result `d` for a value is one layer over the documents `doc` of what is below it: there
is one equation for each kind of value. -/
structure Layered (h : Heap) (doc : Value → Except Fault Value) (v : Value)
    (d : Except Fault Value) : Prop where
  record : (h.view v).kind = .record →
    d = (do return .table (← h.fieldDocuments doc v (h.view v).fields []))
  mapping : (h.view v).kind = .mapping →
    d = (do return .map (← ((h.entries? (h.view v)).getD []).mapM fun e =>
      do return (e.1, ← doc e.2)))
  sequence : (h.view v).kind = .sequence →
    d = (do return .list (← ((h.view v).items?.getD []).mapM doc))
  member : ∀ c n w, h.view v = .member c n w → d = doc w
  leaf : (h.view v).kind.isLeaf = true → (∀ c n w, h.view v ≠ .member c n w) → d = .ok v

theorem layered_documentWithin (n : Nat) (v : Value) :
    h.Layered (h.documentWithin n) v (h.documentWithin (n + 1) v) := by
  rw [documentWithin]
  refine ⟨fun hk => by rw [hk], fun hk => by rw [hk], fun hk => by rw [hk], ?_, fun hk hm => ?_⟩
  · intro c n w hw
    rw [hw]
    rfl
  · generalize (h.view v).kind = k at hk
    cases k
    case record | sequence | mapping => cases hk
    all_goals
      dsimp only
      split
      · rename_i hv
        exact absurd hv (hm _ _ _)
      · rfl

section Layered
variable {doc doc' : Value → Except Fault Value} {d d' : Except Fault Value}

theorem Layered.unique (hd : h.Layered doc v d) (hd' : h.Layered doc v d') : d = d' := by
  by_cases hl : (h.view v).kind.isLeaf = true
  · by_cases hm : ∃ c n w, h.view v = .member c n w
    · obtain ⟨c, n, w, hw⟩ := hm
      rw [hd.member c n w hw, hd'.member c n w hw]
    · have hm : ∀ c n w, h.view v ≠ .member c n w := fun c n w hw => hm ⟨c, n, w, hw⟩
      rw [hd.leaf hl hm, hd'.leaf hl hm]
  · cases hk : (h.view v).kind with
    | record => rw [hd.record hk, hd'.record hk]
    | mapping => rw [hd.mapping hk, hd'.mapping hk]
    | sequence => rw [hd.sequence hk, hd'.sequence hk]
    | _ => exact absurd (by rw [hk]; rfl) hl

/-- Only what is below a value matters to its layer. -/
theorem Layered.imp (hd : h.Layered doc v d)
    (hf : (h.view v).kind = .record → ∀ name, doc (h.fieldValue v name) = doc' (h.fieldValue v name))
    (hb : ∀ w, TransGen h.Part v w → doc w = doc' w) : h.Layered doc' v d where
  record hk := (hd.record hk).trans
    (congrArg (· >>= _) (fieldDocuments_congr (fun f _ => hf hk f.name) _))
  mapping hk := by
    refine (hd.mapping hk).trans (congrArg (· >>= _) (mapM_congr fun e he => ?_))
    cases hes : h.entries? (h.view v) with
    | none =>
      rw [hes] at he
      cases he
    | some es =>
      rw [hes] at he
      rw [hb e.2 (entries?_below hes he).2]
  sequence hk := (hd.sequence hk).trans
    (congrArg (· >>= _) (mapM_congr fun w hw => hb w (.single (items?_part hw))))
  member c n w hw := (hd.member c n w hw).trans (hb w (.single (member_part hw)))
  leaf := hd.leaf

end Layered

/-- The steps left do not matter to a document. -/
theorem documentWithin_eq {n m : Nat} (hv : h.Acyclic v) (hn : rank h v < n) (hm : rank h v < m) :
    h.documentWithin n v = h.documentWithin m v := by
  induction n generalizing m v with
  | zero => exact absurd hn (Nat.not_lt_zero _)
  | succ n ih =>
    obtain ⟨m, rfl⟩ : ∃ k, m = k + 1 := ⟨m - 1, by omega⟩
    refine ((layered_documentWithin n v).imp (fun hk name => ?_) fun w hw => ?_).unique
      (layered_documentWithin m v)
    · have := hv.rank_fieldValue (Object.ne_nil_of_record hk) name
      exact ih (hv.fieldValue name) (by omega) (by omega)
    · have := hv.rank_below hw
      exact ih (hv.of_within hw.to_reflTransGen) (by omega) (by omega)

theorem document_eq {n : Nat} (hv : h.Acyclic v) (hn : rank h v < n) :
    h.documentWithin n v = h.document v := documentWithin_eq hv hn (rank_lt_layerBound v)

/-- The document of a value is one layer over those of its parts. -/
theorem layered_document (hv : h.Acyclic v) : h.Layered h.document v (h.document v) := by
  refine (layered_documentWithin (h.size + v.depth) v).imp (fun hk name => ?_) fun w hw => ?_
  · have hnil := Object.ne_nil_of_record hk
    exact document_eq (hv.fieldValue name) ((hv.rank_fieldValue hnil name).trans_le (rank_le v))
  · exact document_eq (hv.of_within hw.to_reflTransGen) ((hv.rank_below hw).trans_le (rank_le v))

theorem document_record (hv : h.Acyclic v) (hk : (h.view v).kind = .record) :
    h.document v = (do return .table (← h.fieldDocuments h.document v (h.view v).fields [])) :=
  (layered_document hv).record hk

theorem document_mapping (hv : h.Acyclic v) (hk : (h.view v).kind = .mapping)
    {es : List (Value × Value)} (he : h.entries? (h.view v) = some es) :
    h.document v = (do
      return .map (← es.mapM fun e => do return (e.1, ← h.document e.2))) := by
  rw [(layered_document hv).mapping hk, he, Option.getD_some]

theorem document_sequence (hv : h.Acyclic v) (hk : (h.view v).kind = .sequence) {xs : List Value}
    (hx : (h.view v).items? = some xs) :
    h.document v = (do return .list (← xs.mapM h.document)) := by
  rw [(layered_document hv).sequence hk, hx, Option.getD_some]

theorem document_member (hv : h.Acyclic v) {c : EnumClass} {n : String} {w : Value}
    (hw : h.view v = .member c n w) : h.document v = h.document w :=
  (layered_document hv).member c n w hw

theorem document_leaf (hk : (h.view v).kind.isLeaf = true)
    (hm : ∀ c n w, h.view v ≠ .member c n w) : h.document v = .ok v :=
  (layered_documentWithin _ v).leaf hk hm

/-- The document of what has no parts is itself, or that of the value that a member stands for. -/
theorem document_leaf_cases (hv : h.Acyclic v) (hk : (h.view v).kind.isLeaf = true) :
    (∃ c n w, h.view v = .member c n w ∧ h.document v = h.document w) ∨
      (∀ c n w, h.view v ≠ .member c n w) ∧ h.document v = .ok v := by
  by_cases hm : ∃ c n w, h.view v = .member c n w
  · obtain ⟨c, n, w, hw⟩ := hm
    exact .inl ⟨c, n, w, hw, document_member hv hw⟩
  · have hm : ∀ c n w, h.view v ≠ .member c n w := fun c n w hw => hm ⟨c, n, w, hw⟩
    exact .inr ⟨hm, document_leaf hk hm⟩

@[simp] theorem document_nil : h.document .nil = .ok .nil := document_leaf rfl nofun

/-! ### Documents of records -/

/-- What has been written of some fields, where others were written before. -/
theorem fieldDocuments_entries {doc : Value → Except Fault Value} {fs : List Field}
    (hn : (fs.map (·.external)).Nodup) {acc es : List (String × Value)}
    (hd : h.fieldDocuments doc v fs acc = .ok es) :
    (∀ s ∉ fs.map (·.external),
      h.entry? s (namedEntries es) = h.entry? s (namedEntries acc)) ∧
    ∀ f ∈ fs, (h.Omitted v f ∧
        h.entry? f.external (namedEntries es) = h.entry? f.external (namedEntries acc)) ∨
      ¬ h.Omitted v f ∧ ∃ d, doc (h.fieldValue v f.name) = .ok d ∧
        h.entry? f.external (namedEntries es) = some d := by
  induction fs generalizing acc with
  | nil =>
    cases hd
    exact ⟨fun _ _ => rfl, nofun⟩
  | cons f fs ih =>
    obtain ⟨hf, hn⟩ := List.nodup_cons.mp hn
    rw [fieldDocuments_cons] at hd
    obtain ⟨omitted, ho, hd⟩ := bind_eq_ok.mp hd
    -- The other fields leave what is written of this one alone, since its name is not theirs.
    cases omitted with
    | true =>
      have homitted : h.Omitted v f := omits_eq_true.mp ho
      obtain ⟨hother, hfields⟩ := ih hn hd
      refine ⟨fun s hs => hother s fun hm => hs (List.mem_cons_of_mem _ hm), fun g hg => ?_⟩
      rcases List.mem_cons.mp hg with rfl | hg
      · exact .inl ⟨homitted, hother _ hf⟩
      · exact hfields g hg
    | false =>
      have hkept : ¬ h.Omitted v f := fun hom => by
        rw [omits_eq_true.mpr hom] at ho
        cases ho
      obtain ⟨d, hdoc, hd⟩ := bind_eq_ok.mp hd
      obtain ⟨hother, hfields⟩ := ih hn hd
      refine ⟨fun s hs => ?_, fun g hg => ?_⟩
      · rw [List.map_cons, List.mem_cons, not_or] at hs
        rw [hother s hs.2, entry?_putNamed, if_neg (Ne.symm hs.1)]
      · rcases List.mem_cons.mp hg with rfl | hg
        · refine .inr ⟨hkept, d, hdoc, ?_⟩
          rw [hother _ hf, entry?_putNamed, if_pos rfl]
        · have hne : f.external ≠ g.external := fun he =>
            hf (List.mem_map.mpr ⟨g, hg, he.symm⟩)
          have hg := hfields g hg
          rwa [entry?_putNamed, if_neg hne] at hg

/-- The document of a record has a named entry for each field that is not left out. -/
theorem record_entries (hv : h.Acyclic v) (hk : (h.view v).kind = .record)
    (hn : ((h.view v).fields.map (·.external)).Nodup) {d : Value} (hd : h.document v = .ok d) :
    ∃ es, d = .map es ∧ (∀ s ∉ (h.view v).fields.map (·.external), h.entry? s es = none) ∧
      ∀ f ∈ (h.view v).fields, (h.Omitted v f ∧ h.entry? f.external es = none) ∨
        ¬ h.Omitted v f ∧ ∃ x, h.document (h.fieldValue v f.name) = .ok x ∧
          h.entry? f.external es = some x := by
  rw [document_record hv hk] at hd
  obtain ⟨es, hes, hd⟩ := bind_eq_ok.mp hd
  cases hd
  exact ⟨_, rfl, fieldDocuments_entries hn hes⟩

/-- A record has a document if its fields do and can be told from zero where that counts. -/
theorem record_document (hv : h.Acyclic v) (hk : (h.view v).kind = .record)
    (hf : ∀ f ∈ (h.view v).fields, Answers (h.document (h.fieldValue v f.name)) ∧
      (f.omitsEmpty = true → Answers (h.isZero (h.fieldValue v f.name)))) :
    Answers (h.document v) := by
  have hfields : ∀ fs : List Field, (∀ f ∈ fs, f ∈ (h.view v).fields) → ∀ es,
      Answers (h.fieldDocuments h.document v fs es) := by
    intro fs
    induction fs with
    | nil => exact fun _ es => answers_ok es
    | cons f fs ih =>
      intro hmem es
      obtain ⟨hdoc, hzero⟩ := hf f (hmem f (List.mem_cons_self ..))
      have ih := ih fun g hg => hmem g (List.mem_cons_of_mem f hg)
      rw [fieldDocuments_cons]
      refine answers_bind ?_ fun omitted _ => answers_ite (ih es) (answers_bind hdoc fun x _ => ih _)
      unfold omits
      by_cases hb : f.omitsEmpty = true
      · rw [if_pos hb]
        exact hzero hb
      · rw [if_neg hb]
        exact answers_ok false
  rw [document_record hv hk]
  exact answers_bind (hfields _ (fun f hf => hf) []) fun es _ => answers_ok _

/-! ### Documents of mappings and sequences -/

theorem mapping_entries (hv : h.Acyclic v) (hk : (h.view v).kind = .mapping)
    {es : List (Value × Value)} (he : h.entries? (h.view v) = some es) {d : Value}
    (hd : h.document v = .ok d) :
    ∃ ds, d = .map ds ∧
      List.Forall₂ (fun e x => e.1 = x.1 ∧ h.document e.2 = .ok x.2) es ds := by
  rw [document_mapping hv hk he] at hd
  obtain ⟨ds, hds, hd⟩ := bind_eq_ok.mp hd
  cases hd
  refine ⟨ds, rfl, (mapM_eq_ok.mp hds).imp fun e x hx => ?_⟩
  obtain ⟨y, hy, hx⟩ := bind_eq_ok.mp hx
  cases hx
  exact ⟨rfl, hy⟩

section Documents
variable {es ds : List (Value × Value)} {s : String}
  (hd : List.Forall₂ (fun e d => e.1 = d.1 ∧ h.document e.2 = .ok d.2) es ds)
include hd

/-- The document of an entry is found under the same name. -/
theorem document_at {x : Value} (hx : h.entry? s es = some x) :
    ∃ d, h.entry? s ds = some d ∧ h.document x = .ok d := by
  rcases entry?_forall₂ (R := fun x d => h.document x = .ok d) hd s with ⟨hn, _⟩ | ⟨y, d, hy, he, hr⟩
  · rw [hx] at hn
    cases hn
  · rw [hx] at hy
    cases hy
    exact ⟨d, he, hr⟩

theorem no_document_at (hx : h.entry? s es = none) : h.entry? s ds = none := by
  rcases entry?_forall₂ (R := fun x d => h.document x = .ok d) hd s with ⟨_, hn⟩ | ⟨y, d, hy, _, _⟩
  · exact hn
  · rw [hx] at hy
    cases hy

end Documents

theorem sequence_items (hv : h.Acyclic v) (hk : (h.view v).kind = .sequence) {xs : List Value}
    (hx : (h.view v).items? = some xs) {d : Value} (hd : h.document v = .ok d) :
    ∃ ds, d = .list ds ∧ List.Forall₂ (fun x d => h.document x = .ok d) xs ds := by
  rw [document_sequence hv hk hx] at hd
  obtain ⟨ds, hds, hd⟩ := bind_eq_ok.mp hd
  cases hd
  exact ⟨ds, rfl, mapM_eq_ok.mp hds⟩

end Heap
end DocDelta
