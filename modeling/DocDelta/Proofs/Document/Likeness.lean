import DocDelta.Proofs.Document.Matched
import DocDelta.Proofs.Value.Twins

/-! Documents in two heaps.

A document tells the values of exported fields, entries and items, and keeps scalars and keys as
they are. Where two heaps show the same of everything that is told, the value has one document in
both, and what stands in the document agrees. -/
namespace DocDelta.Heap
open Relation
variable {h h' : Heap} {v w : Value}

/-! ### What a document tells -/

section Tells
variable (h)

/-- The values whose documents make up that of a value. -/
inductive Tells : Value → Value → Prop
  | field {v : Value} {f : Field} (hk : (h.view v).kind = .record) (hf : f ∈ (h.view v).fields) :
      Tells v (h.fieldValue v f.name)
  | entry {v : Value} {es : List (Value × Value)} {e : Value × Value}
      (he : h.entries? (h.view v) = some es) (hm : e ∈ es) : Tells v e.2
  | item {v w : Value} {xs : List Value} (hk : (h.view v).kind = .sequence)
      (hx : (h.view v).items? = some xs) (hm : w ∈ xs) : Tells v w
  | member {v w : Value} {c : EnumClass} {n : String} (hv : h.view v = .member c n w) : Tells v w

/-- The values that a document keeps as they are: the keys of a mapping, and what is in a scalar. -/
inductive Retains : Value → Value → Prop
  | key {v : Value} {es : List (Value × Value)} {e : Value × Value}
      (he : h.entries? (h.view v) = some es) (hm : e ∈ es) : Retains v e.1
  | content {v w : Value} (hl : (h.view v).kind.isLeaf = true) (hw : w ∈ (h.view v).contents) :
      Retains v w

end Tells

/-- What two heaps show alike of one layer of a document. -/
structure Legible (h h' : Heap) (v : Value) : Prop where
  fields : (h.view v).kind = .record → ∀ f ∈ (h.view v).fields,
    h'.fieldValue v f.name = h.fieldValue v f.name
  entries : h'.entries? (h'.view v) = h.entries? (h.view v)
  items : (h.view v).kind = .sequence → (h'.view v).items? = (h.view v).items?
  leaf : (h.view v).kind.isLeaf = true → h'.view v = h.view v
  retained : ∀ w, h.Retains v w → Agrees h h' w

/-- A value of which two heaps show everything alike that its document tells. -/
def ReadsAlike (h h' : Heap) (v : Value) : Prop := ∀ w, ReflTransGen h.Tells v w → Legible h h' w

theorem ReadsAlike.here (hv : ReadsAlike h h' v) : Legible h h' v := hv v .refl

theorem ReadsAlike.of_tells (hv : ReadsAlike h h' v) (hw : h.Tells v w) : ReadsAlike h h' w :=
  fun u hu => hv u (.head hw hu)

theorem readsAlike_of (hv : Legible h h' v) (hw : ∀ w, h.Tells v w → ReadsAlike h h' w) :
    ReadsAlike h h' v := by
  intro u hu
  rcases hu.cases_head with rfl | ⟨w, ht, hu⟩
  · exact hv
  · exact hw w ht u hu

/-- What is told is nothing, or within the value. -/
theorem Tells.within (ht : h.Tells v w) : w = .nil ∨ h.Within v w := by
  cases ht with
  | field hk hf => exact (fieldValue_part v _).imp_right .single
  | entry he hm => exact .inr (entries?_below he hm).2.to_reflTransGen
  | item hk hx hm =>
    refine .inr (.single ?_)
    rw [Part, parts, items?_children hx]
    exact hm
  | member hv => exact .inr (.single (member_part hv))

theorem tells_within (ht : ReflTransGen h.Tells v w) : w = .nil ∨ h.Within v w := by
  induction ht with
  | refl => exact .inr .refl
  | tail _ ht ih =>
    rcases ht.within with hn | hu
    · exact .inl hn
    · rcases ih with rfl | hv
      · exact .inl (within_nil hu)
      · exact .inr (hv.trans hu)

theorem agrees_nil : Agrees h h' .nil := agrees_inline nofun

theorem agrees_map {es : List (Value × Value)}
    (hes : ∀ e ∈ es, Agrees h h' e.1 ∧ Agrees h h' e.2) : Agrees h h' (.map es) := by
  refine agrees_inline fun w hw => ?_
  obtain ⟨e, he, hw⟩ := List.mem_flatMap.mp hw
  rcases List.mem_cons.mp hw with rfl | hw
  · exact (hes e he).1
  · rw [List.mem_singleton.mp hw]
    exact (hes e he).2

/-- Values that agree read alike. -/
theorem Agrees.readsAlike (hc : Congruent h h') (hv : Agrees h h' v) : ReadsAlike h h' v := by
  have hs := sameOn_agrees hc
  have hlegible : ∀ w, Agrees h h' w → Legible h h' w := by
    intro w hw
    have hcontents : ∀ u ∈ (h.view w).contents, Agrees h h' u := fun u hu => hs.below hw hu
    refine ⟨fun _ f _ => ?_, ?_, fun _ => ?_, fun _ => hw.view, fun u hu => ?_⟩
    · rw [fieldValue, fieldValue, hw.view]
    · rw [hw.view, hs.entries? hcontents]
    · rw [hw.view]
    · cases hu with
      | key he hm => exact hw.of_within (entries?_below he hm).1.to_reflTransGen
      | content hl hu => exact hcontents u hu
  intro w hw
  refine hlegible w ?_
  induction hw with
  | refl => exact hv
  | tail _ ht ih =>
    rcases ht.within with rfl | hu
    · exact agrees_nil
    · exact ih.of_within hu

/-! ### Values in place -/

/-- A map in place reads alike when its keys agree and its values read alike. -/
theorem readsAlike_map {es : List (Value × Value)}
    (hes : ∀ e ∈ es, Agrees h h' e.1 ∧ ReadsAlike h h' e.2) : ReadsAlike h h' (.map es) := by
  have hview : ∀ g : Heap, g.entries? (g.view (.map es)) = some es := fun _ => entries?_of_map
  refine readsAlike_of ⟨nofun, (hview h').trans (hview h).symm, nofun, nofun, fun w hw => ?_⟩
    fun w hw => ?_
  · cases hw with
    | key he hm =>
      obtain rfl := Option.some.inj ((hview h).symm.trans he)
      exact (hes _ hm).1
    | content hl => cases hl
  · cases hw with
    | field hk => cases hk
    | entry he hm =>
      obtain rfl := Option.some.inj ((hview h).symm.trans he)
      exact (hes _ hm).2
    | item hk => cases hk
    | member hv => cases hv

theorem readsAlike_list {xs : List Value} (hx : ∀ x ∈ xs, ReadsAlike h h' x) :
    ReadsAlike h h' (.list xs) := by
  have hview : ∀ g : Heap, g.entries? (g.view (.list xs)) = none := fun _ => entries?_none nofun
  refine readsAlike_of ⟨nofun, (hview h').trans (hview h).symm, fun _ => rfl, nofun, fun w hw => ?_⟩
    fun w hw => ?_
  · cases hw with
    | key he =>
      rw [hview] at he
      cases he
    | content hl => cases hl
  · cases hw with
    | field hk => cases hk
    | entry he =>
      rw [hview] at he
      cases he
    | item _ hi hm =>
      cases hi
      exact hx w hm
    | member hv => cases hv

theorem agrees_table {es : List (String × Value)} (hes : ∀ e ∈ es, Agrees h h' e.2) :
    Agrees h h' (.table es) := by
  refine agrees_map fun e he => ?_
  obtain ⟨d, hd, rfl⟩ := List.mem_map.mp he
  exact ⟨agrees_inline nofun, hes d hd⟩

/-! ### Zeros and documents -/

/-- The same answer, of which something holds. -/
def AnswerAlike {α : Type} (P : α → Prop) (x x' : Except Fault α) : Prop :=
  x' = x ∧ ∀ a, x = .ok a → P a

theorem AnswerAlike.map {α β : Type} {P : α → Prop} {Q : β → Prop} {f : α → β}
    {x x' : Except Fault α} (hx : AnswerAlike P x x') (hf : ∀ a, P a → Q (f a)) :
    AnswerAlike Q (do return f (← x)) (do return f (← x')) := by
  obtain ⟨rfl, hp⟩ := hx
  refine ⟨rfl, fun b hb => ?_⟩
  obtain ⟨a, ha, hb⟩ := bind_eq_ok.mp hb
  cases hb
  exact hf a (hp a ha)

theorem mapM_alike {α β : Type} {P : β → Prop} {f f' : α → Except Fault β} {xs : List α}
    (hf : ∀ x ∈ xs, AnswerAlike P (f x) (f' x)) :
    AnswerAlike (fun ys => ∀ y ∈ ys, P y) (xs.mapM f) (xs.mapM f') := by
  refine ⟨mapM_congr fun x hx => (hf x hx).1, fun ys hys y hy => ?_⟩
  obtain ⟨x, hx, he⟩ := Diff.forall₂_right (mapM_eq_ok.mp hys) hy
  exact (hf x hx).2 y he

/-- A scalar that reads alike agrees, unless it stands for another value. -/
theorem ReadsAlike.agrees_leaf (hv : ReadsAlike h h' v) (hl : (h.view v).kind.isLeaf = true)
    (hm : ∀ c n w, h.view v ≠ .member c n w) : Agrees h h' v := by
  intro w hw
  rcases hw.cases_head with rfl | ⟨u, hp, hu⟩
  · exact hv.here.leaf hl
  · exact hv.here.retained u (.content hl (Object.children_contents hm hp)) w hu

theorem entries_getD {o : Object Value} {e : Value × Value} (he : e ∈ (h.entries? o).getD []) :
    ∃ es, h.entries? o = some es ∧ e ∈ es := by
  cases hes : h.entries? o with
  | none =>
    rw [hes] at he
    cases he
  | some es =>
    rw [hes] at he
    exact ⟨es, rfl, he⟩

section Congruent
variable (hc : Congruent h h')
include hc

theorem isZeroWithin_alike {n : Nat} {active : List (Option Addr)} (hv : ReadsAlike h h' v) :
    h'.isZeroWithin n active v = h.isZeroWithin n active v := by
  induction n generalizing active v with
  | zero => rfl
  | succ n ih =>
    have hfields : (h.view v).kind = .record → ∀ active,
        allHold (fun f => h'.isZeroWithin n active (h'.fieldValue v f.name)) (h'.view v).fields =
          allHold (fun f => h.isZeroWithin n active (h.fieldValue v f.name)) (h.view v).fields := by
      intro hk active
      rw [hc.fields]
      refine allHold_congr fun f hf => ?_
      rw [hv.here.fields hk f hf, ih (hv.of_tells (.field hk hf))]
    have hcount : (h.view v).kind = .sequence ∨ (h.view v).kind = .mapping →
        h'.entryCount (h'.view v) = h.entryCount (h.view v) := by
      intro hk
      have hitems : (h'.view v).items? = (h.view v).items? := by
        rcases hk with hk | hk
        · exact hv.here.items hk
        · rw [Object.items?_of_mapping hk, Object.items?_of_mapping ((hc.kind v).trans hk)]
      rw [entryCount, entryCount, hitems, hv.here.entries]
    rw [isZeroWithin, isZeroWithin, hc.kind, hc.identity]
    cases hk : (h.view v).kind with
    | sequence => exact congrArg (fun m => Except.ok (m == 0)) (hcount (.inl hk))
    | mapping => exact congrArg (fun m => Except.ok (m == 0)) (hcount (.inr hk))
    | record =>
      dsimp only
      split
      · simp only [hfields hk]
      · simp only [hfields hk]
    | _ =>
      dsimp only
      rw [hv.here.leaf (by rw [hk]; rfl), hc.isZeroScalar]

theorem isZero_alike (hv : ReadsAlike h h' v) : h'.isZero v = h.isZero v := by
  rw [isZero, isZero, hc.layerBound, isZeroWithin_alike hc hv]

omit hc in
/-- A named value put among others agrees if they all do. -/
theorem agrees_putNamed {name : String} {es : List (String × Value)} (hw : Agrees h h' w)
    (hes : ∀ e ∈ es, Agrees h h' e.2) : ∀ e ∈ putNamed name w es, Agrees h h' e.2 := by
  induction es with
  | nil =>
    intro e he
    rw [List.mem_singleton.mp he]
    exact hw
  | cons d es ih =>
    have hrest : ∀ e ∈ es, Agrees h h' e.2 := fun e he => hes e (List.mem_cons_of_mem d he)
    intro e he
    rw [putNamed] at he
    split at he
    · rcases List.mem_cons.mp he with rfl | he
      · exact hw
      · exact hrest e he
    · rcases List.mem_cons.mp he with rfl | he
      · exact hes _ (List.mem_cons_self ..)
      · exact ih hrest e he

theorem fieldDocuments_alike {doc doc' : Value → Except Fault Value} {fs : List Field}
    (hv : ∀ f ∈ fs, h'.fieldValue v f.name = h.fieldValue v f.name ∧
      ReadsAlike h h' (h.fieldValue v f.name))
    (hd : ∀ w, ReadsAlike h h' w → AnswerAlike (Agrees h h') (doc w) (doc' w))
    {es : List (String × Value)} (hes : ∀ e ∈ es, Agrees h h' e.2) :
    AnswerAlike (fun ds => ∀ e ∈ ds, Agrees h h' e.2)
      (h.fieldDocuments doc v fs es) (h'.fieldDocuments doc' v fs es) := by
  induction fs generalizing es with
  | nil => exact ⟨rfl, fun ds hds => Except.ok.inj hds ▸ hes⟩
  | cons f fs ih =>
    obtain ⟨hfield, halike⟩ := hv f (List.mem_cons_self ..)
    have ih := fun {es} => @ih (fun g hg => hv g (List.mem_cons_of_mem f hg)) es
    obtain ⟨hsame, hone⟩ := hd _ halike
    have homits : h'.omits v f = h.omits v f := by
      rw [omits, omits, hfield, isZero_alike hc halike]
    rw [fieldDocuments_cons, fieldDocuments_cons, homits, hfield, hsame]
    cases h.omits v f with
    | error e => exact ⟨rfl, nofun⟩
    | ok omitted =>
      cases omitted with
      | true => exact ih hes
      | false =>
        cases hdoc : doc (h.fieldValue v f.name) with
        | error e => exact ⟨rfl, nofun⟩
        | ok d => exact ih (agrees_putNamed (hone d hdoc) hes)

theorem documentWithin_alike {n : Nat} (hv : ReadsAlike h h' v) :
    AnswerAlike (Agrees h h') (h.documentWithin n v) (h'.documentWithin n v) := by
  induction n generalizing v with
  | zero =>
    refine ⟨rfl, fun d hd => ?_⟩
    cases hd
  | succ n ih =>
    rw [documentWithin, documentWithin, hc.kind]
    cases hk : (h.view v).kind with
    | record =>
      dsimp only
      rw [hc.fields]
      have hnone : ∀ e ∈ ([] : List (String × Value)), Agrees h h' e.2 := List.forall_mem_nil _
      refine (fieldDocuments_alike hc (fun f hf => ?_) (fun w hw => ih hw) hnone).map ?_
      · exact ⟨hv.here.fields hk f hf, hv.of_tells (.field hk hf)⟩
      · exact fun es hes => agrees_table hes
    | mapping =>
      dsimp only
      rw [hv.here.entries]
      refine (mapM_alike (P := fun e => Agrees h h' e.1 ∧ Agrees h h' e.2) fun e he => ?_).map
        fun es hes => agrees_map hes
      obtain ⟨es, hes, he⟩ := entries_getD he
      have hkey := hv.here.retained e.1 (.key hes he)
      exact (ih (hv.of_tells (.entry hes he))).map fun d hd => ⟨hkey, hd⟩
    | sequence =>
      dsimp only
      rw [hv.here.items hk]
      refine (mapM_alike (P := Agrees h h') fun w hw => ?_).map fun xs hxs => agrees_inline hxs
      obtain ⟨xs, hxs⟩ := Object.items?_of_sequence hk
      rw [hxs] at hw
      exact ih (hv.of_tells (.item hk hxs hw))
    | _ =>
      have hleaf : (h.view v).kind.isLeaf = true := by
        rw [hk]
        rfl
      dsimp only
      rw [hv.here.leaf hleaf]
      split
      · rename_i w hw
        exact ih (hv.of_tells (.member hw))
      · rename_i hm
        exact ⟨rfl, fun d hd => Except.ok.inj hd ▸ hv.agrees_leaf hleaf hm⟩

/-- **A value that reads alike has one document in both heaps**, and what is in it agrees. -/
theorem document_alike (hv : ReadsAlike h h' v) :
    AnswerAlike (Agrees h h') (h.document v) (h'.document v) := by
  rw [document, document, hc.layerBound]
  exact documentWithin_alike hc hv

end Congruent
end DocDelta.Heap
