import DocDelta.Proofs.Json.Written
import DocDelta.Proofs.Value.Guarded

/-! Values that are always written.

A value of plain scalars, lists and maps from texts has a document of that kind, and the notation
has a form for each layer of it. So it is written, whatever the fallback, in every style that allows
numbers that are none and keeps the order of maps (`answers_write`). -/
namespace DocDelta.Json
open Heap Relation
variable {h : Heap} {style : Style} {fallback : Fallback} {v w : Value}

/-- A scalar that the notation has a form for. -/
inductive Scalar : Object Value → Prop
  | nil : Scalar .nil
  | bool (b : Bool) : Scalar (.bool b)
  | int (n : Int) : Scalar (.int none n)
  | float (x : Number.Binary64) : Scalar (.float none x)
  | text (c : Option Subclass) (s : String) : Scalar (.text c s)

/-- A value of such scalars, lists, and maps from texts, in the heap or in place. -/
inductive Writable (h : Heap) : Value → Prop
  | scalar {v : Value} (hv : Scalar (h.view v)) : Writable h v
  | list {v : Value} {c : Option Subclass} {xs : List Value} (hv : h.view v = .list c xs)
      (hx : ∀ x ∈ xs, Writable h x) : Writable h v
  | map {v : Value} {c : Option Subclass} {es : List (Value × Value)} (hv : h.view v = .map c es)
      (hk : ∀ e ∈ es, ∃ k s, h.view e.1 = .text k s) (he : ∀ e ∈ es, Writable h e.2) : Writable h v

theorem writable_text (l : Label) : Writable h l.value := .scalar (.text l.cls l.text)

theorem writable_list {xs : List Value} (hx : ∀ x ∈ xs, Writable h x) : Writable h (.list xs) :=
  .list rfl hx

theorem writable_map {es : List (Value × Value)} (hk : ∀ e ∈ es, ∃ k s, h.view e.1 = .text k s)
    (he : ∀ e ∈ es, Writable h e.2) : Writable h (.map es) := .map rfl hk he

theorem writable_nil (h : Heap) : Writable h .nil := .scalar .nil

/-- A map from labels. -/
theorem writable_labelled {es : List (Label × Value)} (he : ∀ e ∈ es, Writable h e.2) :
    Writable h (.map (es.map fun e => (e.1.value, e.2))) := by
  refine writable_map (fun d hd => ?_) fun d hd => ?_
  · obtain ⟨e, _, rfl⟩ := List.mem_map.mp hd
    exact ⟨_, _, rfl⟩
  · obtain ⟨e, hm, rfl⟩ := List.mem_map.mp hd
    exact he e hm

/-- A map from names. -/
theorem writable_table {es : List (String × Value)} (he : ∀ e ∈ es, Writable h e.2) :
    Writable h (.table es) := by
  refine writable_map (fun d hd => ?_) fun d hd => ?_
  · obtain ⟨e, _, rfl⟩ := List.mem_map.mp hd
    exact ⟨none, e.1, rfl⟩
  · obtain ⟨e, hm, rfl⟩ := List.mem_map.mp hd
    exact he e hm

theorem scalar_children {o : Object Value} (ho : Scalar o) : o.children = [] := by
  cases ho <;> rfl

/-- What a value is made of can be written, too. -/
theorem Writable.part (hv : Writable h v) (hw : h.Part v w) : Writable h w := by
  have hw : w ∈ (h.view v).children := hw
  cases hv with
  | scalar hv =>
    rw [scalar_children hv] at hw
    cases hw
  | list hv hx =>
    rw [hv] at hw
    exact hx w hw
  | map hv hk he =>
    rw [hv] at hw
    obtain ⟨e, hm, hw⟩ := List.mem_flatMap.mp hw
    rcases List.mem_pair.mp hw with rfl | rfl
    · obtain ⟨k, s, hs⟩ := hk e hm
      exact .scalar (hs ▸ .text k s)
    · exact he e hm

/-- So can all that is in it. -/
theorem Writable.within (hv : Writable h v) (hw : h.Within v w) : Writable h w := by
  induction hw with
  | refl => exact hv
  | tail _ hp ih => exact ih.part hp

/-- The zero of a class whose values can be written. -/
theorem Writable.zero {z : Object Value} (hv : Writable h v) (hz : (h.view v).zero? = some z) :
    Writable h (.inline z) := by
  cases hv with
  | scalar hv =>
    generalize h.view v = o at hv hz
    cases hv with
    | nil => cases hz
    | bool b =>
      cases hz
      exact .scalar (.bool false)
    | int n =>
      cases hz
      exact .scalar (.int 0)
    | float x =>
      cases hz
      exact .scalar (.float _)
    | text c s =>
      obtain rfl := Object.emptyOf_eq_some (.text · "") hz
      exact .scalar (.text c "")
  | list hv =>
    rw [hv] at hz
    obtain rfl := Object.emptyOf_eq_some (.list · []) hz
    exact .list rfl nofun
  | map hv =>
    rw [hv] at hz
    obtain rfl := Object.emptyOf_eq_some (.map · []) hz
    exact .map rfl nofun nofun

theorem acyclic_scalar (hv : Scalar (h.view v)) : h.Acyclic v := by
  refine acyclic_of_parts fun w hw => ?_
  have hw : w ∈ (h.view v).children := hw
  rw [scalar_children hv] at hw
  cases hw

theorem Writable.acyclic (hv : Writable h v) : h.Acyclic v := by
  induction hv with
  | scalar hv => exact acyclic_scalar hv
  | @list v c xs hv _ ih =>
    refine acyclic_of_parts fun w hw => ?_
    have hw : w ∈ (h.view v).children := hw
    rw [hv] at hw
    exact ih w hw
  | @map v c es hv hk _ ih =>
    refine acyclic_of_parts fun w hw => ?_
    have hw : w ∈ (h.view v).children := hw
    rw [hv] at hw
    obtain ⟨e, hm, hw⟩ := List.mem_flatMap.mp hw
    rcases List.mem_pair.mp hw with rfl | rfl
    · obtain ⟨k, s, hs⟩ := hk e hm
      exact acyclic_scalar (hs ▸ .text k s)
    · exact ih e hm

/-! ### Documents -/

/-- The document of what can be written can be written. -/
theorem Writable.document (hv : Writable h v) : ∃ d, h.document v = .ok d ∧ Writable h d := by
  have hacyclic := hv.acyclic
  induction hv with
  | @scalar v hv =>
    refine ⟨v, ?_, .scalar hv⟩
    generalize ho : h.view v = o at hv
    refine document_leaf ?_ ?_ <;> rw [ho]
    · cases hv <;> rfl
    · cases hv <;> nofun
  | @list v c xs hv hx ih =>
    have hk : (h.view v).kind = .sequence := by rw [hv]; rfl
    have hitems : (h.view v).items? = some xs := by rw [hv]; rfl
    choose! doc hdoc hw using fun x hm => ih x hm (hx x hm).acyclic
    refine ⟨.list (xs.map doc), ?_, writable_list fun d hd => ?_⟩
    · have hdocs : xs.mapM h.document = .ok (xs.map doc) := by
        rw [mapM_eq_ok, List.forall₂_map_right_iff, List.forall₂_same]
        exact hdoc
      rw [document_sequence hacyclic hk hitems, hdocs]
      rfl
    · obtain ⟨x, hm, rfl⟩ := List.mem_map.mp hd
      exact hw x hm
  | @map v c es hv hk he ih =>
    have hkind : (h.view v).kind = .mapping := by rw [hv]; rfl
    have hentries : h.entries? (h.view v) = some es := by rw [hv]; exact entries?_of_map
    choose! doc hdoc hw using fun e hm => ih e hm (he e hm).acyclic
    refine ⟨.map (es.map fun e => (e.1, doc e)), ?_, writable_map (fun d hd => ?_) fun d hd => ?_⟩
    · have hdocs : es.mapM (fun e => do return (e.1, ← h.document e.2)) =
          .ok (es.map fun e => (e.1, doc e)) := by
        rw [mapM_eq_ok, List.forall₂_map_right_iff, List.forall₂_same]
        exact fun e hm => bind_eq_ok.mpr ⟨doc e, hdoc e hm, rfl⟩
      rw [document_mapping hacyclic hkind hentries, hdocs]
      rfl
    · obtain ⟨e, hm, rfl⟩ := List.mem_map.mp hd
      exact hk e hm
    · obtain ⟨e, hm, rfl⟩ := List.mem_map.mp hd
      exact hw e hm

/-! ### Texts -/

theorem answers_numberText (hn : style.allowsNaN = true) (x : Number.Binary64) :
    Answers (numberText style x) := by
  unfold numberText
  simp only [hn, if_true]
  split <;> exact answers_ok _

theorem answers_filterMapM {α β : Type} {f : α → Except Fault (Option β)} {xs : List α}
    (hf : ∀ x ∈ xs, Answers (f x)) : Answers (xs.filterMapM f) := by
  induction xs with
  | nil => exact answers_ok []
  | cons x xs ih =>
    rw [List.filterMapM_cons]
    refine answers_bind (hf x (List.mem_cons_self ..)) fun y _ => ?_
    have hrest := ih fun z hz => hf z (List.mem_cons_of_mem x hz)
    cases y with
    | none => exact hrest
    | some y => exact answers_bind hrest fun ys _ => answers_ok _

theorem answers_writeWithin (hs : style.sortsKeys = false) (hn : style.allowsNaN = true) {n : Nat}
    (hv : Writable h v) (hr : rank h v < n) (level : Nat) :
    Answers (writeWithin h style fallback n level v) := by
  induction n generalizing v level with
  | zero => exact absurd hr (Nat.not_lt_zero _)
  | succ n ih =>
    have hbelow : ∀ w, h.Part v w → Answers (writeWithin h style fallback n (level + 1) w) :=
      fun w hw => ih (hv.part hw) (by have := hv.acyclic.rank_below (.single hw); omega) (level + 1)
    cases hv with
    | scalar hv =>
      rw [writeWithin, whole?_view]
      generalize h.view v = o at hv
      cases hv with
      | float x => exact answers_numberText hn x
      | _ => exact answers_ok _
    | @list _ c xs hv hx =>
      have hitems : Answers (xs.mapM (writeWithin h style fallback n (level + 1))) :=
        answers_mapM fun x hm => hbelow x (item_part hv hm)
      rw [writeWithin, whole?_view]
      simp only [hv]
      exact answers_bind hitems fun _ _ => answers_ok _
    | @map _ c es hv hk he =>
      rw [writeWithin]
      simp only [hv, orderedEntries, hs]
      refine answers_bind (answers_ok es) fun _ hes =>
        answers_bind (answers_filterMapM ?_) fun _ _ => answers_ok _
      cases hes
      intro e hm
      obtain ⟨k, s, hs⟩ := hk e hm
      have hkey : keyText h style e.1 = .ok (some s) := keyText_text (by rw [hs]; rfl)
      rw [hkey]
      show Answers (writeWithin h style fallback n (level + 1) e.2 >>= _)
      exact answers_bind (hbelow e.2 (entry_parts hv hm).2) fun _ _ => answers_ok _

/-- **What is made of plain scalars, lists and maps from texts is written.** -/
theorem answers_write (hs : style.sortsKeys = false) (hn : style.allowsNaN = true)
    (hv : Writable h v) : Answers (write h style fallback v) := by
  refine answers_writeWithin hs hn hv ?_ 0
  have := rank_lt_layerBound (h := h) v
  omega

/-! ### Patches -/

/-- A patch that holds what can be written. -/
structure WritablePatch (h : Heap) (p : Patch) : Prop where
  operations : Writable h p.operations
  filters : ∀ f ∈ p.filters, Writable h f
  metadata : Writable h p.metadata.toMap

/-- Such a patch is written. -/
theorem answers_writePatch (hs : style.sortsKeys = false) (hn : style.allowsNaN = true) {p : Patch}
    (hp : WritablePatch h p) : Answers (writePatch h style p) := by
  obtain ⟨operations, hoperations, hwritten⟩ := hp.operations.document
  obtain ⟨filters, hfilters, hlisted⟩ := (writable_list hp.filters).document
  have hmap : ∃ v, patchMap h p = .ok v ∧ Writable h v := by
    rw [patchMap, Patch.document, hoperations, hfilters]
    refine ⟨_, rfl, writable_table fun e he => ?_⟩
    rcases List.mem_append.mp he with he | he
    · rcases List.mem_append.mp he with he | he
      · rw [List.mem_singleton.mp he]
        exact hwritten
      · split at he
        · rw [List.mem_singleton.mp he]
          exact hlisted
        · cases he
    · rw [List.mem_singleton.mp he]
      exact hp.metadata
  obtain ⟨v, hv, hw⟩ := hmap
  rw [writePatch, hv]
  exact answers_write hs hn hw

end DocDelta.Json
