import DocDelta.Proofs.Json.Read
import DocDelta.Proofs.Json.Writable
import DocDelta.Value.Intern

/-! Documents in the heap.

A document that was read is stored part by part, and each object refers to those stored before it.
So a heap that holds documents only has no cycles, no derived classes, and all that is in it can be
written (`writable_stored`). -/
namespace DocDelta.Heap
open Json
variable {h h' : Heap} {a b : Addr} {o : Object Addr} {v : Value}

/-! ### Heaps that grow -/

/-- A heap that another one continues: what it holds stays. -/
structure Extends (h h' : Heap) : Prop where
  size : h.size ≤ h'.size
  object : ∀ a < h.size, h'.object a = h.object a

theorem Extends.refl (h : Heap) : Extends h h := ⟨Nat.le_refl _, fun _ _ => rfl⟩

theorem Extends.trans {h'' : Heap} (hf : Extends h h') (hs : Extends h' h'') : Extends h h'' :=
  ⟨hf.size.trans hs.size, fun a ha => (hs.object a (ha.trans_le hf.size)).trans (hf.object a ha)⟩

theorem extends_push (h : Heap) (o : Object Addr) : Extends h (h.push o).1 := by
  refine ⟨by simp [push, size], fun a ha => ?_⟩
  cases a with
  | zero => rfl
  | succ a =>
    have ha : a < h.cells.size := Nat.lt_of_succ_lt_succ ha
    show ((h.cells.push o)[a]?).getD .nil = (h.cells[a]?).getD .nil
    rw [Array.getElem?_push, if_neg (Nat.ne_of_lt ha)]

theorem object_push (h : Heap) (o : Object Addr) : (h.push o).1.object (h.push o).2 = o := by
  show ((h.cells.push o)[h.cells.size]?).getD .nil = o
  rw [Array.getElem?_push, if_pos rfl]
  rfl

theorem size_push (h : Heap) (o : Object Addr) :
    (h.push o).2 = h.size ∧ (h.push o).1.size = h.size + 1 := by
  simp [push, size]

/-! ### Documents -/

/-- An object of a document: a scalar, or a list or a map from texts of objects before it. -/
inductive Cell (h : Heap) (a : Addr) : Object Addr → Prop
  | nil : Cell h a .nil
  | bool (b : Bool) : Cell h a (.bool b)
  | int (n : Int) : Cell h a (.int none n)
  | float (x : Number.Binary64) : Cell h a (.float none x)
  | text (s : String) : Cell h a (.text none s)
  | list {xs : List Addr} (hx : ∀ x ∈ xs, x < a) : Cell h a (.list none xs)
  | map {es : List (Addr × Addr)} (hk : ∀ e ∈ es, e.1 < a ∧ ∃ s, h.object e.1 = .text none s)
      (he : ∀ e ∈ es, e.2 < a) : Cell h a (.map none es)

/-- A heap that holds documents only. -/
def Documents (h : Heap) : Prop := ∀ a < h.size, Cell h a (h.object a)

theorem documents_empty : Documents .empty := by
  intro a ha
  obtain rfl : a = 0 := Nat.lt_one_iff.mp ha
  exact .float _

theorem Cell.extend (hc : Cell h a o) (ha : a ≤ h.size) (hx : Extends h h') : Cell h' a o := by
  cases hc with
  | map hk he =>
    refine .map (fun e hm => ?_) he
    obtain ⟨hlt, s, hs⟩ := hk e hm
    exact ⟨hlt, s, (hx.object e.1 (hlt.trans_le ha)).trans hs⟩
  | nil => exact .nil
  | bool b => exact .bool b
  | int n => exact .int n
  | float x => exact .float x
  | text s => exact .text s
  | list hx => exact .list hx

theorem Documents.push (hd : Documents h) (hc : Cell h h.size o) : Documents (h.push o).1 := by
  have hx := extends_push h o
  obtain ⟨haddr, hsize⟩ := size_push h o
  intro a ha
  rcases Nat.lt_succ_iff_lt_or_eq.mp (hsize ▸ ha) with hlt | rfl
  · rw [hx.object a hlt]
    exact (hd a hlt).extend hlt.le hx
  · have hobject := object_push h o
    rw [haddr] at hobject
    rw [hobject]
    exact hc.extend (Nat.le_refl _) hx

/-- What storing leaves: documents only, in which nothing was changed. -/
structure Stores (h h' : Heap) : Prop extends Extends h h' where
  documents : Documents h'

theorem Stores.refl (hd : Documents h) : Stores h h := ⟨.refl h, hd⟩

theorem Stores.trans {h'' : Heap} (hf : Stores h h') (hs : Stores h' h'') : Stores h h'' :=
  ⟨hf.toExtends.trans hs.toExtends, hs.documents⟩

/-- Storing an object whose parts are stored. -/
theorem Stores.push (hs : Stores h h') (hc : Cell h' h'.size o) :
    Stores h (h'.push o).1 ∧ (h'.push o).2 < (h'.push o).1.size := by
  obtain ⟨haddr, hsize⟩ := size_push h' o
  refine ⟨⟨hs.toExtends.trans (extends_push h' o), hs.documents.push hc⟩, ?_⟩
  rw [haddr, hsize]
  exact Nat.lt_succ_self _

/-- A value is stored in any heap of documents. -/
def Storable (v : Value) : Prop :=
  ∀ h, Documents h → ∃ a h', (intern v).run h = (a, h') ∧ Stores h h' ∧ a < h'.size

theorem intern_inline (o : Object Value) (h : Heap) : (intern (.inline o)).run h =
    ((((internObject o).run h).2.push ((internObject o).run h).1).2,
      (((internObject o).run h).2.push ((internObject o).run h).1).1) := by
  rw [intern]
  rfl

/-- What is stored object by object, its parts first. -/
theorem storable_inline {o : Object Value}
    (ho : ∀ h, Documents h → ∃ c h', (internObject o).run h = (c, h') ∧ Stores h h' ∧
      Cell h' h'.size c) : Storable (.inline o) := by
  intro h hd
  obtain ⟨c, h', hrun, hs, hc⟩ := ho h hd
  obtain ⟨hstores, hlt⟩ := hs.push hc
  exact ⟨_, _, by rw [intern_inline, hrun], hstores, hlt⟩

/-- A scalar is stored as it is. -/
theorem storable_scalar {o : Object Value} {c : Object Addr} (ho : internObject o = pure c)
    (hc : ∀ h, Cell h h.size c) : Storable (.inline o) :=
  storable_inline fun h hd => ⟨c, h, by rw [ho]; rfl, .refl hd, hc h⟩

theorem run_internList {xs : List Value} (hx : ∀ x ∈ xs, Storable x) (h : Heap) (hd : Documents h) :
    ∃ as h', (internList xs).run h = (as, h') ∧ Stores h h' ∧ ∀ a ∈ as, a < h'.size := by
  induction xs generalizing h with
  | nil => exact ⟨[], h, by rw [internList]; rfl, .refl hd, nofun⟩
  | cons x xs ih =>
    obtain ⟨hfirst, hothers⟩ := List.forall_mem_cons.mp hx
    obtain ⟨a, h₁, hrun, hs, ha⟩ := hfirst h hd
    obtain ⟨as, h₂, hruns, hs', has⟩ := ih hothers h₁ hs.documents
    refine ⟨a :: as, h₂, ?_, hs.trans hs', List.forall_mem_cons.mpr ⟨ha.trans_le hs'.size, has⟩⟩
    rw [internList, StateT.run_bind, hrun]
    show StateT.run (internList xs >>= fun as => pure (a :: as)) h₁ = _
    rw [StateT.run_bind, hruns]
    rfl

/-- The address of a key and of what stands under it. -/
def StoredEntry (h : Heap) (e : Addr × Addr) : Prop :=
  (e.1 < h.size ∧ ∃ s, h.object e.1 = .text none s) ∧ e.2 < h.size

theorem StoredEntry.extend {e : Addr × Addr} (he : StoredEntry h e) (hx : Extends h h') :
    StoredEntry h' e := by
  obtain ⟨⟨hlt, s, hs⟩, hv⟩ := he
  exact ⟨⟨hlt.trans_le hx.size, s, (hx.object e.1 hlt).trans hs⟩, hv.trans_le hx.size⟩

theorem run_internEntry {e : String × Value} (hv : Storable e.2) (h : Heap) (hd : Documents h) :
    ∃ d h', (internEntry (.text e.1, e.2)).run h = (d, h') ∧ Stores h h' ∧ StoredEntry h' d := by
  obtain ⟨hs, hlt⟩ := (Stores.refl hd).push (.text e.1)
  have hkey : (intern (.text e.1)).run h =
      ((h.push (.text none e.1)).2, (h.push (.text none e.1)).1) := by
    rw [Value.text, intern_inline, internObject]
    rfl
  obtain ⟨a, h', hrun, hs', ha⟩ := hv _ hs.documents
  refine ⟨((h.push (.text none e.1)).2, a), h', ?_, hs.trans hs',
    ⟨⟨hlt.trans_le hs'.size, e.1, ?_⟩, ha⟩⟩
  · rw [internEntry, StateT.run_bind, hkey]
    show StateT.run (intern e.2 >>= fun a => pure ((h.push (.text none e.1)).2, a)) _ = _
    rw [StateT.run_bind, hrun]
    rfl
  · rw [hs'.object _ hlt]
    exact object_push h (.text none e.1)

theorem run_internEntries {es : List (String × Value)} (he : ∀ e ∈ es, Storable e.2) (h : Heap)
    (hd : Documents h) : ∃ ds h', (internEntries (namedEntries es)).run h = (ds, h') ∧
      Stores h h' ∧ ∀ d ∈ ds, StoredEntry h' d := by
  induction es generalizing h with
  | nil => exact ⟨[], h, by rw [namedEntries, List.map_nil, internEntries]; rfl, .refl hd, nofun⟩
  | cons e es ih =>
    obtain ⟨hfirst, hothers⟩ := List.forall_mem_cons.mp he
    obtain ⟨d, h₁, hrun, hs, hentry⟩ := run_internEntry hfirst h hd
    obtain ⟨ds, h₂, hruns, hs', hentries⟩ := ih hothers h₁ hs.documents
    refine ⟨d :: ds, h₂, ?_, hs.trans hs',
      List.forall_mem_cons.mpr ⟨hentry.extend hs'.toExtends, hentries⟩⟩
    rw [namedEntries, List.map_cons, internEntries, StateT.run_bind, hrun]
    show StateT.run (internEntries (namedEntries es) >>= fun ds => pure (d :: ds)) h₁ = _
    rw [StateT.run_bind, hruns]
    rfl

/-- **What was read can be stored.** -/
theorem storable_noted (hv : Noted v) : Storable v := by
  induction hv with
  | nil => exact storable_scalar (by rw [internObject]) fun _ => .nil
  | bool b => exact storable_scalar (by rw [internObject]) fun _ => .bool b
  | int n => exact storable_scalar (by rw [internObject]) fun _ => .int n
  | float x => exact storable_scalar (by rw [internObject]) fun _ => .float x
  | text s => exact storable_scalar (by rw [internObject]) fun _ => .text s
  | nan => exact fun h hd => ⟨0, h, by rw [intern]; rfl, .refl hd, Nat.succ_pos _⟩
  | @list xs _ ih =>
    refine storable_inline fun h hd => ?_
    obtain ⟨as, h', hrun, hs, has⟩ := run_internList ih h hd
    refine ⟨.list none as, h', ?_, hs, .list has⟩
    rw [internObject, StateT.run_bind, hrun]
    rfl
  | @table es _ _ ih =>
    refine storable_inline fun h hd => ?_
    obtain ⟨ds, h', hrun, hs, hds⟩ := run_internEntries ih h hd
    refine ⟨.map none ds, h', ?_, hs, .map (fun d hm => (hds d hm).1) fun d hm => (hds d hm).2⟩
    show StateT.run (internObject (.map none (namedEntries es))) h = _
    rw [internObject, StateT.run_bind, hrun]
    rfl

/-! ### What is stored -/

/-- What a heap of documents holds can be written. -/
theorem writable_stored (hd : Documents h) (a : Addr) : Writable h (.ref a) := by
  induction a using Nat.strong_induction_on with
  | _ a ih =>
    by_cases ha : a < h.size
    · have hcell := hd a ha
      generalize ho : h.object a = o at hcell
      have hview : h.view (.ref a) = o.mapChildren .ref := by rw [view, ho]
      cases hcell with
      | nil => exact .scalar (hview ▸ .nil)
      | bool b => exact .scalar (hview ▸ .bool b)
      | int n => exact .scalar (hview ▸ .int n)
      | float x => exact .scalar (hview ▸ .float x)
      | text s => exact .scalar (hview ▸ .text none s)
      | list hx =>
        refine .list hview fun x hm => ?_
        obtain ⟨b, hb, rfl⟩ := List.mem_map.mp hm
        exact ih b (hx b hb)
      | map hk he =>
        refine .map hview (fun e hm => ?_) fun e hm => ?_
        · obtain ⟨d, hd, rfl⟩ := List.mem_map.mp hm
          obtain ⟨_, s, hs⟩ := hk d hd
          exact ⟨none, s, by rw [view, hs]; rfl⟩
        · obtain ⟨d, hd, rfl⟩ := List.mem_map.mp hm
          exact ih d.2 (he d hd)
    · exact .scalar (by rw [view, object_of_size_le (Nat.le_of_not_lt ha)]; exact .nil)

/-- No class is derived in a heap of documents. -/
theorem follows_stored (hd : Documents h) (K : ClassTable) (a : Addr) :
    h.Everywhere (Object.Follows K) (.ref a) := by
  refine everywhere_ref (Object.follows_nil K) (fun b hb => ?_) a
  have hcell := hd b hb
  rw [view]
  generalize h.object b = o at hcell
  intro n hn
  cases hcell <;> cases hn

end DocDelta.Heap
