import DocDelta.Proofs.Document.Matched
import DocDelta.Proofs.Json.Read
import DocDelta.Proofs.Value.Sorted
import DocDelta.Report

/-! Reports of values of the notation.

Whatever a text of the notation said can be laid out and written line by line: the keys of a map
are texts and so have an order, and the bounds on how far a value is gone into leave room for each
of its layers. -/
namespace DocDelta
open Heap Json

/-! ### Order of texts -/

section Texts
variable {h : Heap} {v w : Value}

/-- What is written for a text. -/
theorem display_text {s : String} (hv : (h.view v).text? = some s) : h.display v = s := by
  obtain ⟨c, hc⟩ := text_of_text? hv
  rw [display, hc]

theorem less_texts {s t : String} (hv : (h.view v).text? = some s)
    (hw : (h.view w).text? = some t) : h.less v w = .ok (decide (s < t)) := by
  obtain ⟨c, hc⟩ := text_of_text? hv
  obtain ⟨d, hd⟩ := text_of_text? hw
  show h.lessObject _ (h.view v) (h.view w) = _
  rw [hc, hd]
  rfl

theorem requireKey_text {s : String} (hv : (h.view v).text? = some s) :
    h.requireKey v = .ok () := by
  rw [requireKey, hashable_of_text hv]
  rfl

/-- An entry whose key is a plain text. -/
def Named (e : Value × Value) : Prop := ∃ s, e.1 = .text s

theorem named_entries {es : List (String × Value)} {e : Value × Value} (he : e ∈ namedEntries es) :
    Named e ∧ ∃ d ∈ es, d.2 = e.2 := by
  obtain ⟨d, hd, rfl⟩ := List.mem_map.mp he
  exact ⟨⟨d.1, rfl⟩, d, hd, rfl⟩

theorem Named.text {e : Value × Value} (he : Named e) : ∃ s, (h.view e.1).text? = some s := by
  obtain ⟨s, hs⟩ := he
  exact ⟨s, by rw [hs]; rfl⟩

theorem sort_texts {xs : List Value} (hx : ∀ x ∈ xs, ∃ s, (h.view x).text? = some s) :
    ∃ ys, h.sort xs = .ok ys ∧ ys.Perm xs := by
  refine sortBy_perm (P := fun x => ∃ s, (h.view x).text? = some s) ?_ hx
  rintro a b ⟨s, hs⟩ ⟨t, ht⟩
  exact ⟨_, less_texts hs ht⟩

namespace Layout

theorem sortedEntries_texts {es : List (Value × Value)}
    (he : ∀ e ∈ es, ∃ s, (h.view e.1).text? = some s) :
    ∃ ds, sortedEntries h es = .ok ds ∧ ds.Perm es := by
  refine sortBy_perm (P := fun e : Value × Value => ∃ s, (h.view e.1).text? = some s) ?_ he
  rintro a b ⟨s, hs⟩ ⟨t, ht⟩
  exact ⟨_, by rw [lessOrClass, less_texts hs ht]⟩

/-! ### Layout -/

theorem answers_stack {α : Type} {indent kept : Nat} {part : α → Nat → Except Fault String}
    {xs : List α} (hx : ∀ x ∈ xs, ∀ k, Answers (part x k)) :
    Answers (stack indent kept part xs) := by
  induction xs with
  | nil => exact answers_ok []
  | cons x xs ih =>
    have hfirst := hx x (List.mem_cons_self ..)
    cases xs with
    | nil => exact answers_bind (hfirst kept) fun s _ => answers_ok _
    | cons y ys =>
      refine answers_bind (hfirst 1) fun s _ => ?_
      exact answers_bind (ih fun z hz => hx z (List.mem_cons_of_mem x hz)) fun ss _ => answers_ok _

theorem answers_stacked {α : Type} {indent kept : Nat} {part : α → Nat → Except Fault String}
    {xs : List α} (hx : ∀ x ∈ xs, ∀ k, Answers (part x k)) :
    Answers (stacked indent kept part xs) :=
  answers_bind (answers_stack hx) fun _ _ => answers_ok _

/-- A value of the notation has a line. -/
theorem answers_line (hv : Noted v) {n : Nat} (hn : v.depth < n) (active : List (Option Addr)) :
    Answers (lineWithin h n active v) := by
  induction hv generalizing n with
  | nil | bool | int | float | text | nan =>
    obtain ⟨n, rfl⟩ : ∃ k, n = k + 1 := ⟨n - 1, by omega⟩
    exact answers_ok _
  | @list xs hx ih =>
    have hdepth : (Value.list xs).depth = Value.listDepth xs + 1 := rfl
    obtain ⟨n, rfl⟩ : ∃ k, n = k + 1 := ⟨n - 1, by omega⟩
    cases xs with
    | nil => exact answers_ok _
    | cons x xs =>
      show Answers ((x :: xs).mapM (lineWithin h n active) >>= fun parts =>
        pure ("[" ++ ", ".intercalate parts ++ "]"))
      refine answers_bind (answers_mapM fun y hy => ih y hy ?_) fun _ _ => answers_ok _
      have hy := depth_le_listDepth hy
      omega
  | @table es hd he ih =>
    have hdepth : (Value.table es).depth = Value.entriesDepth (namedEntries es) + 1 := rfl
    obtain ⟨n, rfl⟩ : ∃ k, n = k + 1 := ⟨n - 1, by omega⟩
    cases es with
    | nil => exact answers_ok _
    | cons e es =>
      show Answers (sortedEntries h (namedEntries (e :: es)) >>= fun ds => ds.mapM (fun d => do
        let key ← lineWithin h n active d.1
        return key ++ ": " ++ (← lineWithin h n active d.2)) >>= fun parts =>
          pure ("\x7b" ++ ", ".intercalate parts ++ "\x7d"))
      obtain ⟨ds, hds, hperm⟩ := sortedEntries_texts (h := h) fun e he => (named_entries he).1.text
      rw [hds]
      refine answers_bind (answers_ok ds) fun ds' hds' => ?_
      cases hds'
      refine answers_bind (answers_mapM fun d hm => ?_) fun _ _ => answers_ok _
      obtain ⟨⟨s, hs⟩, c, hc, hvalue⟩ := named_entries (hperm.subset hm)
      obtain ⟨k, x⟩ := d
      cases hs
      cases hvalue
      have hx := depth_le_of_mem (hperm.subset hm)
      refine answers_bind ?_ fun _ _ => answers_bind (ih c hc ?_) fun _ _ => answers_ok _
      · obtain ⟨n, rfl⟩ : ∃ k, n = k + 1 := ⟨n - 1, by omega⟩
        exact answers_ok _
      · have hx : c.2.depth ≤ Value.entriesDepth (namedEntries (e :: es)) := hx
        omega

/-- A value is laid out where it has a line and can be broken. -/
theorem answers_layout_of {n : Nat} (active : List (Option Addr)) (r : Room)
    (hline : ∀ active, Answers (lineWithin h (n + 1) active v))
    (hbreak : ∀ active r, Answers (breakObject h active (lineWithin h (n + 1) active)
      (layoutWithin h n active) r (h.view v))) :
    Answers (layoutWithin h (n + 1) active r v) := by
  rw [layoutWithin]
  dsimp only
  refine answers_ite (answers_pure _) (answers_bind (hline active) fun line _ => ?_)
  exact answers_ite (hbreak _ _) (answers_pure _)

/-- A value of the notation can be laid out. -/
theorem answers_layout (hv : Noted v) {n : Nat} (hn : v.depth < n) (active : List (Option Addr))
    (r : Room) : Answers (layoutWithin h n active r v) := by
  have hline : ∀ {n : Nat}, v.depth < n + 1 → ∀ active, Answers (lineWithin h (n + 1) active v) :=
    fun hn => answers_line hv hn
  induction hv generalizing n active r with
  | nil | bool | int | float | text | nan =>
    obtain ⟨n, rfl⟩ : ∃ k, n = k + 1 := ⟨n - 1, by omega⟩
    exact answers_layout_of active r (hline hn) fun _ _ => answers_ok _
  | @list xs hx ih =>
    have hdepth : (Value.list xs).depth = Value.listDepth xs + 1 := rfl
    obtain ⟨n, rfl⟩ : ∃ k, n = k + 1 := ⟨n - 1, by omega⟩
    refine answers_layout_of active r (hline hn) fun active r => ?_
    refine answers_bind (answers_stacked fun y hy k => ?_) fun _ _ => answers_pure _
    have hy' := depth_le_listDepth hy
    exact ih y hy (by omega) active _ fun hn => answers_line (hx y hy) hn
  | @table es hd he ih =>
    have hdepth : (Value.table es).depth = Value.entriesDepth (namedEntries es) + 1 := rfl
    obtain ⟨n, rfl⟩ : ∃ k, n = k + 1 := ⟨n - 1, by omega⟩
    refine answers_layout_of active r (hline hn) fun active r => ?_
    obtain ⟨ds, hds, hperm⟩ := sortedEntries_texts (h := h) fun e he => (named_entries he).1.text
    show Answers (sortedEntries h (namedEntries es) >>= fun ds =>
      stacked (r.indent + 1) (r.kept + 1) (fun e k => do
        let key ← lineWithin h (n + 1) active e.1
        return key ++ ": " ++ (← layoutWithin h n active
          ⟨r.indent + 1 + key.length + 2, k, r.level⟩ e.2)) ds >>= fun body =>
            pure ("\x7b" ++ body ++ "\x7d"))
    rw [hds]
    refine answers_bind (answers_ok ds) fun ds' hds' => ?_
    cases hds'
    refine answers_bind (answers_stacked fun e hm k => ?_) fun _ _ => answers_pure _
    obtain ⟨⟨s, hs⟩, c, hc, hvalue⟩ := named_entries (hperm.subset hm)
    have hx := depth_le_of_mem (hperm.subset hm)
    rw [hs, ← hvalue]
    rw [← hvalue] at hx
    refine answers_bind (answers_line (.text s) ?_ active) fun key _ => ?_
    · show 1 < n + 1
      omega
    · refine answers_bind ?_ fun _ _ => ?_
      · exact ih c hc (by omega) active _ fun hn => answers_line (he c hc) hn
      · exact answers_pure _

end Layout

/-- A value of the notation has a layout. -/
theorem answers_layout_noted (hv : Noted v) : Answers (h.layout v) := by
  refine Layout.answers_layout hv ?_ [] _
  have hsize : 1 ≤ h.size := Nat.succ_pos _
  have hbound : h.layerBound v ≤ h.size * h.layerBound v := Nat.le_mul_of_pos_left _ hsize
  have hlayers : h.layerBound v = h.size + v.depth + 1 := rfl
  omega

end Texts

namespace Report

/-! ### Writing -/

/-- Writing that comes to its end. -/
def Done (m : Page Unit) : Prop := ∀ s, ∃ t, m.run s = (.ok (), t)

section Done

theorem done_pure : Done (pure ()) := fun s => ⟨s, rfl⟩

theorem done_write (s : String) : Done (write s) := fun t => ⟨t ++ s, rfl⟩

theorem done_bind {m k : Page Unit} (hm : Done m) (hk : Done k) : Done (m >>= fun _ => k) := by
  intro s
  obtain ⟨t, ht⟩ := hm s
  obtain ⟨u, hu⟩ := hk t
  refine ⟨u, ?_⟩
  rw [run_bind, ht]
  exact hu

/-- A test that has an answer is gone on from. -/
theorem done_ask {α : Type} {x : Except Fault α} {f : α → Page Unit} (hx : Answers x)
    (hf : ∀ a, x = .ok a → Done (f a)) : Done (ask x >>= f) := by
  obtain ⟨a, rfl⟩ := hx
  exact hf a rfl

theorem done_forM {α : Type} {f : α → Page Unit} {xs : List α} (hf : ∀ x ∈ xs, Done (f x)) :
    Done (xs.forM f) := by
  induction xs with
  | nil => exact done_pure
  | cons x xs ih =>
    exact done_bind (hf x (List.mem_cons_self ..)) (ih fun y hy => hf y (List.mem_cons_of_mem x hy))

/-- A step of a loop that comes to its end and is followed by the next one. -/
def Steps (m : Page (ForInStep PUnit)) : Prop :=
  ∀ s, ∃ t, m.run s = (.ok (.yield PUnit.unit), t)

theorem steps_of_done {m : Page Unit} (hm : Done m) :
    Steps (m >>= fun _ => pure (.yield PUnit.unit)) := by
  intro s
  obtain ⟨t, ht⟩ := hm s
  refine ⟨t, ?_⟩
  rw [run_bind, ht]
  rfl

theorem steps_ask {α : Type} {x : Except Fault α} {f : α → Page (ForInStep PUnit)} (hx : Answers x)
    (hf : ∀ a, x = .ok a → Steps (f a)) : Steps (ask x >>= f) := by
  obtain ⟨a, rfl⟩ := hx
  exact hf a rfl

theorem done_forIn {α : Type} {f : α → PUnit → Page (ForInStep PUnit)} {xs : List α}
    (hf : ∀ x ∈ xs, Steps (f x PUnit.unit)) : Done (forIn xs PUnit.unit f) := by
  induction xs with
  | nil => exact done_pure
  | cons x xs ih =>
    intro s
    obtain ⟨t, ht⟩ := hf x (List.mem_cons_self ..) s
    obtain ⟨u, hu⟩ := ih (fun y hy => hf y (List.mem_cons_of_mem x hy)) t
    refine ⟨u, ?_⟩
    rw [List.forIn_cons, run_bind, ht]
    exact hu

/-- A loop without an early end goes through all items. -/
theorem forIn_eq_forM {α : Type} {f : α → Page Unit} {g : α → PUnit → Page (ForInStep PUnit)}
    {xs : List α} (hg : ∀ x ∈ xs, ∀ u, g x u = f x >>= fun _ => pure (.yield PUnit.unit)) :
    forIn xs PUnit.unit g = xs.forM f := by
  induction xs with
  | nil => rfl
  | cons x xs ih =>
    rw [List.forIn_cons, hg x (List.mem_cons_self ..), bind_assoc]
    refine congrArg (f x >>= ·) (funext fun _ => ?_)
    rw [pure_bind]
    exact ih fun y hy => hg y (List.mem_cons_of_mem x hy)

end Done

/-! ### Values -/

section Values
variable {h : Heap} {v : Value}

theorem done_writeLines (s lead : String) : Done (writeLines s lead) := by
  unfold writeLines
  refine done_bind (done_forIn fun line _ => steps_of_done (done_write _)) ?_
  split
  · exact done_write _
  · exact done_pure

/-- A value of the notation has a simple form. -/
theorem answers_formatted (hv : Noted v) : Answers (formatted h v) := by
  unfold formatted
  split
  · exact answers_ok _
  · exact answers_layout_noted hv

theorem answers_inlineList (hv : Noted v) (lead : String) : Answers (inlineList? h v lead) :=
  answers_bind (answers_layout_noted hv) fun _ _ => answers_pure _

/-- A short value is written behind its key or line by line below it. -/
theorem done_writeItem_leaf (hv : Noted v) (hmap : h.mapEntries? v = none)
    (hlist : h.listItems? v = none) {n : Nat} (hn : 0 < n) (key : Value) (lead : String) :
    Done (writeItemWithin h n key v lead) := by
  obtain ⟨n, rfl⟩ : ∃ k, n = k + 1 := ⟨n - 1, by omega⟩
  rw [writeItemWithin]
  split
  · rename_i hview
    rw [mapEntries?, hview] at hmap
    cases hmap
  · rename_i hview
    rw [listItems?, hview] at hlist
    cases hlist
  · refine done_ask (answers_formatted hv) fun s _ => ?_
    split
    · refine done_bind (done_write _) (done_bind ?_ done_pure)
      exact done_forIn fun line _ => steps_of_done (done_write _)
    · exact done_write _

/-- A list is written where its items are. -/
theorem done_writeList_of {xs : List Value} (hv : Noted (.list xs)) {n : Nat}
    (hx : ∀ x ∈ xs, ∀ key lead, Done (writeItemWithin h n key x lead)) (lead : String) :
    Done (writeListWithin h (n + 1) (.list xs) lead) := by
  rw [writeListWithin]
  refine done_ask (answers_inlineList hv lead) fun line _ => ?_
  cases line with
  | some s => exact done_write _
  | none =>
    refine done_ask (answers_ok xs) fun ys hys => ?_
    cases hys
    refine done_bind (done_forIn fun p hp => ?_) done_pure
    exact steps_of_done (hx p.1 (List.fst_mem_of_mem_zipIdx hp) _ _)

theorem iterate_of_map {c : Option Subclass} {es : List (Value × Value)}
    (hv : h.view v = .map c es) : h.iterate v = .ok (es.map (·.1)) := by
  have hentries : h.entries? (.map c es) = some es := entries?_of_map
  have hitems : (Object.map c es).items? = none := rfl
  simp only [iterate, hv, hitems, hentries]

theorem iterate_table (es : List (String × Value)) :
    h.iterate (.table es) = .ok ((namedEntries es).map (·.1)) :=
  iterate_of_map rfl

/-- Texts can be keys. -/
theorem requireKey_texts {xs : List Value} (hx : ∀ k ∈ xs, ∃ s, (h.view k).text? = some s) :
    (xs.forM fun k => ask (h.requireKey k)) = pure () := by
  induction xs with
  | nil => rfl
  | cons k xs ih =>
    obtain ⟨s, hs⟩ := hx k (List.mem_cons_self ..)
    show (ask (h.requireKey k) >>= fun _ => xs.forM fun k => ask (h.requireKey k)) = _
    rw [requireKey_text hs]
    exact ih fun k hk => hx k (List.mem_cons_of_mem _ hk)

/-- Where nothing is left out, all items are kept. -/
theorem filterM_kept (h : Heap) (xs : List Value) :
    xs.filterM (fun k => do return !(← hasPart h h.same k [])) =
      (.ok xs : Except Fault (List Value)) := by
  have haux : ∀ xs acc : List Value, xs.filterAuxM (fun k => do
      return !(← hasPart h h.same k [])) acc = (.ok (xs.reverse ++ acc) : Except Fault _) := by
    intro xs
    induction xs with
    | nil => exact fun _ => rfl
    | cons x xs ih => exact fun acc => (ih (x :: acc)).trans (by simp)
  rw [List.filterM, haux xs []]
  exact congrArg Except.ok (by simp)

/-- The entries of a map with texts for keys are written one by one in some order. -/
theorem writeMapWithin_texts {c : Option Subclass} {es : List (Value × Value)}
    (hv : h.view v = .map c es) (he : ∀ e ∈ es, ∃ s, (h.view e.1).text? = some s) (n : Nat)
    (lead : String) : ∃ keys : List Value, keys.Perm (es.map (·.1)) ∧
      writeMapWithin h (n + 1) v [] lead = keys.forM fun k =>
        writeItemWithin h n k ((h.entry? (h.display k) es).getD .nil) lead := by
  have hkeys : ∀ k ∈ es.map (·.1), ∃ s, (h.view k).text? = some s := List.forall_mem_map.mpr he
  have hentries : h.entries? (h.view v) = some es := by
    rw [hv]
    exact entries?_of_map
  obtain ⟨keys, hsort, hperm⟩ := sort_texts hkeys
  refine ⟨keys, hperm, ?_⟩
  rw [writeMapWithin, iterate_of_map hv, hentries]
  show ((es.map (·.1)).forM (fun k => ask (h.requireKey k)) >>= fun _ =>
    ask ((es.map (·.1)).filterM fun k => do return !(← hasPart h h.same k [])) >>= fun kept =>
      ask (h.sort kept) >>= fun keys => forIn keys PUnit.unit _ >>= fun _ => pure ()) = _
  rw [requireKey_texts hkeys, filterM_kept]
  show (ask (h.sort (es.map (·.1))) >>= fun keys =>
    forIn keys PUnit.unit _ >>= fun _ => pure ()) = _
  rw [hsort]
  show (forIn keys PUnit.unit _ >>= fun _ => (pure () : Page Unit)) = _
  rw [bind_pure_unit]
  refine forIn_eq_forM fun k hk _ => ?_
  obtain ⟨s, hs⟩ := hkeys k (hperm.subset hk)
  show (ask (h.find? k es) >>= fun x => writeItemWithin h n k (x.getD .nil) lead >>= _) = _
  rw [find?_of_text hs, display_text hs]
  rfl

/-- Under a key of a map stands one of its values. -/
theorem entry?_of_key {es : List (Value × Value)} (he : ∀ e ∈ es, ∃ s, (h.view e.1).text? = some s)
    {k : Value} (hk : k ∈ es.map (·.1)) : ∃ e ∈ es, h.entry? (h.display k) es = some e.2 := by
  obtain ⟨d, hd, rfl⟩ := List.mem_map.mp hk
  obtain ⟨s, hs⟩ := he d hd
  rw [display_text hs]
  cases hx : h.entry? s es with
  | none => exact absurd hs (entry?_eq_none.mp hx d hd)
  | some x =>
    obtain ⟨e, hm, rfl, _⟩ := entry?_mem hx
    exact ⟨e, hm, rfl⟩

/-- A map is written where its values are. -/
theorem done_writeMap_of {es : List (String × Value)} {n : Nat}
    (he : ∀ e ∈ es, ∀ key lead, Done (writeItemWithin h n key e.2 lead))
    (lead : String) : Done (writeMapWithin h (n + 1) (.table es) [] lead) := by
  have htexts : ∀ e ∈ namedEntries es, ∃ s, (h.view e.1).text? = some s :=
    fun e he => (named_entries he).1.text
  have hview : h.view (.table es) = .map none (namedEntries es) := rfl
  obtain ⟨keys, hperm, hwrite⟩ := writeMapWithin_texts hview htexts n lead
  rw [hwrite]
  refine done_forM fun k hk => ?_
  obtain ⟨e, hm, hx⟩ := entry?_of_key htexts (hperm.subset hk)
  obtain ⟨-, d, hd, hvalue⟩ := named_entries hm
  rw [hx, ← hvalue]
  exact he d hd k lead

theorem depth_named {es : List (String × Value)} {e : String × Value} (he : e ∈ es) :
    e.2.depth ≤ Value.entriesDepth (namedEntries es) :=
  depth_le_of_mem (e := (.text e.1, e.2)) (List.mem_map.mpr ⟨e, he, rfl⟩)

/-- A value of the notation is written below a key. -/
theorem done_writeItem (hv : Noted v) {n : Nat} (hn : 2 * v.depth + 2 ≤ n) (key : Value)
    (lead : String) : Done (writeItemWithin h n key v lead) := by
  induction hv generalizing n key lead with
  | nil | bool | int | float | text | nan =>
    refine done_writeItem_leaf ?_ ?_ ?_ (by omega) key lead
    · constructor
    · rfl
    · rfl
  | @list xs hx ih =>
    have hdepth : (Value.list xs).depth = Value.listDepth xs + 1 := rfl
    obtain ⟨n, rfl⟩ : ∃ k, n = k + 2 := ⟨n - 2, by omega⟩
    refine done_bind (done_write _) (done_writeList_of (.list hx) (fun y hy key lead => ?_) _)
    have hy' := depth_le_listDepth hy
    exact ih y hy (by omega) key lead
  | @table es hd he ih =>
    have hdepth : (Value.table es).depth = Value.entriesDepth (namedEntries es) + 1 := rfl
    obtain ⟨n, rfl⟩ : ∃ k, n = k + 2 := ⟨n - 2, by omega⟩
    refine done_bind (done_write _) ?_
    refine done_writeMap_of (fun e hm key lead => ?_) _
    have hx := depth_named hm
    exact ih e hm (by omega) key lead

theorem done_writeMap {es : List (String × Value)} (he : ∀ e ∈ es, Noted e.2) (lead : String) :
    Done (writeMap h (.table es) [] lead) := by
  have hbound : bound h (.table es) =
    (2 * (h.size + (Value.entriesDepth (namedEntries es) + 1)) + 3) + 1 := rfl
  rw [writeMap, hbound]
  refine done_writeMap_of (fun e hm key lead => ?_) lead
  have hx := depth_named hm
  exact done_writeItem (he e hm) (by omega) key lead

/-- **A value of the notation is written.** -/
theorem done_writeValue (hv : Noted v) (lead : String) : Done (writeValue h v lead) := by
  have hleaf : ∀ {v : Value}, Noted v → Done (do
      let s ← ask (formatted h v)
      writeLines s lead) := fun hv =>
    done_ask (answers_formatted hv) fun s _ => done_writeLines s lead
  cases hv with
  | nil => exact hleaf .nil
  | bool b => exact hleaf (.bool b)
  | int m => exact hleaf (.int m)
  | float x => exact hleaf (.float x)
  | text s => exact hleaf (.text s)
  | nan => exact hleaf .nan
  | @list xs hx =>
    cases xs with
    | nil => exact hleaf (.list nofun)
    | cons x xs =>
      have hbound : bound h (.list (x :: xs)) =
        (2 * (h.size + (Value.listDepth (x :: xs) + 1)) + 3) + 1 := rfl
      show Done (writeListWithin h (bound h (.list (x :: xs))) (.list (x :: xs)) lead)
      rw [hbound]
      refine done_writeList_of (.list hx) (fun y hy key lead => ?_) lead
      have hy' := depth_le_listDepth hy
      exact done_writeItem (hx y hy) (by omega) key lead
  | @table es hd he => exact done_writeMap he lead

end Values

/-! ### Operations and filters -/

section Operations
variable {h : Heap} {v : Value} (palette : Palette)

/-- What a value of the notation is gone through by are values of the notation. -/
theorem noted_iterate (hv : Noted v) {xs : List Value} (hx : h.iterate v = .ok xs) :
    ∀ x ∈ xs, Noted x := by
  cases hv with
  | nil | bool | int | float | nan => cases hx
  | text s =>
    cases hx
    intro x hx
    obtain ⟨c, -, rfl⟩ := List.mem_map.mp hx
    exact .text _
  | list hxs =>
    cases hx
    exact hxs
  | table hd he =>
    cases (iterate_table _).symm.trans hx
    intro x hx
    obtain ⟨e, hm, rfl⟩ := List.mem_map.mp hx
    obtain ⟨s, hs⟩ := (named_entries hm).1
    rw [hs]
    exact .text s

theorem noted_pushedItems (hv : Noted v) : Noted (pushedItems h v) := by
  unfold pushedItems
  split
  · rename_i items hitems
    obtain ⟨es, hes, hentry⟩ := Option.bind_eq_some_iff.mp hitems
    obtain ⟨e, hm, rfl⟩ := Option.map_eq_some_iff.mp hentry
    cases hv with
    | nil | bool | int | float | nan | text | list => cases hes
    | table hd he =>
      cases hes
      obtain ⟨-, d, hdm, hvalue⟩ := named_entries (List.mem_of_find?_eq_some hm)
      rw [← hvalue]
      exact he d hdm
  · exact .list (List.forall_mem_singleton.mpr hv)

/-- An operation is written if what a push lists can be gone through. -/
theorem done_writeOperation (operator : Operator) (path : Value) (hv : Noted v)
    (hx : operator = .push → Answers (h.iterate (pushedItems h v))) :
    Done (writeOperation h (.ok palette) operator.text path v) := by
  have hof : Operator.ofText? operator.text = some operator := by cases operator <;> rfl
  have haction : ∀ message : Value, Done (writeAction h (.ok palette) message path) := fun _ =>
    done_ask (answers_ok palette) fun _ _ => done_write _
  have hend : Done (writeEnd (.ok palette)) := done_ask (answers_ok palette) fun _ _ => done_write _
  unfold writeOperation
  rw [hof]
  cases operator with
  | set =>
    refine done_bind (haction _) (done_ask ⟨_, hv.document⟩ fun d hd => ?_)
    cases hv.document.symm.trans hd
    exact done_ask (answers_ok palette) fun _ _ => done_bind (done_writeValue hv _) hend
  | unset => exact done_bind (haction _) hend
  | push =>
    refine done_ask (hx rfl) fun xs hxs => done_bind (haction _) ?_
    refine done_bind (done_forIn fun x hm => ?_) hend
    have hnoted := noted_iterate (noted_pushedItems hv) hxs x hm
    refine steps_ask ⟨_, hnoted.document⟩ fun d hd => ?_
    cases hnoted.document.symm.trans hd
    exact steps_ask (answers_ok palette) fun _ _ => steps_of_done (done_writeValue hnoted _)

/-- A filter is written. -/
theorem done_writeFilter {es : List (String × Value)} (he : ∀ e ∈ es, Noted e.2)
    (hd : (es.map (·.1)).Nodup) : Done (writeFilter h (.ok palette) (.table es)) := by
  have hkeys : ∀ k ∈ (namedEntries es).map (·.1), ∃ s, k = .text s := by
    intro k hk
    obtain ⟨e, hm, rfl⟩ := List.mem_map.mp hk
    exact (named_entries hm).1
  obtain ⟨ks, hks, hperm⟩ := sort_texts (h := h) fun k hk => by
    obtain ⟨s, rfl⟩ := hkeys k hk
    exact ⟨s, rfl⟩
  unfold writeFilter
  refine done_ask ⟨_, iterate_table es⟩ fun keys hk => ?_
  cases (iterate_table es).symm.trans hk
  refine done_ask ⟨ks, hks⟩ fun sorted hs => ?_
  cases hks.symm.trans hs
  refine done_ask (answers_mapM fun k hk => ?_) fun names _ => ?_
  · obtain ⟨s, rfl⟩ := hkeys k (hperm.subset hk)
    exact answers_ok s
  refine done_bind (done_ask (answers_ok palette) fun _ _ => done_write _) ?_
  refine done_ask ⟨_, (Noted.table hd he).document⟩ fun d hdoc => ?_
  cases (Noted.table hd he).document.symm.trans hdoc
  refine done_ask (answers_ok palette) fun p _ => done_bind (done_writeMap he _) ?_
  exact done_ask (answers_ok palette) fun _ _ => done_write _

end Operations

end Report
end DocDelta
