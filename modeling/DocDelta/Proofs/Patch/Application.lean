import DocDelta.Proofs.Diff.Recorded
import DocDelta.Proofs.Diff.Repairs

/-! What a patch does to a document.

An operation of a patch is read as an edit: its path as the names and items on the way, where a
placeholder stands for the item that the filters tie it to, and its value as the document of the
value. `apply` makes all the edits, in the order of the patch. The records of changes are read as
the edits that the changes stand for. -/
namespace DocDelta.Patch
open Heap Document Diff

section Definitions
variable (h : Heap)

/-- The item that a filter ties a key to. -/
def tiedIndex (key : String) (filter : Value) : Option Nat := do
  let es ← h.mapEntries? filter
  let index ← h.entry? key es
  let n ← (h.view index).whole?
  return n.toNat

/-- The place that a name on a path stands for. -/
def place (filters : List Value) (name : String) : Option Place :=
  match name.toList with
  | '$' :: '[' :: rest =>
    (filters.findSome? (tiedIndex h (String.ofList rest.dropLast ++ "._index"))).map .item
  | _ => some (.name name)

/-- What a push adds: several items under a name of their own, or the operand itself. -/
def pushedItems (v : Value) : List Value :=
  (((h.mapEntries? v).bind (h.entry? Operator.each)).bind h.listItems?).getD [v]

/-- The action of an operation, with documents for values. -/
def actionOf (operator : Operator) (v : Value) : Option Action :=
  match operator with
  | .set => (h.document v).toOption.map .set
  | .unset => some .unset
  | .push => ((pushedItems h v).mapM h.document).toOption.map .push

/-- The edit that an operation is. -/
def editOf (filters : List Value) (operation : Operator × String × Value) : Option Document.Edit := do
  let path ← (names operation.2.1).mapM (place h filters)
  return (path, ← actionOf h operation.1 operation.2.2)

/-- What a patch makes of what is at a place. -/
def apply (p : Patch) (c : Option Value) : Option (Option Value) := do
  runEdits h (← p.entries.mapM (editOf h p.filters)) c

end Definitions

variable {h : Heap}

/-! ### Places -/

theorem place_plain (filters : List Value) {s : String} (hs : PlainName s) :
    place h filters s = some (.name s) := by
  unfold place
  split
  · rename_i hc
    exact absurd (by rw [hc]; rfl) hs.2
  · rfl

theorem places_plain (filters : List Value) (path : List Label)
    (hp : ∀ l ∈ path, PlainName l.text) :
    (path.map (·.text)).mapM (place h filters) = some (namePath path) := by
  induction path with
  | nil => rfl
  | cons l path ih =>
    rw [List.map_cons, List.mapM_cons, place_plain filters (hp l (List.mem_cons_self ..)),
      ih fun k hk => hp k (List.mem_cons_of_mem l hk)]
    rfl

theorem placeholder_inj {m n : Nat} (he : placeholder "elem" m = placeholder "elem" n) : m = n :=
  placeName_inj (by rw [placeName, placeName, he])

/-- A filter of one number says nothing of another. -/
theorem tiedIndex_placeFilter (m n i : Nat) :
    tiedIndex h (placeholder "elem" n ++ "._index") (placeFilter m i) =
      if m = n then some i else none := by
  have hentry : h.entry? (placeholder "elem" n ++ "._index")
      [(.text (placeholder "elem" m ++ "._index"), .int i)] = if m = n then some (.int i) else none := by
    rw [entry?_cons]
    by_cases hmn : m = n
    · rw [if_pos hmn, if_pos (isText_text.mpr (by rw [hmn]))]
    · rw [if_neg hmn, if_neg fun ht => hmn ?_, entry?_nil]
      exact placeholder_inj (String.append_left_inj _ |>.mp (isText_text.mp ht))
  show (h.entry? (placeholder "elem" n ++ "._index")
      [(.text (placeholder "elem" m ++ "._index"), .int i)]).bind _ = _
  rw [hentry]
  by_cases hmn : m = n
  · rw [if_pos hmn, if_pos hmn]
    rfl
  · rw [if_neg hmn, if_neg hmn]
    rfl

/-- Filters of smaller numbers. -/
def Earlier (n : Nat) (filters : List Value) : Prop := ∀ f ∈ filters, ∃ m j, m < n ∧ f = placeFilter m j

/-- **A placeholder stands for the item that its filter names**, whatever comes after. -/
theorem place_placeName {earlier later : List Value} {n : Nat} (i : Nat)
    (he : Earlier n earlier) :
    place h (earlier ++ placeFilter n i :: later) (placeName n).text = some (.item i) := by
  have hkey : String.ofList (('e' :: 'l' :: 'e' :: 'm' :: (Nat.toDigits 10 n ++ [']'])).dropLast) =
      placeholder "elem" n := by
    have hdrop : ('e' :: 'l' :: 'e' :: 'm' :: (Nat.toDigits 10 n ++ [']'])).dropLast =
        'e' :: 'l' :: 'e' :: 'm' :: Nat.toDigits 10 n := by
      show (('e' :: 'l' :: 'e' :: 'm' :: Nat.toDigits 10 n) ++ [']']).dropLast = _
      exact List.dropLast_concat
    rw [hdrop]
    apply String.toList_inj.mp
    simp [placeholder, Number.decimalText, Number.digits]
  have hnone : earlier.findSome? (tiedIndex h (placeholder "elem" n ++ "._index")) = none := by
    refine List.findSome?_eq_none_iff.mpr fun f hf => ?_
    obtain ⟨m, j, hm, rfl⟩ := he f hf
    rw [tiedIndex_placeFilter, if_neg (by omega)]
  have hsome : (earlier ++ placeFilter n i :: later).findSome?
      (tiedIndex h (placeholder "elem" n ++ "._index")) = some i := by
    rw [List.findSome?_append, hnone, Option.none_or, List.findSome?_cons, tiedIndex_placeFilter,
      if_pos rfl]
  unfold place
  rw [placeName_chars]
  show ((earlier ++ placeFilter n i :: later).findSome? (tiedIndex h (String.ofList
    (('e' :: 'l' :: 'e' :: 'm' :: (Nat.toDigits 10 n ++ [']'])).dropLast) ++ "._index"))).map _ = _
  rw [hkey, hsome]
  rfl

/-! ### Operations -/

/-- A value with names of its own is pushed as it is. -/
theorem pushedItems_single {v : Value} (hv : h.WellNamed (h.view v)) : pushedItems h v = [v] := by
  have hnone : (h.mapEntries? v).bind (h.entry? Operator.each) = none := by
    unfold mapEntries?
    split
    · rename_i c es hview
      refine entry?_eq_none.mpr fun e he ht => ?_
      rw [hview] at hv
      have hplain := hv.plain Operator.each (List.mem_filterMap.mpr ⟨e, he, ht⟩)
      exact absurd hplain (by decide)
    · rfl
  rw [pushedItems, hnone]
  rfl

/-- What is pushed is read back from the record of the push. -/
theorem pushedItems_record (path : Label) {items : List Value} (hn : items ≠ [])
    (hw : ∀ v ∈ items, h.WellNamed (h.view v)) :
    ∃ v, pushed? path items = some ⟨.push, path, v⟩ ∧ pushedItems h v = items := by
  match items with
  | [] => exact absurd rfl hn
  | [v] => exact ⟨v, rfl, pushedItems_single (hw v (List.mem_cons_self ..))⟩
  | u :: v :: vs =>
    refine ⟨_, rfl, ?_⟩
    have hentry : h.entry? Operator.each [(.text Operator.each, .list (u :: v :: vs))] =
        some (.list (u :: v :: vs)) := by
      rw [entry?_cons, if_pos (isText_text.mpr rfl)]
    show (((h.entry? Operator.each [(.text Operator.each, .list (u :: v :: vs))]).bind
      h.listItems?).getD _) = _
    rw [hentry]
    rfl

theorem editOf_eq {filters : List Value} {r : Record} {path : List Place} {action : Action}
    (hp : (names r.path.text).mapM (place h filters) = some path)
    (ha : actionOf h r.operator r.value = some action) :
    editOf h filters r.entry = some (path, action) := by
  show (do return (← (names r.path.text).mapM (place h filters),
    ← actionOf h r.operator r.value) : Option Document.Edit) = _
  rw [hp, ha]
  rfl

/-- **The record of a change is read as the edit that the change stands for.** -/
theorem editOf_record {change : Change} {e : Document.Edit} (hr : Renders h change e) {n : Nat}
    {earlier : List Value} (he : Earlier n earlier) (hp : ∀ l ∈ change.path, PlainName l.text)
    (later : List Value) :
    ∃ r, change.record? n = some r ∧
      editOf h (earlier ++ ((change.filter? n).toList ++ later)) r.entry = some e := by
  have hsegments : ∀ l ∈ change.path, Segment l.text := fun l hl => (hp l hl).1
  have hplaces : ∀ {r : Record} {path : List Label} {action : Action},
      change = .whole path action → change.record? n = some r → ∀ filters,
        (names r.path.text).mapM (place h filters) = some (namePath path) := by
    rintro r path action rfl hrec filters
    rw [names_record hrec hsegments]
    exact places_plain filters path hp
  cases hr with
  | set hd => exact ⟨_, rfl, editOf_eq (hplaces rfl rfl _) (by rw [actionOf, hd]; rfl)⟩
  | unset => exact ⟨_, rfl, editOf_eq (hplaces rfl rfl _) rfl⟩
  | push hn hw hd =>
    obtain ⟨v, hrec, hitems⟩ := pushedItems_record (joinAll (.plain "") _) hn hw
    refine ⟨_, hrec, editOf_eq (hplaces rfl hrec _) ?_⟩
    rw [actionOf, hitems, mapM_eq_ok.mpr hd]
    rfl
  | @item path i v d hd =>
    refine ⟨_, rfl, editOf_eq ?_ (by rw [actionOf, hd]; rfl)⟩
    have hrec : Change.record? n (.item path i v) =
        some ⟨.set, joinPath (joinAll (.plain "") path) (placeName n), v⟩ := rfl
    have hnames : names (joinPath (joinAll (.plain "") path) (placeName n)).text =
        path.map (·.text) ++ [(placeName n).text] := names_record hrec hsegments
    have hplace : [(placeName n).text].mapM (place h (earlier ++ placeFilter n i :: later)) =
        some [.item i] := by
      rw [List.mapM_cons, place_placeName i he]
      rfl
    rw [hnames, List.mapM_append, places_plain _ path hp]
    show ([(placeName n).text].mapM (place h (earlier ++ placeFilter n i :: later)) >>= _) = _
    rw [hplace]
    rfl

/-- The records of changes are read as the edits that the changes stand for. -/
theorem editOf_records {cs : List Change} {L : List Document.Edit}
    (hr : List.Forall₂ (Renders h) cs L) (hp : ∀ c ∈ cs, ∀ l ∈ c.path, PlainName l.text) (n : Nat)
    (earlier : List Value) (he : Earlier n earlier) :
    List.Forall₂ (fun r e => editOf h (earlier ++ filtersFrom n cs) r.entry = some e)
      (recordsFrom n cs) L := by
  induction hr generalizing n earlier with
  | nil => exact .nil
  | @cons c e cs L hc _ ih =>
    obtain ⟨r, hrec, hedit⟩ :=
      editOf_record hc he (hp c (List.mem_cons_self ..)) (filtersFrom (n + c.takes) cs)
    rw [recordsFrom, filtersFrom, hrec]
    refine .cons hedit ?_
    rw [← List.append_assoc]
    refine ih (fun d hd => hp d (List.mem_cons_of_mem c hd)) _ _ fun f hf => ?_
    rcases List.mem_append.mp hf with hf | hf
    · obtain ⟨m, j, hm, rfl⟩ := he f hf
      exact ⟨m, j, by omega, rfl⟩
    · cases c with
      | whole path action => cases hf
      | item path i v =>
        rw [List.mem_singleton.mp hf]
        exact ⟨n, i, Nat.lt_succ_self n, rfl⟩

theorem mapM_of_forall₂ {α β : Type} {f : α → Option β} {xs : List α} {ys : List β}
    (hr : List.Forall₂ (fun x y => f x = some y) xs ys) : xs.mapM f = some ys := by
  induction hr with
  | nil => rfl
  | cons hx _ ih =>
    rw [List.mapM_cons, hx, ih]
    rfl

/-- **A patch made by changes at distinct paths makes their edits**, in some order. -/
theorem apply_eq {cs : List Change} {L : List Document.Edit} {p : Patch}
    (ha : Accumulates (recordsFrom 0 cs) p) (hf : p.filters = filtersFrom 0 cs)
    (hn : ((recordsFrom 0 cs).map (·.path.text)).Nodup)
    (hp : ∀ c ∈ cs, ∀ l ∈ c.path, PlainName l.text) (hr : List.Forall₂ (Renders h) cs L) :
    ∃ M : List Document.Edit, M.Perm L ∧ ∀ c, apply h p c = runEdits h M c := by
  have hedits : List.Forall₂ (fun x e => editOf h p.filters x = some e)
      ((recordsFrom 0 cs).map Record.entry) L := by
    rw [hf, List.forall₂_map_left_iff]
    exact editOf_records hr hp 0 [] nofun
  obtain ⟨M, hM, hperm⟩ := List.perm_comp_forall₂ (entries_perm ha hn) hedits
  refine ⟨M, hperm, fun c => ?_⟩
  rw [apply, mapM_of_forall₂ hM]
  rfl

end DocDelta.Patch
