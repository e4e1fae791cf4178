import DocDelta.Json.Patch
import DocDelta.Proofs.Patch.Loaded
import DocDelta.Proofs.Report.Written

/-! What a report shows of a patch.

A report goes through the changed fields and then through the paths that the metadata knows no
operator for, and shows every operation it meets once (`writePatch_shows`). A patch that was read
may name an operator for a path and not list the path among the changed fields: what it holds there
is not shown (`writePatch_omits`). -/
namespace DocDelta

/-! ### Distinct members -/

section Distinct
variable {α : Type} [BEq α] [LawfulBEq α]

theorem nodup_eraseDups (xs : List α) : xs.eraseDups.Nodup := by
  induction hn : xs.length using Nat.strong_induction_on generalizing xs with
  | _ n ih =>
    cases xs with
    | nil => exact List.nodup_nil
    | cons x xs =>
      rw [List.eraseDups_cons, List.nodup_cons]
      refine ⟨fun hm => ?_, ih _ ?_ _ rfl⟩
      · simp [List.mem_eraseDups] at hm
      · rw [← hn]
        exact Nat.lt_succ_of_le (List.length_filter_le ..)

theorem eraseDups_of_nodup {xs : List α} (hd : xs.Nodup) : xs.eraseDups = xs := by
  induction xs with
  | nil => rfl
  | cons x xs ih =>
    obtain ⟨hx, hd⟩ := List.nodup_cons.mp hd
    have hfilter : xs.filter (fun y => !y == x) = xs := by
      refine List.filter_eq_self.mpr fun y hy => ?_
      simpa using fun he : y = x => hx (he ▸ hy)
    rw [List.eraseDups_cons, hfilter, ih hd]

end Distinct

namespace Report
open Heap Patch Json
variable {h : Heap} {p : Patch}

/-! ### The order of a report -/

/-- The path that a mark names. -/
def markText? : Mark → Option String
  | .label l => some l.text
  | .other _ => none

/-- The operations at a path. -/
def operationsAt (p : Patch) (path : String) : List (Operator × String × Value) :=
  p.entries.filter fun e => e.2.1 == path

/-- The operations that a report shows: those of the changed fields in the order of these, each
field once, and then those at paths that the metadata does not know. -/
def shown (p : Patch) : List (Operator × String × Value) :=
  (p.metadata.fieldsChanged.filterMap markText?).eraseDups.flatMap (operationsAt p) ++
    p.entries.filter fun e => !p.metadata.hasType e.2.1 && !p.changed e.2.1

theorem changed_iff_mem {path : String} :
    p.changed path = true ↔ path ∈ p.metadata.fieldsChanged.filterMap markText? := by
  rw [changed, List.any_eq_true, List.mem_filterMap]
  refine exists_congr fun m => and_congr_right fun _ => ?_
  cases m with
  | label l => simp [Mark.isText, markText?]
  | other v => simp [Mark.isText, markText?]

theorem mem_operationsAt {path : String} {e : Operator × String × Value} :
    e ∈ operationsAt p path ↔ e ∈ p.entries ∧ e.2.1 = path := by
  simp [operationsAt]

/-- Where no path is held twice, an operation is the only one at its path. -/
theorem operationsAt_self (hd : p.paths.Nodup) {e : Operator × String × Value}
    (he : e ∈ p.entries) : operationsAt p e.2.1 = [e] := by
  have hall : ∀ {es : List (Operator × String × Value)}, (es.map fun e => e.2.1).Nodup → e ∈ es →
      es.filter (fun d => d.2.1 == e.2.1) = [e] := by
    intro es hd he
    induction es with
    | nil => cases he
    | cons d es ih =>
      obtain ⟨hfresh, hd⟩ := List.nodup_cons.mp hd
      rcases List.mem_cons.mp he with rfl | he
      · have hnone : es.filter (fun d => d.2.1 == e.2.1) = [] := by
          refine List.filter_eq_nil_iff.mpr fun d hm hpath => hfresh ?_
          exact List.mem_map.mpr ⟨d, hm, by simpa using hpath⟩
        rw [List.filter_cons_of_pos (by simp), hnone]
      · have hne : ¬ (d.2.1 == e.2.1) = true := fun hpath =>
          hfresh (List.mem_map.mpr ⟨e, he, by simpa using Eq.symm (by simpa using hpath)⟩)
        rw [List.filter_cons, if_neg hne, ih hd he]
  exact hall hd he

theorem mem_shown {e : Operator × String × Value} : e ∈ shown p ↔
    e ∈ p.entries ∧ (p.changed e.2.1 = true ∨ p.metadata.hasType e.2.1 = false) := by
  simp only [shown, List.mem_append, List.mem_flatMap, List.mem_eraseDups, mem_operationsAt,
    List.mem_filter, Bool.and_eq_true, Bool.not_eq_true']
  constructor
  · rintro (⟨path, hpath, he, rfl⟩ | ⟨he, htype, -⟩)
    · exact ⟨he, .inl (changed_iff_mem.mpr hpath)⟩
    · exact ⟨he, .inr htype⟩
  · rintro ⟨he, hshown⟩
    by_cases hc : p.changed e.2.1 = true
    · exact .inl ⟨_, changed_iff_mem.mp hc, he, rfl⟩
    · exact .inr ⟨he, hshown.resolve_left hc, by simpa using hc⟩

/-- Nothing is shown twice. -/
theorem nodup_shown (ht : Tidy p.groups) : (shown p).Nodup := by
  rw [shown, List.nodup_append]
  refine ⟨?_, (entries_nodup ht).filter _, ?_⟩
  · refine List.nodup_flatMap.mpr ⟨fun path _ => (entries_nodup ht).filter _, ?_⟩
    refine (nodup_eraseDups _).imp fun {s t} hne => ?_
    intro e hs ht
    exact hne ((mem_operationsAt.mp hs).2.symm.trans (mem_operationsAt.mp ht).2)
  · rintro e he d hd rfl
    obtain ⟨path, hpath, he⟩ := List.mem_flatMap.mp he
    obtain ⟨-, hunchanged⟩ := List.mem_filter.mp hd
    have hchanged := changed_iff_mem.mpr (List.mem_eraseDups.mp hpath)
    rw [← (mem_operationsAt.mp he).2] at hchanged
    simp [hchanged] at hunchanged

/-- All is shown where every path with an operator in the metadata is among the changed fields. -/
theorem shown_perm (ht : Tidy p.groups)
    (hk : ∀ path ∈ p.paths, p.metadata.hasType path = true → p.changed path = true) :
    (shown p).Perm p.entries := by
  refine (List.perm_ext_iff_of_nodup (nodup_shown ht) (entries_nodup ht)).mpr fun e => ?_
  refine ⟨fun he => (mem_shown.mp he).1, fun he => mem_shown.mpr ⟨he, ?_⟩⟩
  have hpath : e.2.1 ∈ p.paths := List.mem_map_of_mem (f := fun e => e.2.1) he
  cases htype : p.metadata.hasType e.2.1 with
  | false => exact .inr rfl
  | true => exact .inl (hk _ hpath htype)

/-! ### Going through the paths -/

/-- What is met behind paths that were gone through. -/
def pending (p : Patch) : List String → List Mark → List (Operator × String × Value)
  | _, [] => []
  | seen, .other _ :: marks => pending p seen marks
  | seen, .label l :: marks =>
    if l.text ∈ seen then pending p seen marks
    else operationsAt p l.text ++ pending p (l.text :: seen) marks

theorem pending_eq (seen : List String) (marks : List Mark) : pending p seen marks =
    ((marks.filterMap markText?).filter (· ∉ seen)).eraseDups.flatMap (operationsAt p) := by
  induction marks generalizing seen with
  | nil => rfl
  | cons m marks ih =>
    cases m with
    | other v => rw [pending, ih]; rfl
    | label l =>
      have hcons : (Mark.label l :: marks).filterMap markText? =
        l.text :: marks.filterMap markText? := rfl
      rw [pending, hcons]
      by_cases hs : l.text ∈ seen
      · rw [if_pos hs, ih, List.filter_cons_of_neg (by simpa using hs)]
      · rw [if_neg hs, ih, List.filter_cons_of_pos (by simpa using hs), List.eraseDups_cons,
          List.flatMap_cons, List.filter_filter]
        congr 3
        refine List.filter_congr fun s _ => ?_
        by_cases hl : s = l.text <;> simp [hl]

/-- The paths without an operator in the metadata. -/
theorem leftovers_eq : (p.groups.flatMap fun g =>
      (g.fields.filter fun f => !p.metadata.hasType f.1.text).map fun f => Mark.label f.1).filterMap
        markText? = (p.entries.filter fun e => !p.metadata.hasType e.2.1).map fun e => e.2.1 := by
  rw [entries, List.filter_flatMap, List.filterMap_flatMap, List.map_flatMap]
  refine List.flatMap_congr fun g _ => ?_
  rw [List.filterMap_map, List.filter_map, List.map_map]
  exact congrFun (List.filterMap_eq_map (f := fun f : Label × Value => f.1.text)) _

/-- Gone through by path, operations at distinct paths are these operations. -/
theorem flatMap_operationsAt (hd : p.paths.Nodup) {es : List (Operator × String × Value)}
    (he : ∀ e ∈ es, e ∈ p.entries) : (es.map fun e => e.2.1).flatMap (operationsAt p) = es := by
  induction es with
  | nil => rfl
  | cons e es ih =>
    rw [List.map_cons, List.flatMap_cons, operationsAt_self hd (he e (List.mem_cons_self ..)),
      ih fun d hd => he d (List.mem_cons_of_mem e hd)]
    rfl

theorem pending_orderedPaths (hd : p.paths.Nodup) : pending p [] (orderedPaths p) = shown p := by
  have hleft : ((p.entries.filter fun e => !p.metadata.hasType e.2.1).map fun e => e.2.1).removeAll
      (p.metadata.fieldsChanged.filterMap markText?) =
        (p.entries.filter fun e => !p.metadata.hasType e.2.1 && !p.changed e.2.1).map
          fun e => e.2.1 := by
    rw [List.removeAll, List.filter_map, List.filter_filter]
    congr 1
    refine List.filter_congr fun e _ => ?_
    have hmem : (p.metadata.fieldsChanged.filterMap markText?).elem e.2.1 = p.changed e.2.1 := by
      rw [Bool.eq_iff_iff, changed_iff_mem, List.elem_eq_mem, decide_eq_true_eq]
    show (!(p.metadata.fieldsChanged.filterMap markText?).elem e.2.1 && _) = _
    rw [hmem, Bool.and_comm]
  have hnodup : ((p.entries.filter fun e => !p.metadata.hasType e.2.1 && !p.changed e.2.1).map
      fun e => e.2.1).Nodup := hd.sublist (List.filter_sublist.map _)
  have hnew : ∀ xs : List String, xs.filter (· ∉ ([] : List String)) = xs := fun xs =>
    List.filter_eq_self.mpr fun x _ => by simp
  rw [pending_eq, hnew, orderedPaths, List.filterMap_append, leftovers_eq, List.eraseDups_append,
    hleft, eraseDups_of_nodup hnodup, List.flatMap_append,
    flatMap_operationsAt hd fun e he => (List.mem_filter.mp he).1]
  rfl

/-! ### Writing the operations -/

theorem forM_congr {α : Type} {f k : α → Page Unit} {xs : List α} (hf : ∀ x ∈ xs, f x = k x) :
    xs.forM f = xs.forM k := by
  induction xs with
  | nil => rfl
  | cons x xs ih =>
    show (f x >>= fun _ => xs.forM f) = (k x >>= fun _ => xs.forM k)
    rw [hf x (List.mem_cons_self ..), ih fun y hy => hf y (List.mem_cons_of_mem x hy)]

/-- An operation as it is written. -/
def writeEntry (h : Heap) (palette : Except Fault Palette) (e : Operator × String × Value) :
    Page Unit :=
  writeOperation h palette e.1.text (.text e.2.1) e.2.2

/-- The operations that were written are those at the paths that were gone through. -/
def Tracks (p : Patch) (printed : List (Operator × String)) (seen : List String) : Prop :=
  ∀ e ∈ p.entries, (e.1, e.2.1) ∈ printed ↔ e.2.1 ∈ seen

/-- Within a group a path is found at most once. -/
theorem filter_fields {g : Group} (hd : (g.fields.map (·.1.text)).Nodup) (path : String) :
    (g.fields.map fun f => (g.operator, f.1.text, f.2)).filter (fun e => e.2.1 == path) =
      ((g.find? path).map fun v => (g.operator, path, v)).toList := by
  obtain ⟨o, c, fields⟩ := g
  induction fields with
  | nil => rfl
  | cons f fields ih =>
    obtain ⟨hfresh, hd⟩ := List.nodup_cons.mp hd
    rw [List.map_cons, List.filter_cons, Group.find?, List.find?_cons]
    by_cases hf : f.1.text = path
    · have hnone : (fields.map fun f => (o, f.1.text, f.2)).filter (fun e => e.2.1 == path) =
          [] := by
        refine List.filter_eq_nil_iff.mpr fun e he hpath => hfresh ?_
        obtain ⟨k, hk, rfl⟩ := List.mem_map.mp he
        have hk' : k.1.text = f.1.text := Eq.trans (by simpa using hpath) hf.symm
        exact List.mem_map.mpr ⟨k, hk, hk'⟩
      rw [if_pos (by simpa using hf), hnone, show (f.1.text == path) = true by simpa using hf, hf]
      rfl
    · rw [if_neg (by simpa using hf), ih hd, show (f.1.text == path) = false by simpa using hf]
      rfl

theorem operationsAt_eq (ht : Tidy p.groups) (path : String) : operationsAt p path =
    p.groups.filterMap fun g => (g.find? path).map fun v => (g.operator, path, v) := by
  rw [operationsAt, entries, List.filter_flatMap, List.filterMap_eq_flatMap_toList]
  exact List.flatMap_congr fun g hg => filter_fields (ht.paths g hg) path

/-- At a path everything is pending, or nothing. -/
theorem entriesAt_eq (ht : Tidy p.groups) {printed : List (Operator × String)} {seen : List String}
    (hs : Tracks p printed seen) (l : Label) : entriesAt p printed (.label l) =
      if l.text ∈ seen then [] else (operationsAt p l.text).map fun e => (e.1, l, e.2.2) := by
  have hprinted : ∀ g ∈ p.groups, ∀ v, g.find? l.text = some v →
      (printed.contains (g.operator, l.text) = true ↔ l.text ∈ seen) := by
    intro g hg v hv
    have he : (g.operator, l.text, v) ∈ p.entries := by
      refine (mem_entries_iff ht).mpr ?_
      rw [← hv]
      exact heldIn_of_mem ht.operators hg l.text
    rw [List.contains_iff_mem]
    exact hs _ he
  rw [operationsAt_eq ht, List.map_filterMap]
  by_cases hl : l.text ∈ seen
  · rw [if_pos hl]
    refine List.filterMap_eq_nil_iff.mpr fun g hg => ?_
    cases hv : g.find? l.text with
    | none => exact ite_self none
    | some v => exact if_pos ((hprinted g hg v hv).mpr hl)
  · rw [if_neg hl]
    refine List.filterMap_congr fun g hg => ?_
    cases hv : g.find? l.text with
    | none => exact ite_self none
    | some v => exact if_neg (mt (hprinted g hg v hv).mp hl)

/-- Writing the operations at a path makes that path one of those gone through. -/
theorem tracks_cons {printed : List (Operator × String)} {seen : List String}
    (hs : Tracks p printed seen) (path : String) :
    Tracks p (printed ++ (operationsAt p path).map fun e => (e.1, path)) (path :: seen) := by
  intro e he
  rw [List.mem_append, hs e he, List.mem_cons, or_comm]
  refine or_congr ⟨fun hm => ?_, fun hpath => ?_⟩ Iff.rfl
  · obtain ⟨d, -, hd⟩ := List.mem_map.mp hm
    exact (Prod.mk.inj hd).2.symm
  · exact List.mem_map.mpr ⟨e, mem_operationsAt.mpr ⟨he, hpath⟩, by rw [hpath]⟩

/-- The report writes what is pending, one operation after another. -/
theorem writeEntries_eq (ht : Tidy p.groups) (palette : Except Fault Palette) {marks : List Mark}
    (hk : ∀ m ∈ marks, h.requireKey m.value = .ok ())
    (hl : ∀ l, .label l ∈ marks → l.value = .text l.text)
    {printed : List (Operator × String)} {seen : List String} (hs : Tracks p printed seen) :
    writeEntries h palette p printed marks =
      (pending p seen marks).forM (writeEntry h palette) := by
  induction marks generalizing printed seen with
  | nil => rfl
  | cons m marks ih =>
    have hrest := fun {printed seen} (hs : Tracks p printed seen) =>
      ih (fun m hm => hk m (List.mem_cons_of_mem _ hm))
        (fun l hm => hl l (List.mem_cons_of_mem _ hm)) hs
    rw [writeEntries, hk m (List.mem_cons_self ..)]
    cases m with
    | other v =>
      show writeEntries h palette p (printed ++ []) marks = _
      rw [List.append_nil, hrest hs]
      rfl
    | label l =>
      have hvalue := hl l (List.mem_cons_self ..)
      show ((entriesAt p printed (.label l)).forM (fun e =>
        writeOperation h palette e.1.text e.2.1.value e.2.2) >>= fun _ =>
          writeEntries h palette p (printed ++ (entriesAt p printed (.label l)).map
            fun e => (e.1, e.2.1.text)) marks) = _
      rw [entriesAt_eq ht hs, pending]
      by_cases hseen : l.text ∈ seen
      · rw [if_pos hseen, if_pos hseen]
        show writeEntries h palette p (printed ++ []) marks = _
        rw [List.append_nil, hrest hs]
      · rw [if_neg hseen, if_neg hseen, List.map_map]
        have htracks := tracks_cons hs l.text
        refine Eq.trans ?_ List.forM_append.symm
        refine congr (congrArg bind ?_) (funext fun _ => hrest htracks)
        refine List.forM_map.trans (forM_congr fun e he => ?_)
        show writeOperation h palette e.1.text l.value e.2.2 = writeEntry h palette e
        rw [hvalue, ← (mem_operationsAt.mp he).2]
        rfl

/-! ### Patches that were read -/

/-- A patch whose values the notation can say. -/
structure FromText (p : Patch) : Prop where
  tidy : Tidy p.groups
  paths : p.paths.Nodup
  values : ∀ e ∈ p.entries, Noted e.2.2
  labels : ∀ g ∈ p.groups, ∀ f ∈ g.fields, f.1.value = .text f.1.text
  marks : ∀ l, .label l ∈ p.metadata.fieldsChanged → l.value = .text l.text
  filters : ∀ f ∈ p.filters, ∃ es, f = .table es ∧ (es.map (·.1)).Nodup ∧ ∀ e ∈ es, Noted e.2

section Loading
variable {v w : Value}

theorem mapEntries?_noted (hv : Noted v) {es : List (Value × Value)}
    (hm : h.mapEntries? v = some es) : ∃ ds, v = .table ds ∧ es = namedEntries ds ∧
      (ds.map (·.1)).Nodup ∧ ∀ d ∈ ds, Noted d.2 := by
  cases hv with
  | nil | bool | int | float | nan | text | list => cases hm
  | table hd he =>
    cases hm
    exact ⟨_, rfl, rfl, hd, he⟩

theorem listItems?_noted (hv : Noted v) {xs : List Value} (hl : h.listItems? v = some xs) :
    ∀ x ∈ xs, Noted x := by
  cases hv with
  | nil | bool | int | float | nan | text | table => cases hl
  | list hx =>
    cases hl
    exact hx

theorem entry?_noted {ds : List (String × Value)} (hd : ∀ d ∈ ds, Noted d.2) {name : String}
    (hw : h.entry? name (namedEntries ds) = some w) : Noted w := by
  obtain ⟨e, he, rfl⟩ := Option.map_eq_some_iff.mp hw
  obtain ⟨-, d, hm, hvalue⟩ := named_entries (List.mem_of_find?_eq_some he)
  rw [← hvalue]
  exact hd d hm

/-- The items that a named entry lists. -/
theorem items_noted {ds : List (String × Value)} (hd : ∀ d ∈ ds, Noted d.2) {name : String} :
    ∀ x ∈ ((h.entry? name (namedEntries ds)).bind h.listItems?).getD [], Noted x := by
  cases hw : h.entry? name (namedEntries ds) with
  | none => exact nofun
  | some w =>
    cases hl : h.listItems? w with
    | none => simp [hl]
    | some xs => simpa [hl] using listItems?_noted (entry?_noted hd hw) hl

theorem label_of_markOf {l : Label} (hm : markOf h v = .label l) : (h.view v).label? = some l := by
  unfold markOf at hm
  split at hm
  · rename_i k hk
    cases hm
    exact hk
  · cases hm

/-- A text that was read is plain. -/
theorem label_noted (hv : Noted v) {l : Label} (hl : (h.view v).label? = some l) :
    l.value = .text l.text := by
  cases hv with
  | nil | bool | int | float | nan | list | table => cases hl
  | text s =>
    cases hl
    rfl

/-- Names that differ are told apart. -/
theorem distinct_named {ds : List (String × Value)} (hd : (ds.map (·.1)).Nodup) :
    (namedEntries ds).Pairwise fun d e => h.matching d.1 e.1 = .ok false := by
  refine List.pairwise_map.mpr ((List.pairwise_map.mp hd).imp fun {a b} hne => ?_)
  have hmatch : h.matching (.text a.1) (.text b.1) = .ok (some a.1 == some b.1) :=
    matching_text rfl
  rw [hmatch]
  simpa using hne

theorem fromText_of_read {s : String} (hr : readPatch h s = .ok p) : FromText p := by
  unfold readPatch at hr
  split at hr
  · cases hr
  rename_i v hread
  have hnoted := noted_read hread
  cases hc : check h v with
  | error f =>
    unfold ofMap at hr
    rw [hc] at hr
    cases hr
  | ok u =>
    obtain ⟨es, groups, ms, hv⟩ := checked_of_check hc
    obtain ⟨ds, rfl, rfl, hnames, hvalues⟩ := mapEntries?_noted hnoted hv.entries
    obtain ⟨operations, ho, hgroups⟩ := hv.operations
    obtain ⟨metadata, hm, hms⟩ := hv.metadata
    obtain ⟨gs, -, rfl, hgnames, hgvalues⟩ :=
      mapEntries?_noted (entry?_noted hvalues ho) hgroups
    obtain ⟨ns, -, rfl, -, hmvalues⟩ := mapEntries?_noted (entry?_noted hvalues hm) hms
    obtain ⟨q, hq, hload, hdescribed, hfilters, hmeta⟩ :=
      ofMap_checked hc hv (distinct_named hgnames)
    cases hq.symm.trans hr
    have hfields : ∀ g ∈ p.groups, ∀ f ∈ g.fields, f.1.value = .text f.1.text ∧ Noted f.2 := by
      intro g hg f hf
      obtain ⟨e, he, -, fields, hfields, hreads⟩ := exists_right hdescribed.flip g hg
      obtain ⟨-, k, hk, hvalue⟩ := named_entries he
      obtain ⟨ks, -, rfl, -, hkvalues⟩ := mapEntries?_noted (hvalue ▸ hgvalues k hk) hfields
      obtain ⟨d, hd, hlabel, hsame⟩ := exists_right hreads.flip f hf
      obtain ⟨⟨t, ht⟩, c, hcm, hcv⟩ := named_entries hd
      rw [ht] at hlabel
      exact ⟨label_noted (.text t) hlabel, hsame ▸ hcv ▸ hkvalues c hcm⟩
    refine ⟨hload.tidy, hload.paths, ?_, fun g hg f hf => (hfields g hg f hf).1, ?_, ?_⟩
    · intro e he
      obtain ⟨g, hg, he⟩ := List.mem_flatMap.mp he
      obtain ⟨f, hf, rfl⟩ := List.mem_map.mp he
      exact (hfields g hg f hf).2
    · intro l hl
      rw [hmeta] at hl
      obtain ⟨x, hx, hmark⟩ := List.mem_map.mp hl
      exact label_noted (items_noted hmvalues x hx) (label_of_markOf hmark)
    · intro f hf
      have hnoted := items_noted hvalues f (hfilters ▸ hf)
      obtain ⟨fs, hfs⟩ := Option.isSome_iff_exists.mp (hload.filters f hf)
      obtain ⟨es, hes, -, hd, he⟩ := mapEntries?_noted hnoted hfs
      exact ⟨es, hes, hd, he⟩

end Loading

/-! ### A whole report -/

/-- The marks that a report goes through can be keys where the changed fields can be. -/
theorem requireKey_orderedPaths (hp : FromText p)
    (hkeys : ∀ m ∈ p.metadata.fieldsChanged, h.hashable m.value = true) :
    ∀ m ∈ orderedPaths p, h.requireKey m.value = .ok () := by
  intro m hm
  rcases List.mem_append.mp hm with hm | hm
  · rw [requireKey, hkeys m hm]
    rfl
  · obtain ⟨g, hg, hm⟩ := List.mem_flatMap.mp hm
    obtain ⟨f, hf, rfl⟩ := List.mem_map.mp hm
    show h.requireKey f.1.value = _
    rw [hp.labels g hg f (List.mem_filter.mp hf).1]
    exact requireKey_text rfl

theorem plain_orderedPaths (hp : FromText p) :
    ∀ l, .label l ∈ orderedPaths p → l.value = .text l.text := by
  intro l hl
  rcases List.mem_append.mp hl with hl | hl
  · exact hp.marks l hl
  · obtain ⟨g, hg, hl⟩ := List.mem_flatMap.mp hl
    obtain ⟨f, hf, he⟩ := List.mem_map.mp hl
    cases he
    exact hp.labels g hg f (List.mem_filter.mp hf).1

/-- **A report shows each operation once.** For any text that is read as a patch, and where the
changed fields can be keys and the pushes that are shown list their items, the report comes to its
end. It writes what is `shown` and the filters, and nothing is shown twice: the operations of the
changed fields in their order, and those at paths that the metadata knows no operator for. These are
all operations where each path with an operator in the metadata is among the changed fields. -/
theorem writePatch_shows (h : Heap) (s : String) (p : Patch) (hr : readPatch h s = .ok p)
    (hkeys : ∀ m ∈ p.metadata.fieldsChanged, h.hashable m.value = true)
    (hlists : ∀ e ∈ shown p, e.1 = .push → Answers (h.iterate (pushedItems h e.2.2)))
    (palette : Palette) (header : Option Header) :
    (∃ t, (writePatch h (.ok palette) p header).run "" = (.ok (), t)) ∧
    (p.isEmpty = false → writePatch h (.ok palette) p header = do
      if let some header := header then writeHeader header
      (shown p).forM fun e => writeOperation h (.ok palette) e.1.text (.text e.2.1) e.2.2
      p.filters.forM (writeFilter h (.ok palette))) ∧
    (shown p).Nodup ∧
    (∀ e, e ∈ shown p ↔
      e ∈ p.entries ∧ (p.changed e.2.1 = true ∨ p.metadata.hasType e.2.1 = false)) ∧
    ((∀ path ∈ p.paths, p.metadata.hasType path = true → p.changed path = true) →
      (shown p).Perm p.entries) := by
  have hp := fromText_of_read hr
  have hwrites : writeEntries h (.ok palette) p [] (orderedPaths p) =
      (shown p).forM (writeEntry h (.ok palette)) := by
    rw [← pending_orderedPaths hp.paths]
    exact writeEntries_eq hp.tidy (.ok palette) (requireKey_orderedPaths hp hkeys)
      (plain_orderedPaths hp) fun e _ => by simp
  have hwhole : p.isEmpty = false → writePatch h (.ok palette) p header = (do
      if let some header := header then writeHeader header
      (shown p).forM (writeEntry h (.ok palette))
      p.filters.forM (writeFilter h (.ok palette))) := by
    intro he
    rw [writePatch, he, ← hwrites]
    rfl
  have hentries : Done ((shown p).forM (writeEntry h (.ok palette))) := done_forM fun e he =>
    done_writeOperation palette e.1 _ (hp.values e (mem_shown.mp he).1) (hlists e he)
  have hfilters : Done (p.filters.forM (writeFilter h (.ok palette))) := done_forM fun f hf => by
    obtain ⟨es, rfl, hd, he⟩ := hp.filters f hf
    exact done_writeFilter palette he hd
  refine ⟨?_, hwhole, nodup_shown hp.tidy, fun e => mem_shown, shown_perm hp.tidy⟩
  cases he : p.isEmpty with
  | true =>
    rw [writePatch, he]
    exact ⟨"", rfl⟩
  | false =>
    rw [hwhole he]
    cases header with
    | none => exact done_bind hentries hfilters ""
    | some header => exact done_bind (done_write _) (done_bind hentries hfilters) ""

/-- A patch that lists one of its three paths as changed, and knows no operator for the others. -/
def orderText : String :=
  "\x7b\"operations\": \x7b\"$set\": \x7b\"total\": 7, \"note\": \x7b\"by\": \"ann\"\x7d\x7d, " ++
  "\"$push\": \x7b\"lines\": \x7b\"$each\": [1, 2]\x7d\x7d\x7d, " ++
  "\"arrayFilters\": [\x7b\"e.id\": 3\x7d], " ++
  "\"metadata\": \x7b\"fieldsChanged\": [\"note\"], " ++
  "\"operationTypes\": \x7b\"note\": \"$set\"\x7d, \"totalChanges\": 3\x7d\x7d"

theorem writePatch_shows_order : ∃ p, readPatch .empty orderText = .ok p ∧
    (∀ m ∈ p.metadata.fieldsChanged, Heap.empty.hashable m.value = true) ∧
    (∀ e ∈ shown p, e.1 = .push → Answers (Heap.empty.iterate (pushedItems .empty e.2.2))) ∧
    (shown p).map (fun e => e.2.1) = ["note", "total", "lines"] ∧ (shown p).Perm p.entries ∧
    ∃ t, (writePatch .empty (.ok .plain) p none).run "" = (.ok (), t) := by
  have hfacts : (readPatch .empty orderText).toOption.any (fun p =>
      (p.metadata.fieldsChanged.all fun m => Heap.empty.hashable m.value) &&
      ((shown p).all fun e => (Heap.empty.iterate (pushedItems .empty e.2.2)).toOption.isSome ||
        e.1 != .push) &&
      (shown p).map (fun e => e.2.1) == ["note", "total", "lines"] &&
      p.paths.all fun path => !p.metadata.hasType path || p.changed path) = true := by
    decide +kernel
  obtain ⟨p, hp, hfacts⟩ := ok_of_any hfacts
  simp only [Bool.and_eq_true, List.all_eq_true, Bool.or_eq_true, Bool.not_eq_true',
    bne_iff_ne, beq_iff_eq] at hfacts
  obtain ⟨⟨⟨hkeys, hitems⟩, hpaths⟩, hknown⟩ := hfacts
  have hlists : ∀ e ∈ shown p, e.1 = .push →
      Answers (Heap.empty.iterate (pushedItems .empty e.2.2)) := by
    intro e he hpush
    obtain ⟨xs, hxs⟩ := Option.isSome_iff_exists.mp ((hitems e he).resolve_right (· hpush))
    exact ⟨xs, ok_of_toOption hxs⟩
  obtain ⟨hdone, -, -, -, hall⟩ :=
    writePatch_shows .empty orderText p hp hkeys hlists .plain none
  refine ⟨p, hp, hkeys, hlists, hpaths, hall fun path hm ht => ?_, hdone⟩
  exact (hknown path hm).resolve_left (by simp [ht])

/-- A patch with an operator for its one path, which is not listed as changed. -/
def receiptText : String :=
  "\x7b\"operations\": \x7b\"$set\": \x7b\"a\": 1\x7d\x7d, " ++
  "\"metadata\": \x7b\"fieldsChanged\": [], \"operationTypes\": \x7b\"a\": \"$set\"\x7d, " ++
  "\"totalChanges\": 1\x7d\x7d"

/-- **An operation may be left out**: one at a path with an operator in the metadata that is not
among the changed fields. -/
theorem writePatch_omits : ∃ p, readPatch .empty receiptText = .ok p ∧ p.paths = ["a"] ∧
    text (writePatch .empty (.ok .plain) p none) = .ok "" := by
  have hfacts : (readPatch .empty receiptText).toOption.any (fun p => p.paths == ["a"] &&
      (text (writePatch .empty (.ok .plain) p none)).toOption == some "") = true := by
    decide +kernel
  obtain ⟨p, hp, hfacts⟩ := ok_of_any hfacts
  simp only [Bool.and_eq_true, beq_iff_eq] at hfacts
  exact ⟨p, hp, hfacts.1, ok_of_toOption hfacts.2⟩

end Report
end DocDelta
