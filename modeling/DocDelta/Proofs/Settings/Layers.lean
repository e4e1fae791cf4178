import DocDelta.Proofs.Document.Matched
import DocDelta.Proofs.Json.Read
import DocDelta.Settings

/-! Which value an option of a command has.

Settings are laid over each other twice: the files, in rising priority, and then the sections that a
command inherits from, from the most general to its own, each over its built-in options. A nothing
in a file only takes back what files of lower priority say, so what counts of an option in a section
is the first file, by falling priority, that says something of it; and of the sections the most
derived one that has the option, in the files or built in, decides (`options_layered`).

Laying one entry is a step on the names of a map, `overlay` is what it does to a single name, and
laying a map, all files and all sections is each the run of such steps. -/
namespace DocDelta

/-! ### Named entries -/

section Named
variable {s t : String} {v : Value} {es : List (String × Value)}

theorem lookup_entry (s t : String) (v : Value) (es : List (String × Value)) :
    ((s, v) :: es).lookup t = if s = t then some v else es.lookup t := by
  rw [List.lookup_cons]
  by_cases hst : s = t
  · rw [if_pos hst, hst, beq_self_eq_true]
  · rw [if_neg hst, beq_eq_false_iff_ne.mpr fun he : t = s => hst he.symm]

theorem lookup_of_notMem (hs : s ∉ es.map (·.1)) : es.lookup s = none :=
  List.lookup_eq_none_iff.mpr fun _ he => bne_iff_ne.mpr fun hname =>
    hs (List.mem_map.mpr ⟨_, he, hname.symm⟩)

theorem mem_of_lookup (hs : es.lookup s = some v) : (s, v) ∈ es := by
  obtain ⟨before, after, rfl, -⟩ := List.lookup_eq_some_iff.mp hs
  exact List.mem_append_cons_self

theorem lookup_putNamed (s t : String) (v : Value) (es : List (String × Value)) :
    (putNamed s v es).lookup t = if s = t then some v else es.lookup t := by
  induction es with
  | nil => exact lookup_entry s t v []
  | cons e es ih =>
    obtain ⟨n, w⟩ := e
    rw [putNamed]
    by_cases hn : n = s
    · subst hn
      rw [if_pos rfl, lookup_entry, lookup_entry]
      split <;> rfl
    · rw [if_neg hn, lookup_entry, lookup_entry, ih]
      by_cases hnt : n = t
      · rw [if_pos hnt, if_neg fun hst : s = t => hn (hnt.trans hst.symm), if_pos hnt]
      · rw [if_neg hnt, if_neg hnt]

/-- The entries without the one of a name. -/
def dropNamed (s : String) (es : List (String × Value)) : List (String × Value) :=
  es.eraseP fun e => e.1 == s

theorem dropNamed_entry (s t : String) (v : Value) (es : List (String × Value)) :
    dropNamed t ((s, v) :: es) = if s = t then es else (s, v) :: dropNamed t es := by
  rw [dropNamed, List.eraseP_cons, cond_eq_ite]
  simp only [beq_iff_eq]
  rfl

theorem nodup_dropNamed (s : String) (hd : (es.map (·.1)).Nodup) :
    ((dropNamed s es).map (·.1)).Nodup :=
  hd.sublist ((List.eraseP_sublist ..).map _)

theorem mem_dropNamed {e : String × Value} (he : e ∈ dropNamed s es) : e ∈ es :=
  List.mem_of_mem_eraseP he

theorem lookup_dropNamed (hd : (es.map (·.1)).Nodup) (s t : String) :
    (dropNamed s es).lookup t = if s = t then none else es.lookup t := by
  induction es with
  | nil => split <;> rfl
  | cons e es ih =>
    obtain ⟨n, w⟩ := e
    obtain ⟨hn, hd⟩ := List.nodup_cons.mp hd
    rw [dropNamed_entry, lookup_entry]
    by_cases hns : n = s
    · subst hns
      rw [if_pos rfl]
      by_cases hnt : n = t
      · rw [if_pos hnt, ← hnt, lookup_of_notMem hn]
      · rw [if_neg hnt, if_neg hnt]
    · rw [if_neg hns, lookup_entry]
      by_cases hnt : n = t
      · rw [if_pos hnt, if_neg fun hst : s = t => hns (hnt.trans hst.symm), if_pos hnt]
      · rw [if_neg hnt, if_neg hnt]
        exact ih hd

end Named

namespace Heap
variable {h : Heap} {es : List (String × Value)}

theorem entry?_named (s : String) (es : List (String × Value)) :
    h.entry? s (namedEntries es) = es.lookup s := by
  induction es with
  | nil => rfl
  | cons e es ih =>
    rw [namedEntries, List.map_cons, entry?_cons, lookup_entry]
    simp only [isText_text]
    rw [← namedEntries, ih]

theorem namedEntries_injective : Function.Injective namedEntries := by
  refine List.map_injective_iff.mpr fun d e he => ?_
  obtain ⟨hname, hvalue⟩ := Prod.mk.inj he
  exact Prod.ext (Object.text.inj (Value.inline.inj hname)).2 hvalue

theorem matching_named (s t : String) : h.matching (.text s) (.text t) = .ok (s == t) := by
  rw [matching_text (s := t) rfl]
  rfl

theorem putEntry_named (s : String) (v : Value) (es : List (String × Value)) :
    h.putEntry (.text s) v (namedEntries es) = .ok (namedEntries (putNamed s v es)) := by
  induction es with
  | nil => rfl
  | cons e es ih =>
    obtain ⟨n, w⟩ := e
    rw [namedEntries, List.map_cons, putEntry, matching_named, putNamed]
    refine bind_eq_ok.mpr ⟨_, rfl, ?_⟩
    by_cases hn : n = s
    · rw [if_pos hn, if_pos (beq_iff_eq.mpr hn)]
      rfl
    · rw [if_neg hn, if_neg fun he => hn (eq_of_beq he)]
      exact bind_eq_ok.mpr ⟨_, ih, rfl⟩

end Heap

namespace Settings
open Heap
variable {h : Heap} {es os us disk file : List (String × Value)} {s t c x : String} {v : Value}
  {n : Nat}

theorem dropEntry_named (s : String) (es : List (String × Value)) :
    dropEntry h (.text s) (namedEntries es) = .ok (namedEntries (dropNamed s es)) := by
  induction es with
  | nil => rfl
  | cons e es ih =>
    obtain ⟨n, w⟩ := e
    rw [namedEntries, List.map_cons, dropEntry, matching_named, dropNamed_entry]
    refine bind_eq_ok.mpr ⟨_, rfl, ?_⟩
    by_cases hn : n = s
    · rw [if_pos (beq_iff_eq.mpr hn), if_pos hn]
      rfl
    · rw [if_neg fun he => hn (eq_of_beq he), if_neg hn]
      exact bind_eq_ok.mpr ⟨_, ih, rfl⟩

theorem assign_table (s : String) (v : Value) (es : List (String × Value)) :
    assign h (.table es) (.text s) v = .ok (.table (putNamed s v es)) :=
  bind_eq_ok.mpr ⟨_, putEntry_named s v es, rfl⟩

theorem remove_table (s : String) (es : List (String × Value)) :
    remove h (.table es) (.text s) = .ok (.table (dropNamed s es)) :=
  bind_eq_ok.mpr ⟨_, dropEntry_named s es, rfl⟩

theorem discard_table (s : String) (es : List (String × Value)) :
    discard h (.table es) (.text s) = .ok (.table (dropNamed s es)) := remove_table s es

/-! ### Options -/

/-- What is said last of a name counts, and a nothing takes back what was said before. -/
def overlay (h : Heap) (lower : Option Value) : Option Value → Option Value
  | none => lower
  | some v => if (h.view v).isNil then none else some v

theorem overlay_some (lower : Option Value) (v : Value) :
    overlay h lower (some v) = if (h.view v).isNil then none else some v := rfl

/-- Lays an option over others. -/
def layOption (h : Heap) (es : List (String × Value)) (e : String × Value) :
    List (String × Value) :=
  if (h.view e.2).isNil then dropNamed e.1 es else putNamed e.1 e.2 es

/-- Options of different names, none of which is a map. -/
structure Flat (h : Heap) (es : List (String × Value)) : Prop where
  distinct : (es.map (·.1)).Nodup
  flat : ∀ e ∈ es, h.mapEntries? e.2 = none

/-- Options that have values: none is nothing. -/
structure Settled (h : Heap) (es : List (String × Value)) : Prop extends Flat h es where
  given : ∀ e ∈ es, (h.view e.2).isNil = false

theorem settled_nil : Settled h [] := ⟨⟨List.nodup_nil, nofun⟩, nofun⟩

theorem Settled.layOption (hes : Settled h es) {e : String × Value}
    (he : h.mapEntries? e.2 = none) : Settled h (layOption h es e) := by
  unfold Settings.layOption
  split
  · exact ⟨⟨nodup_dropNamed e.1 hes.distinct, fun d hd => hes.flat d (mem_dropNamed hd)⟩,
      fun d hd => hes.given d (mem_dropNamed hd)⟩
  · rename_i hn
    refine ⟨⟨nodup_putNamed e.1 e.2 hes.distinct, fun d hd => ?_⟩, fun d hd => ?_⟩
    · rcases mem_putNamed hd with rfl | hd
      · exact he
      · exact hes.flat d hd
    · rcases mem_putNamed hd with rfl | hd
      · exact Bool.eq_false_iff.mpr hn
      · exact hes.given d hd

theorem lookup_layOption (hd : (es.map (·.1)).Nodup) (e : String × Value) (t : String) :
    (layOption h es e).lookup t =
      if e.1 = t then overlay h (es.lookup t) (some e.2) else es.lookup t := by
  rw [layOption, overlay_some]
  by_cases hn : (h.view e.2).isNil = true
  · rw [if_pos hn, lookup_dropNamed hd, if_pos hn]
  · rw [if_neg hn, lookup_putNamed, if_neg hn]

theorem layEntry_option {cover : Value → Value → Except Fault Value} (e : String × Value)
    (he : h.mapEntries? e.2 = none) :
    layEntry h false cover (.table es) (.text e.1) e.2 = .ok (.table (layOption h es e)) := by
  rw [layEntry, layOption, he, if_neg (by simp)]
  by_cases hn : (h.view e.2).isNil = true
  · rw [if_pos hn, if_pos (by simpa using hn), discard_table]
  · rw [if_neg hn, if_neg (by simpa using hn), assign_table]

theorem layWithin_table (n : Nat) (es us : List (String × Value)) :
    layWithin h false (n + 1) (.table es) (.table us) =
      us.foldlM (fun t e => layEntry h false (layWithin h false n) t (.text e.1) e.2)
        (.table es) := by
  have hentries : h.entries? (h.view (.table us)) = some (namedEntries us) := entries?_of_map
  rw [layWithin, hentries]
  exact List.foldlM_map ..

/-- Laying options over others takes one step for each of them. -/
theorem layWithin_options (hf : ∀ e ∈ us, h.mapEntries? e.2 = none) :
    layWithin h false (n + 1) (.table es) (.table us) =
      .ok (.table (us.foldl (layOption h) es)) := by
  rw [layWithin_table]
  induction us generalizing es with
  | nil => rfl
  | cons u us ih =>
    rw [List.foldlM_cons, layEntry_option u (hf u (List.mem_cons_self ..))]
    exact ih fun e he => hf e (List.mem_cons_of_mem u he)

theorem Settled.foldl (hes : Settled h es) (hf : ∀ e ∈ us, h.mapEntries? e.2 = none) :
    Settled h (us.foldl (Settings.layOption h) es) := by
  induction us generalizing es with
  | nil => exact hes
  | cons u us ih =>
    exact ih (hes.layOption (hf u (List.mem_cons_self ..))) fun e he =>
      hf e (List.mem_cons_of_mem u he)

/-- An option has the value that is laid over it, if one is. -/
theorem lookup_foldl (hes : Settled h es) (hus : Flat h us) (t : String) :
    (us.foldl (layOption h) es).lookup t = overlay h (es.lookup t) (us.lookup t) := by
  induction us generalizing es with
  | nil => rfl
  | cons u us ih =>
    obtain ⟨n, w⟩ := u
    obtain ⟨hn, hd⟩ := List.nodup_cons.mp hus.distinct
    have hrest : Flat h us := ⟨hd, fun e he => hus.flat e (List.mem_cons_of_mem _ he)⟩
    rw [List.foldl_cons, ih (hes.layOption (hus.flat _ (List.mem_cons_self ..))) hrest,
      lookup_layOption hes.distinct, lookup_entry]
    by_cases hnt : n = t
    · have hnone : us.lookup t = none := lookup_of_notMem (hnt ▸ hn)
      rw [if_pos hnt, if_pos hnt, hnone, overlay_some]
      rfl
    · rw [if_neg hnt, if_neg hnt]

/-! ### Sections -/

/-- What a section says of an option: a section that is nothing says so of every option. -/
def said? (h : Heap) (section_ : Value) (x : String) : Option Value :=
  match h.mapEntries? section_ with
  | some os => h.entry? x os
  | none => some .nil

/-- What a file says of an option of a section. -/
def mention? (h : Heap) (file : List (String × Value)) (c x : String) : Option Value :=
  (file.lookup c).bind fun v => said? h v x

/-- A section of a file: nothing, or options that are no maps. -/
inductive IsSection (h : Heap) : Value → Prop
  | nothing : IsSection h .nil
  | options {os : List (String × Value)} (ho : Flat h os) : IsSection h (.table os)

/-- Sections of different names. -/
structure Sectioned (h : Heap) (file : List (String × Value)) : Prop where
  distinct : (file.map (·.1)).Nodup
  sections : ∀ e ∈ file, IsSection h e.2

/-- What is left of the files: sections of different names with options that have values. -/
structure Gathered (h : Heap) (disk : List (String × Value)) : Prop where
  distinct : (disk.map (·.1)).Nodup
  settled : ∀ e ∈ disk, ∃ os, e.2 = .table os ∧ Settled h os

theorem said?_table (os : List (String × Value)) (x : String) :
    said? h (.table os) x = os.lookup x := entry?_named x os

theorem mention?_eq_none (hc : c ∉ file.map (·.1)) (x : String) : mention? h file c x = none := by
  rw [mention?, lookup_of_notMem hc]
  rfl

/-- Below the name of a section are its options, or none. -/
theorem below_table (hd : Gathered h disk) (c : String) :
    ∃ os, below h (.table disk) (.text c) = .ok (.table disk, .table os) ∧ Settled h os ∧
      ∀ x, mention? h disk c x = os.lookup x := by
  have hbelow : below h (.table disk) (.text c) =
      .ok (.table disk, (disk.lookup c).getD (.table [])) := by
    show (h.find? (.text c) (namedEntries disk) >>= fun found => _) = _
    rw [find?_of_text (s := c) rfl, entry?_named]
    rfl
  rw [hbelow]
  cases hc : disk.lookup c with
  | none =>
    refine ⟨[], rfl, settled_nil, fun x => ?_⟩
    rw [mention?, hc]
    rfl
  | some v =>
    obtain ⟨os, rfl, hos⟩ := hd.settled _ (mem_of_lookup hc)
    refine ⟨os, rfl, hos, fun x => ?_⟩
    rw [mention?, hc]
    exact said?_table os x

theorem Gathered.drop (hd : Gathered h disk) (c : String) : Gathered h (dropNamed c disk) :=
  ⟨nodup_dropNamed c hd.distinct, fun e he => hd.settled e (mem_dropNamed he)⟩

theorem Gathered.put (hd : Gathered h disk) (c : String) (hos : Settled h os) :
    Gathered h (putNamed c (.table os) disk) := by
  refine ⟨nodup_putNamed c _ hd.distinct, fun e he => ?_⟩
  rcases mem_putNamed he with rfl | he
  · exact ⟨os, rfl, hos⟩
  · exact hd.settled e he

theorem mention?_drop (hd : Gathered h disk) (s c x : String) :
    mention? h (dropNamed s disk) c x = if s = c then none else mention? h disk c x := by
  rw [mention?, lookup_dropNamed hd.distinct]
  split <;> rfl

theorem mention?_put (s c x : String) (os disk : List (String × Value)) :
    mention? h (putNamed s (.table os) disk) c x =
      if s = c then os.lookup x else mention? h disk c x := by
  rw [mention?, lookup_putNamed]
  split
  · exact said?_table os x
  · rfl

theorem truthy_table (os : List (String × Value)) : h.truthy (.table os) = !os.isEmpty := by
  cases os <;> rfl

/-- Laying options over those of a section puts them in its place, or removes it if none is left. -/
theorem layEntry_options {os : List (String × Value)}
    (hbelow : below h (.table disk) (.text s) = .ok (.table disk, .table os))
    (hf : ∀ e ∈ us, h.mapEntries? e.2 = none) :
    layEntry h false (layWithin h false (n + 1)) (.table disk) (.text s) (.table us) =
      if (us.foldl (layOption h) os).isEmpty then .ok (.table (dropNamed s disk))
      else .ok (.table (putNamed s (.table (us.foldl (layOption h) os)) disk)) := by
  have hmap : (h.mapEntries? (.table us)).isSome = true := rfl
  rw [layEntry, if_pos hmap, hbelow]
  show (layWithin h false (n + 1) (.table os) (.table us) >>= fun merged =>
    if (!false && !h.truthy merged) = true then remove h (.table disk) (.text s)
    else assign h (.table disk) (.text s) merged) = _
  rw [layWithin_options hf]
  show (if (!false && !h.truthy _) = true then _ else _) = _
  rw [truthy_table, Bool.not_false, Bool.true_and, Bool.not_not, remove_table, assign_table]

/-- Laying one section over others changes what is said of the options of that section. -/
theorem layEntry_section (hd : Gathered h disk) (s : String) (hv : IsSection h v) :
    ∃ disk', layEntry h false (layWithin h false (n + 1)) (.table disk) (.text s) v =
        .ok (.table disk') ∧ Gathered h disk' ∧
      ∀ c x, mention? h disk' c x =
        if s = c then overlay h (mention? h disk c x) (said? h v x) else mention? h disk c x := by
  cases hv with
  | nothing =>
    refine ⟨dropNamed s disk, discard_table s disk, hd.drop s, fun c x => ?_⟩
    rw [mention?_drop hd]
    rfl
  | @options us hus =>
    obtain ⟨os, hbelow, hos, hsaid⟩ := below_table hd s
    have hlookup := lookup_foldl hos hus
    rw [layEntry_options hbelow hus.flat]
    split
    · rename_i hempty
      refine ⟨_, rfl, hd.drop s, fun c x => ?_⟩
      rw [mention?_drop hd]
      by_cases hsc : s = c
      · subst hsc
        rw [if_pos rfl, if_pos rfl, hsaid, said?_table, ← hlookup, List.isEmpty_iff.mp hempty]
        rfl
      · rw [if_neg hsc, if_neg hsc]
    · refine ⟨_, rfl, hd.put s (hos.foldl hus.flat), fun c x => ?_⟩
      rw [mention?_put]
      by_cases hsc : s = c
      · subst hsc
        rw [if_pos rfl, if_pos rfl, hsaid, said?_table, ← hlookup]
      · rw [if_neg hsc, if_neg hsc]

theorem mention?_entry (s c x : String) (v : Value) (file : List (String × Value)) :
    mention? h ((s, v) :: file) c x = if s = c then said? h v x else mention? h file c x := by
  rw [mention?, lookup_entry]
  split <;> rfl

/-! ### Files -/

/-- Laying a file over others. -/
theorem lay_file (hd : Gathered h disk) (hf : Sectioned h file) :
    ∃ disk', lay h false (.table disk) (.table file) = .ok (.table disk') ∧ Gathered h disk' ∧
      ∀ c x, mention? h disk' c x = overlay h (mention? h disk c x) (mention? h file c x) := by
  have hbound : ∃ n, h.layerBound (.table file) = n + 2 :=
    ⟨h.cells.size + Value.depth (.table file), by simp only [layerBound, size]; omega⟩
  obtain ⟨n, hn⟩ := hbound
  rw [lay, hn, layWithin_table]
  clear hn
  induction file generalizing disk with
  | nil => exact ⟨disk, rfl, hd, fun _ _ => rfl⟩
  | cons e file ih =>
    obtain ⟨s, v⟩ := e
    obtain ⟨hs, hdistinct⟩ := List.nodup_cons.mp hf.distinct
    obtain ⟨disk₁, hlay, hd₁, hsaid₁⟩ :=
      layEntry_section (n := n) hd s (hf.sections _ (List.mem_cons_self ..))
    obtain ⟨disk₂, hrest, hd₂, hsaid₂⟩ :=
      ih hd₁ ⟨hdistinct, fun e he => hf.sections e (List.mem_cons_of_mem _ he)⟩
    refine ⟨disk₂, ?_, hd₂, fun c x => ?_⟩
    · rw [List.foldlM_cons, hlay]
      exact hrest
    · rw [hsaid₂, hsaid₁, mention?_entry]
      by_cases hsc : s = c
      · have hnone : mention? h file c x = none := mention?_eq_none (hsc ▸ hs) x
        rw [if_pos hsc, if_pos hsc, hnone]
        rfl
      · rw [if_neg hsc, if_neg hsc]

/-- The text of a settings file, and the document it stands for: a map of sections. A format version
beside them has to be 1. -/
structure Says (h : Heap) (text : String) (file : List (String × Value)) : Prop where
  read : Json.readDocument .whole text = .ok (.table file)
  version : ∀ v, file.lookup "version" = some v → h.same v (.int 1) = .ok true
  sections : ∀ e ∈ file, e.1 ≠ "version" → IsSection h e.2

/-- What the files say that gives an option of a section a value: of the files, by falling priority,
the first that says something of it decides. -/
def given? (h : Heap) (files : List (List (String × Value))) (c x : String) : Option Value :=
  (files.findSome? fun file => mention? h file c x).filter fun v => !(h.view v).isNil

/-- The value of an option: of the sections, from the most derived to the most general one, the
first that has the option decides, by what the files give or else by what is built in. -/
def chosen? (h : Heap) (files : List (List (String × Value))) (sections : List Section)
    (x : String) : Option Value :=
  sections.findSome? fun s => (given? h files s.name x).or (s.options.lookup x)

theorem overlay_given? (files : List (List (String × Value))) (file : List (String × Value))
    (c x : String) : overlay h (given? h files c x) (mention? h file c x) =
      given? h (file :: files) c x := by
  rw [given?, given?, List.findSome?_cons]
  cases mention? h file c x with
  | none => rfl
  | some v =>
    rw [overlay_some, Option.filter_some]
    cases (h.view v).isNil <;> rfl

theorem distinct_of_read {text : String}
    (hr : Json.readDocument .whole text = .ok (.table file)) : (file.map (·.1)).Nodup := by
  have hread : Json.read .whole text = .ok (.table file) := by
    unfold Json.readDocument at hr
    cases hread : Json.read .whole text with
    | error e =>
      rw [hread] at hr
      cases hr
    | ok v =>
      rw [hread] at hr
      exact congrArg _ (Except.ok.inj hr)
  have hnoted := Json.noted_read hread
  generalize hv : Value.table file = v at hnoted
  cases hnoted with
  | @table es hd =>
    have hentries : namedEntries file = namedEntries es := (Object.map.inj (Value.inline.inj hv)).2
    rwa [namedEntries_injective hentries]
  | _ => cases hv

theorem lookup_filter (hc : c ≠ s) (es : List (String × Value)) :
    (es.filter fun e => e.1 != s).lookup c = es.lookup c := by
  induction es with
  | nil => rfl
  | cons e es ih =>
    obtain ⟨n, w⟩ := e
    rw [List.filter_cons, lookup_entry]
    split
    · rw [lookup_entry, ih]
    · rename_i hn
      have hns : n = s := by simpa using hn
      rw [ih, if_neg fun hnc => hc (hnc.symm.trans hns)]

theorem filter_named (s : String) (es : List (String × Value)) :
    (namedEntries es).filter (fun e => !h.isText s e.1) =
      namedEntries (es.filter fun e => e.1 != s) := by
  rw [namedEntries, List.filter_map]
  rfl

/-- A settings file gives its sections. -/
theorem sectionsOf_file {text : String} (hs : Says h text file) :
    sectionsOf h (.table file) = .ok (namedEntries (file.filter fun e => e.1 != "version")) := by
  show (match h.entry? "version" (namedEntries file) with
    | none => _
    | some version => _) = _
  rw [entry?_named]
  cases hv : file.lookup "version" with
  | none =>
    have hself : (file.filter fun e => e.1 != "version") = file :=
      List.filter_eq_self.mpr fun e he => by
        rw [bne_comm]
        exact List.lookup_eq_none_iff.mp hv e he
    rw [hself]
    rfl
  | some version =>
    refine bind_eq_ok.mpr ⟨true, hs.version version hv, ?_⟩
    exact congrArg Except.ok (filter_named "version" file)

/-- Reading a settings file gives its sections. -/
theorem read_file {text : String} (hs : Says h text file) :
    ∃ kept, read h text = .ok (.table kept) ∧ Sectioned h kept ∧
      ∀ c x, c ≠ "version" → mention? h kept c x = mention? h file c x := by
  refine ⟨file.filter fun e => e.1 != "version", ?_, ⟨?_, fun e he => ?_⟩, fun c x hc => ?_⟩
  · rw [read, hs.read]
    show (sectionsOf h (.table file) >>= fun es => .ok (Value.map es)) = _
    rw [sectionsOf_file hs]
    rfl
  · exact (distinct_of_read hs.read).sublist (List.filter_sublist.map _)
  · obtain ⟨he, hn⟩ := List.mem_filter.mp he
    exact hs.sections e he (by simpa using hn)
  · rw [mention?, lookup_filter hc, mention?]

/-- The files, laid over each other, give options what the first of them says that says something.
-/
theorem readAll_files {texts : List String} {files : List (List (String × Value))}
    (hs : List.Forall₂ (Says h) texts files) :
    ∃ disk, readAll h false (texts.map Except.ok).reverse = .ok (.table disk) ∧ Gathered h disk ∧
      ∀ c x, c ≠ "version" → mention? h disk c x = given? h files c x := by
  induction hs with
  | nil => exact ⟨[], rfl, ⟨List.nodup_nil, nofun⟩, fun _ _ _ => rfl⟩
  | @cons text file texts files hfile _ ih =>
    obtain ⟨disk, hdisk, hd, hgiven⟩ := ih
    obtain ⟨kept, hread, hsections, hsaid⟩ := read_file hfile
    obtain ⟨disk', hlay, hd', hover⟩ := lay_file hd hsections
    refine ⟨disk', ?_, hd', fun c x hc => ?_⟩
    · rw [readAll] at hdisk ⊢
      rw [List.map_cons, List.reverse_cons, List.foldlM_append, hdisk]
      show ((read h text >>= fun file => lay h false (.table disk) file) >>= pure) = _
      rw [hread]
      exact bind_eq_ok.mpr ⟨_, hlay, rfl⟩
    · rw [hover, hgiven c x hc, hsaid c x hc, overlay_given?]

/-! ### Commands -/

theorem lay_options (hes : Settled h es) (hus : Flat h us) :
    ∃ es', lay h false (.table es) (.table us) = .ok (.table es') ∧ Settled h es' ∧
      ∀ x, es'.lookup x = overlay h (es.lookup x) (us.lookup x) := by
  refine ⟨us.foldl (layOption h) es, ?_, hes.foldl hus.flat, lookup_foldl hes hus⟩
  rw [lay, show h.layerBound (.table us) = h.size + Value.depth (.table us) + 1 from rfl,
    layWithin_options hus.flat]

/-- Options that have values are put in the place of others. -/
theorem overlay_settled (hus : Settled h us) (lower : Option Value) (x : String) :
    overlay h lower (us.lookup x) = (us.lookup x).or lower := by
  cases hx : us.lookup x with
  | none => rfl
  | some v =>
    rw [overlay_some, hus.given _ (mem_of_lookup hx)]
    rfl

/-- A section is laid over the options gathered so far: its built-in options first. -/
theorem laySection_gathered (hes : Settled h es) (hd : Gathered h disk) {s : Section}
    (hs : Settled h s.options) :
    ∃ es', laySection h false (.table disk) (.table es) s = .ok (.table es') ∧ Settled h es' ∧
      ∀ x, es'.lookup x =
        ((mention? h disk s.name x).or (s.options.lookup x)).or (es.lookup x) := by
  obtain ⟨built, hbuilt, hsettled, hlookup⟩ := lay_options hes hs.toFlat
  have hlay : laySection h false (.table disk) (.table es) s =
      match disk.lookup s.name with
      | none => .ok (.table built)
      | some given => lay h false (.table built) given := by
    rw [laySection, hbuilt, ← entry?_named (h := h)]
    rfl
  rw [hlay]
  cases hgiven : disk.lookup s.name with
  | none =>
    refine ⟨built, rfl, hsettled, fun x => ?_⟩
    rw [hlookup, overlay_settled hs, mention?, hgiven]
    rfl
  | some v =>
    obtain ⟨os, rfl, hos⟩ := hd.settled _ (mem_of_lookup hgiven)
    obtain ⟨es', hes', hsettled', hlookup'⟩ := lay_options hsettled hos.toFlat
    refine ⟨es', hes', hsettled', fun x => ?_⟩
    rw [hlookup', overlay_settled hos, hlookup, overlay_settled hs, mention?, hgiven,
      ← Option.or_assoc, Option.bind_some, said?_table]

/-- The sections of a command are laid over each other. -/
theorem sections_gathered (hes : Settled h es) (hd : Gathered h disk) {sections : List Section}
    (hs : ∀ s ∈ sections, Settled h s.options) :
    ∃ es', sections.foldlM (laySection h false (.table disk)) (.table es) = .ok (.table es') ∧
      Settled h es' ∧ ∀ x, es'.lookup x =
        (sections.reverse.findSome? fun s => (mention? h disk s.name x).or (s.options.lookup x)).or
          (es.lookup x) := by
  induction sections generalizing es with
  | nil => exact ⟨es, rfl, hes, fun _ => rfl⟩
  | cons s sections ih =>
    obtain ⟨es₁, hlay, hes₁, hlookup₁⟩ := laySection_gathered hes hd (hs s (List.mem_cons_self ..))
    obtain ⟨es₂, hrest, hes₂, hlookup₂⟩ := ih hes₁ fun t ht => hs t (List.mem_cons_of_mem s ht)
    refine ⟨es₂, ?_, hes₂, fun x => ?_⟩
    · rw [List.foldlM_cons, hlay]
      exact hrest
    · rw [hlookup₂, hlookup₁, List.reverse_cons, List.findSome?_append, ← Option.or_assoc]
      congr 2
      rw [List.findSome?_singleton]

theorem Settled.cons (hes : Settled h es) (hs : s ∉ es.map (·.1)) (hf : h.mapEntries? v = none)
    (hn : (h.view v).isNil = false) : Settled h ((s, v) :: es) :=
  ⟨⟨List.nodup_cons.mpr ⟨hs, hes.distinct⟩, List.forall_mem_cons.mpr ⟨hf, hes.flat⟩⟩,
    List.forall_mem_cons.mpr ⟨hn, hes.given⟩⟩

/-- The built-in options are options that have values, and no section has the name of the format
version. -/
theorem settled_sections (e : EntryPoint) :
    ∀ s ∈ e.sections, Settled h s.options ∧ s.name ≠ "version" := by
  have hlogging : Settled h Section.logging.options := settled_nil.cons nofun rfl rfl
  have hprinting : Settled h Section.printing.options := settled_nil.cons nofun rfl rfl
  have hcomparing : Settled h Section.comparing.options :=
    (((settled_nil.cons nofun rfl rfl).cons (by decide) rfl rfl).cons (by decide) rfl rfl).cons
      (by decide) rfl rfl
  simp only [EntryPoint.sections, List.forall_mem_cons]
  refine ⟨⟨settled_nil, by decide⟩, ⟨hlogging, by decide⟩, ⟨hprinting, by decide⟩, ?_, ?_, nofun⟩
  · cases e
    · exact ⟨hcomparing, by decide⟩
    · exact ⟨settled_nil, by decide⟩
  · exact ⟨settled_nil, by cases e <;> decide⟩

theorem findSome?_congr {α β : Type} {f g : α → Option β} {xs : List α} (hf : ∀ a ∈ xs, f a = g a) :
    xs.findSome? f = xs.findSome? g := by
  induction xs with
  | nil => rfl
  | cons a xs ih =>
    rw [List.findSome?_cons, List.findSome?_cons, hf a (List.mem_cons_self ..),
      ih fun b hb => hf b (List.mem_cons_of_mem a hb)]

/-- The options of a command have values, and those that its sections and the files give them. -/
theorem options_settled (e : EntryPoint) {texts : List String}
    {files : List (List (String × Value))} (hs : List.Forall₂ (Says h) texts files) :
    ∃ found, options h false e (texts.map Except.ok).reverse = .ok (.table found) ∧
      Settled h found ∧ ∀ x, found.lookup x = chosen? h files e.sections.reverse x := by
  obtain ⟨disk, hdisk, hd, hgiven⟩ := readAll_files hs
  obtain ⟨found, hfound, hsettled, hlookup⟩ := sections_gathered settled_nil hd fun s hs =>
    (settled_sections e s hs).1
  refine ⟨found, ?_, hsettled, fun x => ?_⟩
  · rw [options, hdisk]
    exact hfound
  · rw [hlookup, List.lookup_nil, Option.or_none, chosen?]
    refine findSome?_congr fun s hs => ?_
    rw [hgiven s.name x (settled_sections (h := h) e s (List.mem_reverse.mp hs)).2]

/-- **An option has the value of the first section that has it.** Let the files, by falling
priority, hold maps of sections, each of which is nothing or maps options to values that are no
maps. Then every command has its options, and of the sections it inherits from, from its own to the
most general one, the first decides on an option that is given a value for it by the files or has it
built in. The files give it the value that the first of them says that says something of it, unless
that is nothing. -/
theorem options_layered (h : Heap) (e : EntryPoint) (texts : List String)
    (files : List (List (String × Value))) (hs : List.Forall₂ (Says h) texts files) :
    ∃ found, options h false e (texts.map Except.ok).reverse = .ok (.table found) ∧
      (found.map (·.1)).Nodup ∧ ∀ x, found.lookup x = chosen? h files e.sections.reverse x := by
  obtain ⟨found, hfound, hsettled, hlookup⟩ := options_settled e hs
  exact ⟨found, hfound, hsettled.distinct, hlookup⟩

/-- A settings file that takes back what others say of two sections. -/
def nearText : String :=
  "\x7b\"version\": 1, \"Global\": null, \"DiffitDiff\": \x7b\"zero_values\": null\x7d\x7d"

def nearFile : List (String × Value) :=
  [("version", .int 1), ("Global", .nil), ("DiffitDiff", .table [("zero_values", .nil)])]

/-- A settings file of lower priority. -/
def farText : String :=
  "\x7b\"Global\": \x7b\"log_level\": \"DEBUG\"\x7d, " ++
  "\"DiffitDiff\": \x7b\"zero_values\": \"unset\"\x7d, \"Diff\": \x7b\"ignore\": [\"id\"]\x7d\x7d"

def farFile : List (String × Value) :=
  [("Global", .table [("log_level", .text "DEBUG")]),
    ("DiffitDiff", .table [("zero_values", .text "unset")]),
    ("Diff", .table [("ignore", .list [.text "id"])])]

theorem says_files : List.Forall₂ (Says .empty) [nearText, farText] [nearFile, farFile] := by
  have hread : ∀ {s : String} {d : Value}, Json.read .whole s = .ok d →
      Json.readDocument .whole s = .ok d := fun hs => by rw [Json.readDocument, hs]; rfl
  refine .cons ⟨hread (Json.read_of_isCopy (h := .empty) ?_ ?_), ?_, ?_⟩
    (.cons ⟨hread (Json.read_of_isCopy (h := .empty) ?_ ?_), ?_, ?_⟩ .nil)
  · decide +kernel
  · decide +kernel
  · rintro v hv
    cases hv
    rfl
  · simp only [nearFile, List.forall_mem_cons]
    exact ⟨nofun, fun _ => .nothing, fun _ => .options ⟨by decide, fun e he => by
      cases List.mem_singleton.mp he; rfl⟩, nofun⟩
  · decide +kernel
  · decide +kernel
  · rintro v hv
    cases hv
  · simp only [farFile, List.forall_mem_cons]
    exact ⟨fun _ => .options (settled_nil.cons nofun rfl rfl).toFlat,
      fun _ => .options (settled_nil.cons nofun rfl rfl).toFlat,
      fun _ => .options (settled_nil.cons nofun rfl rfl).toFlat, nofun⟩

theorem options_layered_files : ∃ found,
    options .empty false .comparing ([nearText, farText].map Except.ok).reverse =
      .ok (.table found) ∧
    found.lookup "log_level" = some (.text "INFO") ∧
    found.lookup "zero_values" = some (.text "set") ∧
    found.lookup "ignore" = some (.list [.text "id"]) ∧ found.lookup "version" = none := by
  obtain ⟨found, hfound, -, hlookup⟩ :=
    options_layered .empty .comparing [nearText, farText] [nearFile, farFile] says_files
  exact ⟨found, hfound, hlookup _, hlookup _, hlookup _, hlookup _⟩

end Settings
end DocDelta
