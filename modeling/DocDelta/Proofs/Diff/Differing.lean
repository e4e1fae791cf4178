import DocDelta.Proofs.Diff.ConflictFree
import DocDelta.Proofs.Diff.Taken
import DocDelta.Proofs.Diff.Unchanged

/-! Nothing is recorded where nothing differs.

`valueAt` follows the names of a path down a value: through the fields of records by their external
names and through the entries of mappings by their keys. Every task is about what is at its place
in the two values, as long as the names there are its own; and it ends in changes only where that
differs. -/
namespace DocDelta
open Heap Patch

namespace Heap
variable (h : Heap)

/-! ### What is at a place -/

/-- What a value has under a name: an entry or a field, nothing where it has neither. -/
def partAt (v : Value) (name : String) : Value :=
  match h.entries? (h.view v) with
  | some es => (h.entry? name es).getD .nil
  | none =>
    match (h.view v).fields.find? fun f => f.external == name with
    | some f => h.fieldValue v f.name
    | none => .nil

/-- What is at the end of some names below a value. -/
def valueAt (v : Value) (names : List String) : Value := names.foldl h.partAt v

variable {h} {K : ClassTable} {v w x y : Value}

@[simp] theorem valueAt_nil (v : Value) : h.valueAt v [] = v := rfl

@[simp] theorem valueAt_cons (v : Value) (s : String) (names : List String) :
    h.valueAt v (s :: names) = h.valueAt (h.partAt v s) names := rfl

theorem partAt_congr (hv : h.view v = h.view w) (name : String) :
    h.partAt v name = h.partAt w name := by
  unfold partAt fieldValue
  rw [hv]

/-- Values that show the same have the same parts. -/
theorem valueAt_congr (hv : h.view v = h.view w) {s : String} (names : List String) :
    h.valueAt v (s :: names) = h.valueAt w (s :: names) := by
  rw [valueAt_cons, valueAt_cons, partAt_congr hv]

theorem partAt_nil (hv : h.view v = .nil) (name : String) : h.partAt v name = .nil := by
  unfold partAt
  rw [hv, entries?_nil]
  rfl

/-- A mapping has its entries as parts. -/
theorem partAt_entry {es : List (Value × Value)} (hes : h.entries? (h.view v) = some es)
    (name : String) : h.partAt v name = (h.entry? name es).getD .nil := by
  rw [partAt, hes]

/-- What has neither entries nor fields has no parts. -/
theorem partAt_bare (hes : h.entries? (h.view v) = none) (hr : (h.view v).isRecord = false)
    (name : String) : h.partAt v name = .nil := by
  rw [partAt, hes]
  dsimp only
  cases (h.view v).fields.find? fun f => f.external == name with
  | none => rfl
  | some f =>
    have hnone : (h.view v).attribute? f.name = none :=
      Option.not_isSome_iff_eq_none.mp fun hs => by
        rw [(Object.attribute?_isSome.mp hs).2] at hr
        cases hr
    show ((h.view v).attribute? f.name).getD .nil = .nil
    rw [hnone]
    rfl

theorem partAt_blank (hc : (h.view v).children = []) (hr : (h.view v).isRecord = false)
    (name : String) : h.partAt v name = .nil := by
  cases hes : h.entries? (h.view v) with
  | none => exact partAt_bare hes hr name
  | some es =>
    rw [partAt_entry hes, entries?_of_empty hc hes]
    rfl

/-- A record has the fields that it is gone through by as parts, by their external names; those
that it lacks are nothing. -/
theorem partAt_field {fs : List Field} (hr : (h.view v).isRecord = true) (hs : Spans h v fs)
    (hn : (fs.map (·.external)).Nodup) {f : Field} (hf : f ∈ fs) :
    h.partAt v f.external = h.fieldValue v f.name := by
  rw [partAt, entries?_record hr]
  dsimp only
  cases hfind : (h.view v).fields.find? fun g => g.external == f.external with
  | some g =>
    have he : g.external = f.external := by simpa using List.find?_some hfind
    have hg := hs.own g (List.mem_of_find?_eq_some hfind)
    rw [List.inj_on_of_nodup_map hn hg hf he]
  | none =>
    have hout : f ∉ (h.view v).fields := fun hown => by
      simpa using List.find?_eq_none.mp hfind f hown
    rw [fieldValue, (hs.lacking f hf).resolve_left hout]
    rfl

end Heap

namespace Diff
variable {h : Heap} {o : Options} {K : ClassTable} {P : String → Prop} {path : Label}
variable {task next : Task} {old new v w x y : Value} {p q : Value × Value} {e : Hop}
variable {s : String} {ns : List String} {cs : List Change}

/-! ### Hops -/

/-- What a mapping holds under a text is its part of that name. -/
theorem holds_part (hv : h.Everywhere (h.Labelled P) v) (hr : (h.view v).isRecord = false)
    (hw : Holds h v s w) : w = h.partAt v s := by
  cases hes : h.entries? (h.view v) with
  | none =>
    rcases hw with hw | ⟨rfl, _⟩
    · exact absurd hw (not_hasKey_of_entries hes)
    · rw [partAt_bare hes hr]
  | some es =>
    rw [partAt_entry hes]
    rcases hw with ⟨ds, k, hds, hm, hk⟩ | ⟨rfl, hnone⟩
    · obtain rfl := Option.some.inj (hes.symm.trans hds)
      rw [entry?_of_mem (labelled_keys hv hes).2 hm hk]
      rfl
    · rw [entry?_eq_none.mpr fun e he ht => hnone e.2 ⟨es, e.1, hes, he, ht⟩]
      rfl

/-- A field that a record is left by, beside nothing too, leads to its part of that name. -/
theorem own_part (hv : h.Everywhere (h.Labelled P) v) (hr : (h.view v).isRecord = true) {f : Field}
    (hf : f ∈ (h.view v).fields) : h.fieldValue v f.name = h.partAt v f.external :=
  (partAt_field hr (spans_own h v) (labelled_fields hv hr).2.2 hf).symm

theorem nothing_part (hv : h.view v = .nil) (f : Field) :
    h.fieldValue v f.name = h.partAt v f.external := by
  rw [partAt_nil hv, fieldValue, hv]
  rfl

/-- What has a key beside something that it meets is no record, nor is that. -/
theorem not_records_of_key (hf : (h.view x).cls = (h.view y).cls → (h.view x).form = (h.view y).form)
    (hm : MetMappings h x y) (hk : ∃ z, HasKey h x s z ∨ HasKey h y s z) :
    (h.view x).isRecord = false ∧ (h.view y).isRecord = false := by
  have hkey : ∀ {v z : Value}, HasKey h v s z → (h.view v).isRecord = false := by
    rintro v z ⟨es, k, hes, _⟩
    refine Bool.eq_false_iff.mpr fun hr => ?_
    rw [entries?_record hr] at hes
    cases hes
  have hnil : ∀ {v z : Value}, h.view v = .nil → ¬ HasKey h v s z := fun hv =>
    not_hasKey_of_entries (by rw [hv, entries?_nil])
  have hmapping : ∀ {v : Value}, (h.view v).kind = .mapping → (h.view v).isRecord = false :=
    fun hkind => Bool.eq_false_iff.mpr fun hr => by
      rw [Object.isRecord_iff.mp hr] at hkind
      cases hkind
  obtain ⟨z, hk⟩ := hk
  rcases hm with ⟨hc, hkind⟩ | hx | hy
  · refine ⟨hmapping hkind, hmapping ?_⟩
    rw [← Object.kind_form, ← hf hc, Object.kind_form, hkind]
  · exact ⟨by rw [hx]; rfl, hkey (hk.resolve_left (hnil hx))⟩
  · exact ⟨hkey (hk.resolve_right (hnil hy)), by rw [hy]; rfl⟩

/-- **Hops lead to the parts under their name.** -/
theorem hops_parts (hl : TaskLabelled P h (.compare p.1 p.2))
    (hf : (h.view p.1).cls = (h.view p.2).cls → (h.view p.1).form = (h.view p.2).form)
    (hh : Hops h p e q) : q = (h.partAt p.1 e.name, h.partAt p.2 e.name) := by
  cases hh with
  | @field x y f hmet =>
    obtain ⟨hx, hy, hm⟩ := hl
    rcases hmet with ⟨hc, hk, fs, hfs, hmem⟩ | ⟨hn, hr, hmem⟩ | ⟨hn, hr, hmem⟩
    · have hky : (h.view y).kind = .record := by
        rw [← Object.kind_form, ← hf hc, Object.kind_form, hk]
      obtain ⟨hsx, hsy, _⟩ := spans_both hk (hf hc) hfs
      have hnodup := (hm x y .refl hc hk fs hfs).2
      exact Prod.ext (partAt_field (Object.isRecord_iff.mpr hk) hsx hnodup hmem).symm
        (partAt_field (Object.isRecord_iff.mpr hky) hsy hnodup hmem).symm
    · exact Prod.ext (nothing_part hn f) (own_part hy hr hmem)
    · exact Prod.ext (own_part hx hr hmem) (nothing_part hn f)
  | @entry x y u w s hm hk hu hw =>
    obtain ⟨hx, hy⟩ := not_records_of_key hf hm hk
    exact Prod.ext (holds_part hl.1 hx hu) (holds_part hl.2.1 hy hw)

/-- Hops lead from values to values within them, or to nothing. -/
theorem hops_everywhere {Q : Object Value → Prop} (hnil : Q .nil) (h₁ : h.Everywhere Q p.1)
    (h₂ : h.Everywhere Q p.2) (hh : Hops h p e q) : h.Everywhere Q q.1 ∧ h.Everywhere Q q.2 := by
  have hholds : ∀ {v w : Value} {s : String}, h.Everywhere Q v → Holds h v s w →
      h.Everywhere Q w := by
    rintro v w s hv (⟨es, k, hes, hm, _⟩ | ⟨rfl, _⟩)
    · exact hv.of_within (entries?_below hes hm).2.to_reflTransGen
    · exact everywhere_nil hnil
  cases hh with
  | field hf => exact ⟨h₁.fieldValue hnil _, h₂.fieldValue hnil _⟩
  | entry hm hk hu hw => exact ⟨hholds h₁ hu, hholds h₂ hw⟩

/-! ### Tasks -/

/-- The values at the end of some names in the two values of a task are not equal. -/
def DiffersAt (h : Heap) (task : Task) (ns : List String) : Prop :=
  h.deepEqual (h.valueAt task.sides.1 ns) (h.valueAt task.sides.2 ns) = .ok false

/-- A value differs from one of another class. -/
theorem differs_of_classes (hc : (h.view old).cls ≠ (h.view new).cls) :
    h.deepEqual old new = .ok false := by
  rw [deepEqual, pairBound, deepEqualWithin_classes hc]

theorem differs_from_nothing (ho : h.view old = .nil) (hn : h.view new ≠ .nil) :
    h.deepEqual old new = .ok false ∧ h.deepEqual new old = .ok false := by
  refine ⟨differs_of_classes fun hc => hn ?_, differs_of_classes fun hc => hn ?_⟩
  · rw [ho] at hc
    exact cls_nil_iff.mp hc.symm
  · rw [ho] at hc
    exact cls_nil_iff.mp hc

theorem view_ne_nil_of_isZero {v : Value} (hz : h.isZero v = .ok false) : h.view v ≠ .nil := by
  intro hv
  rw [isZero_leaf (by rw [hv]; rfl), hv] at hz
  cases hz

/-- What ends in changes differs. -/
theorem settles_differs (hs : Settles h o task cs) (hc : cs ≠ []) : DiffersAt h task [] := by
  cases hs with
  | nothing | same | unadded | unremoved => exact absurd rfl hc
  | created ho hn hr => exact (differs_from_nothing ho hn).1
  | dropped ho hn hr => exact (differs_from_nothing hn ho).2
  | scalar ho hn hcls hk he hz => exact he
  | sequence ho hn hcls hk he hs => exact he
  | whole hv hr hz => exact (differs_from_nothing rfl hv).1
  | removed hz hr he => exact (differs_from_nothing rfl (view_ne_nil_of_isZero hz)).2

/-- Where a task that another one is differs, that one does. -/
theorem becomes_differs (hb : Becomes h task next) (hd : DiffersAt h next ns) :
    DiffersAt h task ns := by
  cases hb with
  | @added old new ho hr =>
    cases ns with
    | nil => exact (differs_from_nothing ho (Object.ne_nil_of_record (Object.isRecord_iff.mp hr))).1
    | cons s ns =>
      show h.deepEqual (h.valueAt old _) _ = _
      rwa [valueAt_congr (w := .nil) ho]
  | @removed old new hn hr =>
    cases ns with
    | nil => exact (differs_from_nothing hn (Object.ne_nil_of_record (Object.isRecord_iff.mp hr))).2
    | cons s ns =>
      show h.deepEqual _ (h.valueAt new _) = _
      rwa [valueAt_congr (w := .nil) hn]
  | addedFields hr => exact hd
  | @fromZero v z hr hz =>
    have hblank := Object.zero?_blank hz
    cases ns with
    | nil =>
      refine (differs_from_nothing rfl fun hv : h.view v = .nil => ?_).1
      rw [hv] at hz
      cases hz
    | cons s ns =>
      show h.deepEqual (h.valueAt (h.partAt .nil s) ns) _ = _
      rw [partAt_nil rfl s,
        ← partAt_blank (v := .inline z) hblank.children (hblank.isRecord.trans hr) s]
      exact hd
  | removedFields hz hr => exact hd

/-- **What a task yields is where its two values differ.** -/
theorem yields_differs (hy : Yields h o task path cs) (hl : TaskLabelled P h task)
    (hf : OnSides (h.Everywhere (Object.Follows K)) task) :
    ∀ c ∈ cs, DiffersAt h task (c.path.map (·.text)) := by
  induction hy with
  | settles hs =>
    intro c hc
    rw [(inPlace_settles hs).path_eq_nil hc]
    exact settles_differs hs (List.ne_nil_of_mem hc)
  | becomes hb hy ih =>
    exact fun c hc => becomes_differs hb
      (ih (labelled_becomes hb hl) ((passes_follows h K).becomes hb hf) c hc)
  | descends steps hd hy ih =>
    intro c hc
    obtain ⟨e, he, hc⟩ := List.mem_flatMap.mp hc
    obtain ⟨d, hd', rfl⟩ := List.mem_map.mp hc
    have hstep : (e.label, e.task) ∈ steps.map fun e => (e.label, e.task) := List.mem_map_of_mem he
    obtain ⟨hop, hname, hhop⟩ := descends_hops hd _ hstep
    have hparts := hops_parts (taskLabelled_sides hl)
      (Object.form_eq hf.1.here hf.2.here) hhop
    have hbelow := ih e he ((labelled_descends hd hl).labelled _ hstep)
      (hops_everywhere (Object.follows_nil K) hf.1 hf.2 hhop) d hd'
    rw [Change.path_under, List.map_cons, ← hname]
    rw [DiffersAt, hparts] at hbelow
    exact hbelow

/-! ### Paths -/

/-- The names that a path goes by in the two values: those on it, without a last placeholder. -/
def site (path : String) : List String :=
  match (names path).getLast? with
  | some s => if s.toList.head? = some '$' then (names path).dropLast else names path
  | none => []

theorem site_record {c : Change} {n : Nat} {r : Patch.Record} (hr : c.record? n = some r)
    (hp : ∀ l ∈ c.path, PlainName l.text) : site r.path.text = c.path.map (·.text) := by
  have hplain : ∀ s ∈ c.path.map (·.text), s.toList.head? ≠ some '$' := fun s hs => by
    obtain ⟨l, hl, rfl⟩ := List.mem_map.mp hs
    exact (hp l hl).2
  rw [site, names_record hr fun l hl => (hp l hl).1]
  cases c with
  | item path index v =>
    rw [Change.names, List.getLast?_append]
    simp [placeName_chars, Change.path]
  | whole path action =>
    rw [Change.names]
    cases hlast : (path.map (·.text)).getLast? with
    | none => exact (List.getLast?_eq_none_iff.mp hlast).symm
    | some s => exact if_neg (hplain s (List.mem_of_getLast? hlast))

/-! ### The patch -/

/-- **Nothing is recorded that did not change.** Let the parts of every layer of two values have
names of their own, and the fields of any two records of one class that meet. Then at the place of
every operation of a patch the two values differ. If two objects without cycles are equal, there
is a patch, and it is empty, unless shared references are looked for and there are some. -/
theorem diff_records_differences (hko : h.Everywhere (Object.Follows K) old)
    (hkn : h.Everywhere (Object.Follows K) new) (ho : h.Everywhere h.WellNamed old)
    (hn : h.Everywhere h.WellNamed new) (hm : h.MergesApart old new) :
    (∀ p messages, diff h o old new = (.ok p, messages) → ∀ path ∈ p.paths,
      h.deepEqual (h.valueAt old (site path)) (h.valueAt new (site path)) = .ok false) ∧
    (h.Steady K old → h.Steady K new → h.view old ≠ .nil → h.deepEqual old new = .ok true →
      (o.detectsSharing = true → ¬ ∃ a, IsShared h old new a) →
        (diff h o old new).1 = .ok .empty) := by
  refine ⟨fun p messages hd path hpath => ?_, fun hso hsn hnil he hs => diff_equal hso hsn hnil he hs⟩
  obtain ⟨cs, hy, hseparate, hrecords, _⟩ := diff_separate ho hn hm hd
  obtain ⟨r, hr, rfl⟩ := List.mem_map.mp ((mem_paths_iff hrecords).mp hpath)
  obtain ⟨c, hc, n, hrecord⟩ := mem_recordsFrom hr
  rw [site_record hrecord (hseparate.plain c hc)]
  exact yields_differs hy (clear_iff.mp ⟨ho, hn, hm⟩) ⟨hko, hkn⟩ c hc

/-- Three boxes with a mapping each, the first two of them equal. -/
def copies : Heap :=
  ⟨#[.record ⟨"Box", .freeform⟩ [("m", 4)], .record ⟨"Box", .freeform⟩ [("m", 5)],
    .record ⟨"Box", .freeform⟩ [("m", 6)], .map none [(7, 8)], .map none [(9, 10)],
    .map none [(7, 11)], .text none "k", .int none 1, .text none "k", .int none 1, .int none 2]⟩

theorem steady_copies (a : Addr) : copies.Steady freeforms (.ref a) := by
  have hfacts : (∀ a < copies.size, ∀ b ∈ (copies.object a).children, 12 - b < 12 - a) ∧
      (∀ a < copies.size, (∀ s ∈ copies.partNames (copies.view (.ref a)), PlainName s) ∧
        (copies.partNames (copies.view (.ref a))).Nodup) ∧
      (∀ a < copies.size, ∀ es ∈ copies.entries? (copies.view (.ref a)),
        ∀ e ∈ es, ((copies.view e.1).text?).isSome = true) := by decide +kernel
  obtain ⟨hranks, hnames, htexts⟩ := hfacts
  have hregular : ∀ a < copies.size, copies.Regular (copies.view (.ref a)) := by
    intro a ha
    have : a < 12 := ha
    interval_cases a <;> trivial
  exact steady_ref (12 - ·) hranks hregular (by decide) (fun a ha => ⟨(hnames a ha).1, (hnames a ha).2⟩)
    htexts a

theorem diff_records_differences_copies :
    copies.Steady freeforms (.ref 1) ∧ copies.Steady freeforms (.ref 2) ∧
    copies.Steady freeforms (.ref 3) ∧ (∀ a b, copies.MergesApart (.ref a) (.ref b)) ∧
    (∃ p messages, diff copies .default (.ref 1) (.ref 3) = (.ok p, messages) ∧ p.paths = ["m.k"] ∧
      ∀ path ∈ p.paths, copies.deepEqual (copies.valueAt (.ref 1) (site path))
        (copies.valueAt (.ref 3) (site path)) = .ok false) ∧
    (diff copies ⟨[], .merge, .unset, false, []⟩ (.ref 1) (.ref 2)).1 = .ok .empty := by
  have hfacts : (∀ a < copies.size, ∀ b < copies.size,
        (copies.view (.ref a)).kind = .record →
          ∀ fs ∈ (copies.view (.ref a)).fields? [copies.view (.ref b)], OwnNames fs) ∧
      (diff copies .default (.ref 1) (.ref 3)).1.toOption.map (·.paths) = some ["m.k"] ∧
      (copies.deepEqual (.ref 1) (.ref 2)).toOption = some true := by decide +kernel
  obtain ⟨hmeets, hrun, hequal⟩ := hfacts
  have hs := steady_copies
  have hapart := mergesApart_ref hmeets
  obtain ⟨p, hp, hpaths⟩ := Option.map_eq_some_iff.mp hrun
  obtain ⟨messages, hd⟩ := diff_of_toOption hp
  have hdiffers := (diff_records_differences (hs 1).follows (hs 3).follows (hs 1).named (hs 3).named
    (hapart 1 3)).1 p messages hd
  have hempty := (diff_records_differences (o := ⟨[], .merge, .unset, false, []⟩)
    (hs 1).follows (hs 2).follows (hs 1).named (hs 2).named (hapart 1 2)).2 (hs 1) (hs 2) nofun
    (ok_of_toOption hequal) nofun
  exact ⟨hs 1, hs 2, hs 3, hapart, ⟨p, messages, hd, hpaths, hdiffers⟩, hempty⟩

/-- Two records of a class that declares no fields, where one number is held under two names that
are the same outside. -/
def restyled : Heap :=
  ⟨#[.record ⟨"P", .freeform⟩ [("userId", 3)], .record ⟨"P", .freeform⟩ [("user_id", 3)],
    .int none 5]⟩

/-- Names of their own in each of the two values are not enough: the field is unset, and set again
to what it was. -/
theorem diff_records_restyled :
    ¬ ∀ (h : Heap) (K : ClassTable) (o : Options) (old new : Value) (p : Patch)
      (messages : List Message), h.Steady K old → h.Steady K new →
        diff h o old new = (.ok p, messages) → ∀ path ∈ p.paths,
          h.deepEqual (h.valueAt old (site path)) (h.valueAt new (site path)) = .ok false := by
  intro hall
  have hfacts : (∀ a < restyled.size, ∀ b ∈ (restyled.object a).children, 4 - b < 4 - a) ∧
      (∀ a < restyled.size, (∀ s ∈ restyled.partNames (restyled.view (.ref a)), PlainName s) ∧
        (restyled.partNames (restyled.view (.ref a))).Nodup) ∧
      (∀ a < restyled.size, ∀ es ∈ restyled.entries? (restyled.view (.ref a)),
        ∀ e ∈ es, ((restyled.view e.1).text?).isSome = true) ∧
      (diff restyled .default (.ref 1) (.ref 2)).1.toOption.map (·.paths) = some ["user_id"] ∧
      (restyled.deepEqual (restyled.valueAt (.ref 1) (site "user_id"))
        (restyled.valueAt (.ref 2) (site "user_id"))).toOption = some true := by decide +kernel
  obtain ⟨hranks, hnames, htexts, hrun, hequal⟩ := hfacts
  have hregular : ∀ a < restyled.size, restyled.Regular (restyled.view (.ref a)) := by
    intro a ha
    have : a < 4 := ha
    interval_cases a <;> trivial
  have hs := steady_ref (K := freeforms) (4 - ·) hranks hregular (by decide)
    (fun a ha => ⟨(hnames a ha).1, (hnames a ha).2⟩) htexts
  obtain ⟨p, hp, hpaths⟩ := Option.map_eq_some_iff.mp hrun
  obtain ⟨messages, hd⟩ := diff_of_toOption hp
  have hdiffers := hall restyled freeforms .default (.ref 1) (.ref 2) p messages (hs 1) (hs 2) hd
    "user_id" (by rw [hpaths]; exact List.mem_singleton_self _)
  rw [ok_of_toOption hequal] at hdiffers
  cases hdiffers

end Diff
end DocDelta
