import Mathlib.Data.List.Nodup
import Mathlib.Data.List.Perm.Basic
import DocDelta.Proofs.Patch.Accumulation

/-! The operations of a patch one by one.

A patch that accumulated records no two of which share a path lists just those records, in the
order of its groups. -/
namespace DocDelta.Patch

/-- The operations of a patch: the operator, the path and the value of each. -/
def entries (p : Patch) : List (Operator × String × Value) :=
  p.groups.flatMap fun g => g.fields.map fun f => (g.operator, f.1.text, f.2)

/-- The recorded paths, over all operators. -/
def paths (p : Patch) : List String := p.entries.map fun e => e.2.1

/-- Whether the metadata of a patch names a path among the changed fields. -/
def changed (p : Patch) (path : String) : Bool := p.metadata.fieldsChanged.any (·.isText path)

/-- A record as an operation of the patch. -/
def Record.entry (r : Record) : Operator × String × Value := (r.operator, r.path.text, r.value)

theorem find?_of_mem {g : Group} (hd : (g.fields.map (·.1.text)).Nodup) {f : Label × Value}
    (hf : f ∈ g.fields) : g.find? f.1.text = some f.2 := by
  cases hfind : g.fields.find? fun k => k.1.text == f.1.text with
  | none => exact absurd (by simp) (List.find?_eq_none.mp hfind f hf)
  | some k =>
    have htext : k.1.text = f.1.text := by simpa using List.find?_some hfind
    have hk : k = f := List.inj_on_of_nodup_map hd (List.mem_of_find?_eq_some hfind) hf htext
    rw [Group.find?, hfind, hk]
    rfl

theorem heldIn_of_mem {gs : List Group} (hd : (gs.map (·.operator)).Nodup) {g : Group}
    (hg : g ∈ gs) (path : String) : heldIn gs g.operator path = g.find? path := by
  induction gs with
  | nil => cases hg
  | cons k gs ih =>
    rw [heldIn_cons]
    have hk : k.operator ∉ gs.map (·.operator) := (List.nodup_cons.mp hd).1
    rcases List.mem_cons.mp hg with rfl | hg
    · rw [if_pos rfl]
    · have hne : k.operator ≠ g.operator := fun he =>
        hk (he ▸ List.mem_map_of_mem hg)
      rw [if_neg hne, ih (List.nodup_cons.mp hd).2 hg]

theorem mem_entries_iff {p : Patch} (ht : Tidy p.groups) {operator : Operator} {path : String}
    {v : Value} : (operator, path, v) ∈ p.entries ↔ held? p operator path = some v := by
  constructor
  · intro hm
    obtain ⟨g, hg, hm⟩ := List.mem_flatMap.mp hm
    obtain ⟨f, hf, he⟩ := List.mem_map.mp hm
    cases he
    show heldIn p.groups g.operator f.1.text = _
    rw [heldIn_of_mem ht.operators hg, find?_of_mem (ht.paths g hg) hf]
  · intro hh
    obtain ⟨g, hfind, hv⟩ := Option.bind_eq_some_iff.mp hh
    obtain ⟨f, hf, rfl⟩ := Option.map_eq_some_iff.mp hv
    have ho : g.operator = operator := by simpa using List.find?_some hfind
    have htext : f.1.text = path := by simpa using List.find?_some hf
    refine List.mem_flatMap.mpr ⟨g, List.mem_of_find?_eq_some hfind, ?_⟩
    refine List.mem_map.mpr ⟨f, List.mem_of_find?_eq_some hf, ?_⟩
    rw [ho, htext]

/-- The operations of a patch are what was recorded last at each path. -/
theorem mem_entries {rs : List Record} {p : Patch} (ha : Accumulates rs p)
    {e : Operator × String × Value} :
    e ∈ p.entries ↔ ∃ r, lastOn e.2.1 rs = some r ∧ r.operator = e.1 ∧ r.value = e.2.2 := by
  obtain ⟨operator, path, v⟩ := e
  rw [mem_entries_iff ha.tidy, ha.held]

theorem entries_nodup {p : Patch} (ht : Tidy p.groups) : p.entries.Nodup := by
  refine List.nodup_flatMap.mpr ⟨fun g hg => ?_, ?_⟩
  · have hpath : ((g.fields.map fun f => (g.operator, f.1.text, f.2)).map fun e => e.2.1).Nodup := by
      simpa [Function.comp_def] using ht.paths g hg
    exact hpath.of_map _
  · refine (List.pairwise_map.mp ht.operators).imp fun {g k} hne => ?_
    intro e hg hk
    obtain ⟨f, _, rfl⟩ := List.mem_map.mp hg
    obtain ⟨f', _, he⟩ := List.mem_map.mp hk
    exact hne (Prod.mk.inj he).1.symm

/-- **No path lies under two operators.** -/
theorem paths_nodup {rs : List Record} {p : Patch} (ha : Accumulates rs p) : p.paths.Nodup := by
  refine List.Nodup.map_on ?_ (entries_nodup ha.tidy)
  rintro ⟨operator, path, v⟩ he ⟨operator', path', v'⟩ he' (rfl : path = path')
  obtain ⟨r, hr, rfl, rfl⟩ := (mem_entries ha).mp he
  obtain ⟨r', hr', rfl, rfl⟩ := (mem_entries ha).mp he'
  rw [Option.some.inj (hr.symm.trans hr')]

/-- The recorded paths are those of the records. -/
theorem mem_paths_iff {rs : List Record} {p : Patch} (ha : Accumulates rs p) {path : String} :
    path ∈ p.paths ↔ path ∈ rs.map (·.path.text) := by
  have hlast : path ∈ rs.map (·.path.text) ↔ ∃ r, lastOn path rs = some r := by
    rw [← Option.ne_none_iff_exists']
    simp [lastOn]
  rw [hlast]
  constructor
  · intro hp
    obtain ⟨e, he, rfl⟩ := List.mem_map.mp hp
    obtain ⟨r, hr, _⟩ := (mem_entries ha).mp he
    exact ⟨r, hr⟩
  · rintro ⟨r, hr⟩
    have hheld := (mem_entries (e := (r.operator, path, r.value)) ha).mpr ⟨r, hr, rfl, rfl⟩
    exact List.mem_map.mpr ⟨_, hheld, rfl⟩

theorem lastOn_mem {path : String} {rs : List Record} {r : Record} (hl : lastOn path rs = some r) :
    r ∈ rs :=
  List.mem_reverse.mp (List.mem_of_find?_eq_some hl)

/-- With no path recorded twice, every record is the last of its path. -/
theorem lastOn_eq_some {rs : List Record} (hd : (rs.map (·.path.text)).Nodup) {path : String}
    {r : Record} : lastOn path rs = some r ↔ r ∈ rs ∧ r.path.text = path := by
  constructor
  · exact fun hl => ⟨lastOn_mem hl, lastOn_text hl⟩
  · rintro ⟨hr, rfl⟩
    cases hl : lastOn r.path.text rs with
    | none =>
      have hnone := List.find?_eq_none.mp hl r (List.mem_reverse.mpr hr)
      simp at hnone
    | some k =>
      rw [List.inj_on_of_nodup_map hd (lastOn_mem hl) hr (lastOn_text hl)]

/-- **A patch that accumulated records with distinct paths holds just those.** -/
theorem entries_perm {rs : List Record} {p : Patch} (h : Accumulates rs p)
    (hd : (rs.map (·.path.text)).Nodup) : p.entries.Perm (rs.map Record.entry) := by
  have hentries : (rs.map Record.entry).Nodup := by
    refine List.Nodup.of_map (fun e => e.2.1) ?_
    simpa [Function.comp_def, Record.entry] using hd
  refine (List.perm_ext_iff_of_nodup (entries_nodup h.tidy) hentries).mpr ?_
  rintro ⟨operator, path, v⟩
  rw [mem_entries h]
  constructor
  · rintro ⟨r, hl, rfl, rfl⟩
    obtain ⟨hr, rfl⟩ := (lastOn_eq_some hd).mp hl
    exact List.mem_map.mpr ⟨r, hr, rfl⟩
  · intro hm
    obtain ⟨r, hr, he⟩ := List.mem_map.mp hm
    cases he
    exact ⟨r, (lastOn_eq_some hd).mpr ⟨hr, rfl⟩, rfl, rfl⟩

theorem paths_perm {rs : List Record} {p : Patch} (h : Accumulates rs p)
    (hd : (rs.map (·.path.text)).Nodup) : p.paths.Perm (rs.map (·.path.text)) := by
  have hmap := (entries_perm h hd).map fun e => e.2.1
  rwa [List.map_map] at hmap

/-- The changed fields are the paths of the records. -/
theorem changed_iff {rs : List Record} {p : Patch} (ha : Accumulates rs p) {path : String} :
    p.changed path = true ↔ path ∈ rs.map (·.path.text) := by
  have hpaths : path ∈ rs.map (·.path.text) ↔ path ∈ (distinctPaths rs).map (·.text) := by
    rw [← Decidable.not_iff_not, ← lastOn_eq_none]
    simp [lastOn]
  rw [hpaths, changed, ha.fields]
  simp [Mark.isText]

end DocDelta.Patch
