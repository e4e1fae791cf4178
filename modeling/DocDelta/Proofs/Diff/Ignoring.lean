import DocDelta.Proofs.Diff.ConflictFree

/-! Ignoring is filtering.

With more names ignored a comparison still succeeds, and of its changes just those are left on the
way to which nothing is ignored: no field by its own or its external name, no key, and nothing by
its path. `diff_ignoring` says so of the patches. Labels are handed out to the changes that are
left, so they are numbered anew. -/
namespace DocDelta.Diff
open Patch Heap
variable {h : Heap} {o o' : Options} {path : Label} {task : Task} {cs ds : List Change}

/-! ### Ways on which nothing is ignored -/

/-- Whether nothing is ignored on a way from a path. -/
def avoids (h : Heap) (o : Options) : String → List Hop → Bool
  | _, [] => true
  | base, e :: es =>
    let sub := (joinPath (.plain base) (.plain e.name)).text
    !o.ignores h (e.aliases ++ [sub]) && avoids h o sub es

/-- A change is at the end of a way. -/
def EndsAt (h : Heap) (sides : Value × Value) (c : Change) (es : List Hop) : Prop :=
  Way h sides es ∧ es.map (·.name) = c.path.map (·.text)

/-- The second changes are those of the first to which some way is kept. -/
def Leave (keep : List Hop → Bool) (W : Change → List Hop → Prop) (cs ds : List Change) : Prop :=
  ∃ marks : List (Change × List Hop), cs = marks.map (·.1) ∧
    ds = (marks.filter fun m => keep m.2).map (·.1) ∧ ∀ m ∈ marks, W m.1 m.2

section Leave
variable {keep : List Hop → Bool} {W : Change → List Hop → Prop}

theorem leave_append {cs' ds' : List Change} (hc : Leave keep W cs ds) (hd : Leave keep W cs' ds') :
    Leave keep W (cs ++ cs') (ds ++ ds') := by
  obtain ⟨ms, rfl, rfl, hm⟩ := hc
  obtain ⟨ns, rfl, rfl, hn⟩ := hd
  refine ⟨ms ++ ns, List.map_append.symm, ?_, fun m hmem => ?_⟩
  · rw [List.filter_append, List.map_append]
  · exact (List.mem_append.mp hmem).elim (hm m) (hn m)

theorem leave_flatMap {α : Type} {f g : α → List Change} {xs : List α}
    (hl : ∀ x ∈ xs, Leave keep W (f x) (g x)) : Leave keep W (xs.flatMap f) (xs.flatMap g) := by
  induction xs with
  | nil => exact ⟨[], rfl, rfl, nofun⟩
  | cons x xs ih =>
    exact leave_append (hl x (List.mem_cons_self ..))
      (ih fun y hy => hl y (List.mem_cons_of_mem x hy))

/-- Changes that are all left, or all dropped. -/
theorem leave_all (b : Bool) (hk : ∀ c ∈ cs, ∃ es, W c es ∧ keep es = b) :
    Leave keep W cs (if b then cs else []) := by
  induction cs with
  | nil => exact ⟨[], rfl, by cases b <;> rfl, nofun⟩
  | cons c cs ih =>
    obtain ⟨es, hw, hb⟩ := hk c (List.mem_cons_self ..)
    have hone : Leave keep W [c] (if b then [c] else []) := by
      refine ⟨[(c, es)], rfl, ?_, fun m hm => List.mem_singleton.mp hm ▸ hw⟩
      cases b <;> simp [hb]
    have hrest := leave_append hone (ih fun d hd => hk d (List.mem_cons_of_mem c hd))
    cases b <;> exact hrest

/-- What is left further down, seen from above. -/
theorem leave_under {keep' : List Hop → Bool} {W' : Change → List Hop → Prop} {l : Label} {e : Hop}
    (hl : Leave keep W cs ds) (hk : ∀ es, keep' (e :: es) = keep es)
    (hw : ∀ c es, W c es → W' (c.under l) (e :: es)) :
    Leave keep' W' (cs.map (·.under l)) (ds.map (·.under l)) := by
  obtain ⟨ms, rfl, rfl, hm⟩ := hl
  refine ⟨ms.map fun m => (m.1.under l, e :: m.2), ?_, ?_, ?_⟩
  · simp [Function.comp_def]
  · simp [List.filter_map, Function.comp_def, hk]
  · intro m hmem
    obtain ⟨n, hn, rfl⟩ := List.mem_map.mp hmem
    exact hw n.1 n.2 (hm n hn)

end Leave

/-- **With more names ignored, the changes are left on whose way nothing is ignored.** -/
theorem thins_leave (ht : Thins h o o' task path cs ds) {P : String → Prop}
    (hl : TaskLabelled P h task) :
    Leave (avoids h o' path.text) (EndsAt h task.sides) cs ds := by
  induction ht with
  | settles hs =>
    exact leave_all true fun c hc =>
      ⟨[], ⟨.here, by rw [(inPlace_settles hs).path_eq_nil hc]; rfl⟩, rfl⟩
  | becomes hb _ ih =>
    obtain ⟨ms, hcs, hds, hm⟩ := ih (labelled_becomes hb hl)
    exact ⟨ms, hcs, hds, fun m hmem => ⟨becomes_way hb (hm m hmem).1, (hm m hmem).2⟩⟩
  | @descends task path forks hd hh hk hi ht ih =>
    refine leave_flatMap fun e he => ?_
    obtain ⟨hname, hhop⟩ := hh e he
    have htask := (labelled_descends hd hl).labelled _ (List.mem_map_of_mem he)
    have hunder : ∀ c es, EndsAt h e.task.sides c es →
        EndsAt h task.sides (c.under e.label) (e.hop :: es) :=
      fun c es hw => ⟨.down hhop hw.1, by simp [hw.2, hname]⟩
    have havoids : ∀ es, avoids h o' path.text (e.hop :: es) =
        (!e.ignored h o' path && avoids h o' (joinPath path e.label).text es) := fun es => by
      have hsub : (joinPath (.plain path.text) (.plain e.hop.name)).text =
        (joinPath path e.label).text := text_joinPath rfl hname
      rw [avoids, hsub, Fork.ignored]
    cases hig : e.ignored h o' path with
    | true =>
      obtain ⟨hafter, hy⟩ := hi e he hig
      have hdrop : Leave (avoids h o' path.text) (EndsAt h task.sides) e.allBefore [] := by
        refine leave_all false fun c hc => ?_
        obtain ⟨d, hdm, rfl⟩ := List.mem_map.mp hc
        obtain ⟨es, hw, _⟩ := yields_way hy htask d hdm
        exact ⟨e.hop :: es, hunder d es hw, by rw [havoids, hig]; rfl⟩
      rw [Fork.allAfter, hafter]
      exact hdrop
    | false =>
      exact leave_under (ih e he hig htask) (fun es => by rw [havoids, hig]; rfl) hunder

/-! ### The patch -/

variable {old new : Value} {p : Patch} {messages : List Message}

theorem distinctPaths_of_nodup {rs : List Record} (hn : (rs.map (·.path.text)).Nodup) :
    distinctPaths rs = rs.map (·.path) := by
  induction rs with
  | nil => rfl
  | cons r rs ih =>
    obtain ⟨hfresh, hrest⟩ := List.nodup_cons.mp hn
    rw [distinctPaths, ih hrest, List.map_cons]
    refine congrArg _ (List.filter_eq_self.mpr fun l hl => ?_)
    obtain ⟨k, hk, rfl⟩ := List.mem_map.mp hl
    exact bne_iff_ne.mpr fun he => hfresh (List.mem_map.mpr ⟨k, hk, he⟩)

/-- A patch holds just what changes record, each label numbered in its turn. -/
structure Holding (p : Patch) (cs : List Change) : Prop where
  entries : p.entries.Perm ((recordsFrom 0 cs).map Record.entry)
  filters : p.filters = filtersFrom 0 cs
  fields : p.metadata.fieldsChanged = (recordsFrom 0 cs).map fun r => .label r.path

theorem Separate.holding (hs : Separate cs) {n : Nat}
    (hp : (p, n) = replayAll (.plain "") cs (.empty, 0)) : Holding p cs := by
  obtain ⟨hrecords, hfilters⟩ := accumulates_changes hp
  refine ⟨entries_perm hrecords hs.records_nodup, hfilters, ?_⟩
  rw [hrecords.fields, distinctPaths_of_nodup hs.records_nodup, List.map_map]
  rfl

theorem Separate.sublist (hs : Separate cs) (hd : ds.Sublist cs) : Separate ds :=
  ⟨fun c hc => hs.plain c (hd.subset hc), hs.independent.sublist hd⟩

/-- **Ignoring is filtering.** Let the parts of every layer of two values have names of their own,
and the fields of any two records of one class that meet. If there is a patch with nothing
ignored, then there is one with any names ignored, under the same options otherwise. The first
holds what some changes record, each at the end of the one way there; the second holds what those
changes record on the way to which nothing is ignored. -/
theorem diff_ignoring (ho : h.Everywhere h.WellNamed old) (hn : h.Everywhere h.WellNamed new)
    (hm : h.MergesApart old new) (hi : o.ignored = []) (hd : diff h o old new = (.ok p, messages))
    (ignored : List Value) :
    ∃ p' messages', diff h { o with ignored := ignored } old new = (.ok p', messages') ∧
      ∃ marks : List (Change × List Hop),
        (∀ m ∈ marks, EndsAt h (old, new) m.1 m.2 ∧ ∀ es, EndsAt h (old, new) m.1 es → es = m.2) ∧
        Holding p (marks.map (·.1)) ∧
        Holding p'
          ((marks.filter fun m => avoids h { o with ignored := ignored } "" m.2).map (·.1)) := by
  obtain ⟨hc, u, t, hu, ht, hs, rfl⟩ := diff_eq_ok.mp (congrArg Prod.fst hd)
  have hnarrows : Narrows h o { o with ignored := ignored } := by
    refine ⟨rfl, rfl, fun names hig => ?_⟩
    rw [Options.ignores, hi] at hig
    simp at hig
  obtain ⟨t', cs, ds, ht', hthins, hleaves, hleaves'⟩ :=
    inStep_compare hnarrows old new (.plain "") u u t rfl ht
  obtain ⟨hpatch, hlabels, _⟩ := prepare_start hu
  have hshared : sharedIn { o with ignored := ignored } t' = none := by
    rw [← hs]
    show (if o.detectsSharing then sharingFault t' else none) = sharedIn o t
    rw [sharedIn, sharingFault, sharingFault, hleaves.old, hleaves.new, hleaves'.old, hleaves'.new]
  refine ⟨t'.patch, _, Prod.ext (diff_eq_ok.mpr ⟨hc, u, t', hu, ht', hshared, rfl⟩) rfl, ?_⟩
  have hclear : Clear h (.compare old new) := ⟨ho, hn, hm⟩
  have hy := thins_yields hthins
  obtain ⟨marks, hcs, hds, hmarks⟩ := thins_leave hthins (clear_iff.mp hclear)
  have hseparate := yields_separate hy hclear
  have hrecords := hleaves.records
  have hrecords' := hleaves'.records
  rw [Records, hpatch, hlabels] at hrecords hrecords'
  subst hcs hds
  refine ⟨marks, fun m hmem => ⟨hmarks m hmem, fun es hes => ?_⟩, hseparate.holding hrecords,
    (hseparate.sublist (List.filter_sublist.map _)).holding hrecords'⟩
  obtain ⟨es', _, hone⟩ := yields_way hy (clear_iff.mp hclear) m.1 (List.mem_map_of_mem hmem)
  rw [hone es hes.1 hes.2, hone m.2 (hmarks m hmem).1 (hmarks m hmem).2]

/-- Two points that differ in both coordinates. -/
def points : Heap :=
  ⟨#[.record ⟨"Point", .freeform⟩ [("x", 3), ("y", 3)],
    .record ⟨"Point", .freeform⟩ [("x", 4), ("y", 4)], .int none 1, .int none 2]⟩

theorem diff_ignoring_points :
    points.Everywhere points.WellNamed (.ref 1) ∧ points.Everywhere points.WellNamed (.ref 2) ∧
    points.MergesApart (.ref 1) (.ref 2) ∧
    ∃ p messages p' messages', diff points .default (.ref 1) (.ref 2) = (.ok p, messages) ∧
      p.paths = ["x", "y"] ∧
      diff points { Options.default with ignored := [.text "y"] } (.ref 1) (.ref 2) =
        (.ok p', messages') ∧
      ∃ marks : List (Change × List Hop), Holding p (marks.map (·.1)) ∧
        Holding p' ((marks.filter fun m =>
          avoids points { Options.default with ignored := [.text "y"] } "" m.2).map (·.1)) := by
  have hcells : (∀ a < points.size, (∀ s ∈ points.partNames (points.view (.ref a)), PlainName s) ∧
      (points.partNames (points.view (.ref a))).Nodup) ∧
      (∀ a < points.size, ∀ b < points.size, (points.view (.ref a)).kind = .record →
        ∀ fs ∈ (points.view (.ref a)).fields? [points.view (.ref b)], OwnNames fs) ∧
      (diff points .default (.ref 1) (.ref 2)).1.toOption.map (·.paths) = some ["x", "y"] := by
    decide +kernel
  obtain ⟨hcells, hmeet, hrun⟩ := hcells
  have hnamed := everywhere_ref wellNamed_nil fun a ha => ⟨(hcells a ha).1, (hcells a ha).2⟩
  have hapart := mergesApart_ref hmeet 1 2
  obtain ⟨p, hp, hpaths⟩ := Option.map_eq_some_iff.mp hrun
  have hd : diff points .default (.ref 1) (.ref 2) = (.ok p, _) := Prod.ext (ok_of_toOption hp) rfl
  obtain ⟨p', messages', hd', marks, _, hholds, hholds'⟩ :=
    diff_ignoring (hnamed 1) (hnamed 2) hapart rfl hd [.text "y"]
  exact ⟨hnamed 1, hnamed 2, hapart, p, _, p', messages', hd, hpaths, hd', marks, hholds, hholds'⟩

/-- Two records of a class that declares no fields, where a field has another name with the same
external name. -/
def moved : Heap :=
  ⟨#[.record ⟨"P", .freeform⟩ [("user_id", 3)], .record ⟨"P", .freeform⟩ [("userId", 4)],
    .int none 7, .int none 5]⟩

/-- Names of their own in each of the two values are not enough: ignoring a field brings to light
what it covered. -/
theorem diff_uncovers_moved :
    ¬ ∀ (h : Heap) (ignored : List Value) (old new : Value) (p p' : Patch)
      (messages messages' : List Message),
      h.Everywhere h.WellNamed old → h.Everywhere h.WellNamed new →
        diff h .default old new = (.ok p, messages) →
        diff h { Options.default with ignored := ignored } old new = (.ok p', messages') →
          ∀ e ∈ p'.entries, e ∈ p.entries := by
  intro hall
  have hfacts : (∀ a < moved.size, (∀ s ∈ moved.partNames (moved.view (.ref a)), PlainName s) ∧
      (moved.partNames (moved.view (.ref a))).Nodup) ∧
      (diff moved .default (.ref 1) (.ref 2)).1.toOption.map
        (fun p => p.entries.map fun e => (e.1, e.2.1)) = some [(.set, "user_id")] ∧
      (diff moved { Options.default with ignored := [.text "userId"] }
        (.ref 1) (.ref 2)).1.toOption.map (fun p => p.entries.map fun e => (e.1, e.2.1)) =
          some [(.unset, "user_id")] := by decide +kernel
  obtain ⟨hcells, hrun, hrun'⟩ := hfacts
  have hnamed := everywhere_ref wellNamed_nil fun a ha => ⟨(hcells a ha).1, (hcells a ha).2⟩
  obtain ⟨p, hp, hentries⟩ := Option.map_eq_some_iff.mp hrun
  obtain ⟨p', hp', hentries'⟩ := Option.map_eq_some_iff.mp hrun'
  have hsub := hall moved [.text "userId"] (.ref 1) (.ref 2) p p' _ _ (hnamed 1) (hnamed 2)
    (Prod.ext (ok_of_toOption hp) rfl) (Prod.ext (ok_of_toOption hp') rfl)
  have hunset : (Operator.unset, "user_id") ∈ p'.entries.map fun e => (e.1, e.2.1) := by
    simp [hentries']
  obtain ⟨e, he, hname⟩ := List.mem_map.mp hunset
  have hset := List.mem_map_of_mem (f := fun e => (e.1, e.2.1)) (hsub e he)
  rw [hentries, hname] at hset
  cases List.mem_singleton.mp hset

end DocDelta.Diff
