import DocDelta.Proofs.Diff.Outcome
import DocDelta.Proofs.Diff.Sharing
import DocDelta.Proofs.Document.Matched
import DocDelta.Proofs.Value.Bisimilarity

/-! Nothing is recorded of equal values.

A comparison asks for deep equality only where it does not go on into its values, so that equal
values come to nothing has to be followed down: their parts are equal again, by field and by key,
and each of the two walks goes on as far as the other. -/
namespace DocDelta
open Heap Relation

/-! ### Steady values -/

namespace Heap
variable (h : Heap) (K : ClassTable)

/-- Something a comparison can be asked about: an object of the heap that does not contain itself,
whose mappings have distinct texts for keys as far as the comparison goes on into them. -/
structure Steady (v : Value) : Prop where
  placed : v = .nil ∨ ∃ a, v = .ref a
  acyclic : h.Acyclic v
  regular : h.Everywhere h.Regular v
  follows : h.Everywhere (Object.Follows K) v
  named : h.Everywhere h.WellNamed v
  texts : ∀ w, ReflTransGen h.Link v w → ∀ es, h.entries? (h.view w) = some es →
    ∀ e ∈ es, ∃ s, (h.view e.1).text? = some s

variable {h K} {v w a b : Value}

theorem steady_nil : h.Steady K .nil where
  placed := .inl rfl
  acyclic := acyclic_nil
  regular := everywhere_nil trivial
  follows := everywhere_nil (Object.follows_nil K)
  named := everywhere_nil wellNamed_nil
  texts w hw es hes := by
    rcases hw.cases_head with rfl | ⟨u, hl, _⟩
    · rw [show h.view .nil = .nil from rfl, entries?_nil] at hes
      cases hes
    · exact absurd rfl hl.view_ne_nil

theorem Steady.link (hv : h.Steady K v) (hl : h.Link v w) : h.Steady K w := by
  rcases hl.below with rfl | hw
  · exact steady_nil
  have hw := hw.to_reflTransGen
  have hplaced : ∃ a, w = .ref a := by
    rcases hv.placed with rfl | ⟨a, rfl⟩
    · exact absurd rfl hl.view_ne_nil
    · exact within_ref hw
  exact ⟨.inr hplaced, hv.acyclic.of_within hw, hv.regular.of_within hw, hv.follows.of_within hw,
    hv.named.of_within hw, fun u hu => hv.texts u (.head hl hu)⟩

theorem Steady.leads (hv : h.Steady K v) {name : String} (hl : h.Leads v name) :
    h.Steady K (h.fieldValue v name) := by
  rcases hl with he | hl
  · rw [he]
    exact steady_nil
  · exact hv.link hl

/-- The entries of a steady mapping. -/
theorem Steady.entries (hv : h.Steady K v) (hk : (h.view v).kind = .mapping) :
    ∃ es, h.entries? (h.view v) = some es ∧ (∀ e ∈ es, ∃ s, (h.view e.1).text? = some s) ∧
      (es.filterMap fun e => (h.view e.1).text?).Nodup := by
  obtain ⟨es, hes⟩ := hv.regular.here.entries hk
  exact ⟨es, hes, hv.texts v .refl es hes,
    (Diff.labelled_keys (everywhere_wellNamed.mp hv.named) hes).2⟩

/-- In a heap whose objects keep these rules and rank above their parts, every object is steady. -/
theorem steady_ref (r : Addr → Nat) (hr : ∀ a < h.size, ∀ b ∈ (h.object a).children, r b < r a)
    (hg : ∀ a < h.size, h.Regular (h.view (.ref a)))
    (hk : ∀ a < h.size, (h.view (.ref a)).Follows K)
    (hn : ∀ a < h.size, h.WellNamed (h.view (.ref a)))
    (ht : ∀ a < h.size, ∀ es ∈ h.entries? (h.view (.ref a)),
      ∀ e ∈ es, ((h.view e.1).text?).isSome = true) (a : Addr) : h.Steady K (.ref a) where
  placed := .inr ⟨a, rfl⟩
  acyclic := acyclic_ref r hr a
  regular := everywhere_ref trivial hg a
  follows := everywhere_ref (Object.follows_nil K) hk a
  named := everywhere_ref wellNamed_nil hn a
  texts w hw es hes e he := by
    have hplaced : w = .nil ∨ ∃ b, w = .ref b := by
      clear hes
      induction hw with
      | refl => exact .inr ⟨a, rfl⟩
      | tail _ hl ih =>
        rcases ih with rfl | ⟨b, rfl⟩
        · exact absurd rfl hl.view_ne_nil
        · exact hl.below.imp_right fun hb => within_ref hb.to_reflTransGen
    rcases hplaced with rfl | ⟨b, rfl⟩
    · rw [show h.view .nil = .nil from rfl, entries?_nil] at hes
      cases hes
    · by_cases hb : b < h.size
      · exact Option.isSome_iff_exists.mp (ht b hb es hes e he)
      · rw [Heap.view, object_of_size_le (Nat.le_of_not_lt hb)] at hes
        cases hes

/-! ### Equal parts -/

/-- An object of the heap equals itself, and so does nothing. -/
theorem deepEqual_self (hv : v = .nil ∨ ∃ a, v = .ref a) : h.deepEqual v v = .ok true := by
  rcases hv with rfl | ⟨a, rfl⟩
  · exact deepEqual_nil
  · refine deepEqual_eq_true.mpr ⟨fun u w => ∃ a, u = .ref a ∧ w = .ref a, ?_, a, rfl, rfl⟩
    rintro _ _ ⟨a, rfl, rfl⟩
    exact .identical (isSame_ref a)

theorem related_of_deepEqual (hn : h.view v ≠ .nil) (he : h.deepEqual v w = .ok true) :
    v = w ∨ Value.isSame h v w = false ∧ h.Related (fun a b => h.deepEqual a b = .ok true) v w := by
  cases hs : Value.isSame h v w with
  | true => exact .inl (eq_of_isSame hs hn)
  | false =>
    refine .inr ⟨rfl, (bisimulation_bisimilar v w (deepEqual_eq_true.mp he)).imp ?_⟩
    exact fun a b => deepEqual_eq_true.mpr

/-- Equal records have equal attributes, or none. -/
theorem fields_equal (hv : v = .nil ∨ ∃ a, v = .ref a) (hk : (h.view v).kind = .record)
    (hkw : (h.view w).kind = .record) (he : h.deepEqual v w = .ok true) (name : String) :
    h.deepEqual (h.fieldValue v name) (h.fieldValue w name) = .ok true := by
  rcases related_of_deepEqual (Object.ne_nil_of_record hk) he with rfl | ⟨hs, hr⟩
  · refine deepEqual_self ?_
    rcases fieldValue_part v name with hnil | hp
    · exact .inl hnil
    · rcases hv with rfl | ⟨a, rfl⟩
      · cases hk
      · exact .inr (part_ref hp)
  · obtain ⟨hnames, hp⟩ := hr.record_parts hs hk
    have hboth : ((h.view v).attribute? name).isSome = ((h.view w).attribute? name).isSome := by
      rw [Bool.eq_iff_iff, Object.attribute?_isSome, Object.attribute?_isSome, hnames,
        Object.isRecord_iff, Object.isRecord_iff, hk, hkw]
    unfold Heap.fieldValue
    cases hx : (h.view v).attribute? name with
    | none =>
      have hy : (h.view w).attribute? name = none := by
        rw [← Option.not_isSome_iff_eq_none, ← hboth, hx]
        decide
      rw [hy]
      exact deepEqual_nil
    | some x =>
      rw [hx] at hboth
      obtain ⟨y, hy⟩ := Option.isSome_iff_exists.mp hboth.symm
      rw [hy]
      exact hp name x y hx hy

theorem Steady.fields_equal (hv : h.Steady K v) (hw : h.Steady K w) (hk : (h.view v).kind = .record)
    (he : h.deepEqual v w = .ok true) (name : String) :
    h.deepEqual (h.fieldValue v name) (h.fieldValue w name) = .ok true :=
  Heap.fields_equal hv.placed hk
    ((Object.kind_eq hv.follows.here hw.follows.here (deepEqual_classes he)).symm.trans hk) he name

/-- Equal mappings have equal entries under the same keys. -/
theorem entries_equal {as bs : List (Value × Value)} (hv : v = .nil ∨ ∃ a, v = .ref a)
    (hk : (h.view v).kind = .mapping) (he : h.deepEqual v w = .ok true)
    (has : h.entries? (h.view v) = some as) (hbs : h.entries? (h.view w) = some bs)
    (hta : ∀ e ∈ as, ∃ s, (h.view e.1).text? = some s)
    (htb : ∀ e ∈ bs, ∃ s, (h.view e.1).text? = some s)
    (hna : (as.filterMap fun e => (h.view e.1).text?).Nodup) (s : String) :
    (h.entry? s as = none ∧ h.entry? s bs = none) ∨
      ∃ x y, h.entry? s as = some x ∧ h.entry? s bs = some y ∧ h.deepEqual x y = .ok true := by
  have hnil : h.view v ≠ .nil := fun hn => by
    rw [hn] at hk
    cases hk
  rcases related_of_deepEqual hnil he with rfl | ⟨hs, hr⟩
  · obtain rfl := Option.some.inj (has.symm.trans hbs)
    cases hx : h.entry? s as with
    | none => exact .inl ⟨rfl, rfl⟩
    | some x =>
      refine .inr ⟨x, x, rfl, rfl, deepEqual_self ?_⟩
      rcases (link_entry has hx).below with hx | hx
      · exact .inl hx
      · rcases hv with rfl | ⟨a, rfl⟩
        · exact absurd rfl hnil
        · exact .inr (within_ref hx.to_reflTransGen)
  · obtain ⟨hl, hp⟩ := hr.mapping_parts hs hk
    rw [has, hbs] at hl hp
    have hfound : ∀ s x, h.entry? s as = some x →
        ∃ y, h.entry? s bs = some y ∧ h.deepEqual x y = .ok true := by
      intro s x hx
      obtain ⟨e, hm, rfl, hes⟩ := entry?_mem hx
      obtain ⟨y, hf, hy⟩ := hp e hm
      rw [Option.getD_some, find?_of_text hes] at hf
      exact ⟨y, Except.ok.inj hf, hy⟩
    cases hx : h.entry? s as with
    | none =>
      refine .inl ⟨rfl, entry?_none_of_length hta hna htb hl (fun t ht => ?_) hx⟩
      obtain ⟨x, hx⟩ := Option.isSome_iff_exists.mp ht
      obtain ⟨y, hy, _⟩ := hfound t x hx
      rw [hy]
      rfl
    | some x =>
      obtain ⟨y, hy, hxy⟩ := hfound s x hx
      exact .inr ⟨x, y, rfl, hy, hxy⟩

theorem Steady.entries_equal (hv : h.Steady K v) (hw : h.Steady K w)
    (hk : (h.view v).kind = .mapping) (he : h.deepEqual v w = .ok true)
    {as bs : List (Value × Value)} (has : h.entries? (h.view v) = some as)
    (hbs : h.entries? (h.view w) = some bs) (s : String) :
    (h.entry? s as = none ∧ h.entry? s bs = none) ∨
      ∃ x y, h.entry? s as = some x ∧ h.entry? s bs = some y ∧ h.deepEqual x y = .ok true :=
  Heap.entries_equal hv.placed hk he has hbs (hv.texts v .refl as has) (hw.texts w .refl bs hbs)
    (Diff.labelled_keys (everywhere_wellNamed.mp hv.named) has).2 s

end Heap

namespace Diff
variable {h : Heap} {K : ClassTable} {o : Options} {v w old new : Value} {path : Label}
variable {active : List (Mark × Mark)} {n : Nat}

/-! ### The walk -/

/-- Where nothing is recorded does not matter. -/
theorem Succeeds.elsewhere {place : Label} {m : Walk Unit} (hm : Succeeds active place [] m) :
    Succeeds active path [] m := by
  intro s hs
  obtain ⟨t, hrun, ht⟩ := hm s hs
  exact ⟨t, hrun, ht.records, ht.active, ht.old, ht.new⟩

theorem succeeds_unlessEqual {m : Walk Unit} (he : h.deepEqual v w = .ok true) :
    Succeeds active path [] (unlessEqual h v w m) := by
  rw [unlessEqual, he]
  exact succeeds_pure

/-- The keys of two mappings with the same texts for keys are those of the first. -/
theorem unionKeys_same {as bs : List (Value × Value)}
    (htb : ∀ e ∈ bs, ∃ s, (h.view e.1).text? = some s)
    (hn : (bs.filterMap fun e => (h.view e.1).text?).Nodup)
    (hsame : ∀ s, h.entry? s as = none → h.entry? s bs = none) :
    unionKeys h as bs = .ok (as.map (·.1)) := by
  have hfinds : ∀ e ∈ bs, Answers (h.find? e.1 as) := fun e he => by
    obtain ⟨s, hs⟩ := htb e he
    exact ⟨_, find?_of_text hs⟩
  have hnone : (bs.filter fun e => lacks h as e.1) = [] := by
    refine List.filter_eq_nil_iff.mpr fun e he => ?_
    obtain ⟨s, hs⟩ := htb e he
    rw [lacks_text hs]
    cases hx : h.entry? s as with
    | some x => exact Bool.false_ne_true
    | none =>
      have hy := hsame s hx
      rw [entry?_of_mem hn he hs] at hy
      cases hy
  rw [unionKeys_eq hfinds, hnone]
  exact congrArg _ (List.append_nil _)

/-- **Comparing equal values records nothing.** -/
theorem succeeds_equal (hv : h.Steady K old) (hw : h.Steady K new)
    (he : h.deepEqual old new = .ok true) (hu : Untouched h (active.map (·.1)) old)
    (hn : 8 * rank h old + 2 ≤ n) : Succeeds active path [] (diffValues h o n old new path) := by
  induction hrank : rank h old using Nat.strong_induction_on generalizing old new active path n with
  | _ k ih =>
    have hc := deepEqual_classes he
    obtain ⟨n, rfl⟩ : ∃ m, n = m + 2 := ⟨n - 2, by omega⟩
    by_cases hnil : h.view old = .nil
    · have hnew : h.view new = .nil := cls_nil_iff.mp (hc ▸ cls_nil_iff.mpr hnil)
      rw [diffValues_nothing n hnil hnew]
      exact succeeds_pure
    have hnew : h.view new ≠ .nil := fun hn => hnil (cls_nil_iff.mp (hc.trans (cls_nil_iff.mpr hn)))
    have hpos := rank_pos hnil
    have hdown : ∀ {x y : Value} {subpath : Label}, h.Steady K x → h.Steady K y →
        (x = .nil ∨ h.Link old x) → h.deepEqual x y = .ok true →
        Succeeds (entered h old new active) subpath [] (diffValues h o n x y subpath) := by
      intro x y subpath hx hy hl hxy
      rcases hl with rfl | hl
      · obtain ⟨n, rfl⟩ : ∃ m, n = m + 2 := ⟨n - 2, by omega⟩
        rw [diffValues_nothing n rfl (cls_nil_iff.mp (deepEqual_classes hxy).symm)]
        exact succeeds_pure
      · have hlt := rank_link hv.acyclic hl
        exact ih _ (hrank ▸ hlt) hx hy hxy (untouched_entered hu hv.acyclic hl) (by omega) rfl
    rw [diffValues_objects _ hnil hnew, if_neg (not_not.mpr hc)]
    cases hk : (h.view old).kind with
    | record =>
      refine Succeeds.visiting (pair_fresh hu hnil) ?_
      have hform := Object.form_eq hv.follows.here hw.follows.here hc
      obtain ⟨fs, hfs, hleads⟩ := activeFields_leads o path hk (.inl hform.symm)
      rw [diffStructs, hfs, ask_ok]
      refine succeeds_forM_nil fun p hp => ?_
      obtain ⟨hold, hnew⟩ := hleads p hp
      exact (hdown (hv.leads hold) (hw.leads hnew) hold
        (hv.fields_equal hw hk he p.1.name)).elsewhere
    | mapping =>
      refine Succeeds.visiting (pair_fresh hu hnil) ?_
      have hkn := (Object.kind_eq hv.follows.here hw.follows.here hc).symm.trans hk
      obtain ⟨as, has, hta, hna⟩ := hv.entries hk
      obtain ⟨bs, hbs, htb, hnb⟩ := hw.entries hkn
      have hequal := hv.entries_equal hw hk he has hbs
      have hkeys : unionKeys h as bs = .ok (as.map (·.1)) :=
        unionKeys_same htb hnb fun s hs => by
          rcases hequal s with ⟨_, hy⟩ | ⟨x, y, hx, _⟩
          · exact hy
          · rw [hs] at hx
            cases hx
      rw [diffMappings, entriesOf, has, entriesOf, hbs, ask_ok, ask_ok, hkeys, ask_ok]
      refine succeeds_forM_nil fun key hkey => ?_
      obtain ⟨e, hm, rfl⟩ := List.mem_map.mp hkey
      obtain ⟨s, hs⟩ := hta e hm
      obtain ⟨l, -, hpath⟩ : ∃ l : Label, l.text = s ∧ keyPath h o path e.1 = _ := keyPath_text hs
      rw [hpath, ask_ok]
      split
      · exact succeeds_pure
      · rename_i subpath _
        rw [valueUnder_text hs, valueUnder_text hs, ask_ok, ask_ok]
        rcases hequal s with ⟨hx, _⟩ | ⟨x, y, hx, hy, hxy⟩
        · exact absurd hs (entry?_eq_none.mp hx e hm)
        · rw [hx, hy]
          have hlx := link_entry has hx
          exact (hdown (hv.link hlx) (hw.link (link_entry hbs hy)) (.inr hlx) hxy).elsewhere
    | sequence => exact (succeeds_unlessEqual he).visiting (pair_fresh hu hnil)
    | _ => exact succeeds_unlessEqual he

/-! ### The patch -/

/-- What a value without cycles contains does not contain itself. -/
theorem grounded_of_acyclic (hv : h.Acyclic v) : Grounded h v := by
  intro u hu hloop
  have hwithin : u = .nil ∨ h.Within v u := by
    clear hloop
    induction hu with
    | refl => exact .inr .refl
    | tail _ hc ih =>
      rcases ih with rfl | ih
      · exact absurd rfl hc.view_ne_nil
      · exact hc.below.imp_right fun hw => ih.trans hw.to_reflTransGen
  have hbelow : ∀ {w : Value}, TransGen (PlainStep h) u w → w = .nil ∨ TransGen h.Part u w := by
    intro w hw
    induction hw with
    | single hp => exact hp.2.below
    | tail _ hp ih =>
      rcases ih with rfl | ih
      · exact absurd rfl hp.2.view_ne_nil
      · exact hp.2.below.imp_right fun hw => ih.trans hw
  have hfirst : u ≠ .nil := by
    rintro rfl
    obtain ⟨w, hp, _⟩ := TransGen.head'_iff.mp hloop
    exact absurd rfl hp.2.view_ne_nil
  exact hv u (hwithin.resolve_left hfirst) ((hbelow hloop).resolve_left hfirst)

/-- The search for shared references succeeds on such values, and finds one just when there is
one. -/
theorem prepare_acyclic (hv : h.Acyclic old) (hw : h.Acyclic new) :
    ∃ u, (prepare h o old new).run .start = (.ok (), u) ∧
      ∀ t : State, t.old = u.old → t.new = u.new →
        (sharedIn o t = none ↔ (o.detectsSharing = true → ¬ ∃ a, IsShared h old new a)) := by
  cases hd : o.detectsSharing with
  | false =>
    refine ⟨.start, by rw [prepare, hd]; rfl, fun t _ _ => ?_⟩
    rw [sharedIn, hd]
    exact iff_of_true rfl fun hs => absurd hs Bool.false_ne_true
  | true =>
    obtain ⟨u, L, M, hrun, hL, hM, hold, hnew⟩ :=
      run_prepare hd (grounded_of_acyclic hv) (grounded_of_acyclic hw)
    refine ⟨u, hrun, fun t ht ht' => ?_⟩
    rw [sharedIn, if_pos hd, sharingFault, ht, ht', hold, hnew]
    constructor
    · intro hnone _ hs
      obtain ⟨a, r, q, s, q', hfound, _⟩ := findShared_first hL hM hs
      rw [hfound] at hnone
      cases hnone
    · intro hs
      rw [findShared_none hL hM (hs rfl)]
      rfl

/-- **Equal values make an empty patch**, whatever is ignored and however changes are recorded,
unless shared references are looked for and there are some. -/
theorem diff_equal (hv : h.Steady K old) (hw : h.Steady K new) (hn : h.view old ≠ .nil)
    (he : h.deepEqual old new = .ok true)
    (hs : o.detectsSharing = true → ¬ ∃ a, IsShared h old new a) :
    (diff h o old new).1 = .ok .empty := by
  have hcomparable : Comparable h old new := by
    refine ⟨?_, by simp [deepEqual_classes he]⟩
    rw [isNil_false hn, Bool.false_and]
    exact Bool.false_ne_true
  have hbound : rank h old < h.pairBound old new := rank_lt_pairBound old new
  obtain ⟨u, hu, hnone⟩ := prepare_acyclic (o := o) hv.acyclic hw.acyclic
  obtain ⟨hpatch, hlabels, hactive⟩ := prepare_start hu
  have hsucceeds : Succeeds [] (.plain "") [] (compare h o old new (.plain "")) :=
    succeeds_equal hv hw he (untouched_nil old) (by rw [stepBound]; omega)
  obtain ⟨t, ht, hleaves⟩ := hsucceeds u hactive
  have hempty : t.patch = .empty := (congrArg Prod.fst hleaves.records).trans hpatch
  rw [diff_of_run hcomparable hu ht, (hnone t hleaves.old hleaves.new).mpr hs, hempty]

end Diff
end DocDelta
