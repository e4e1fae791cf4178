import DocDelta.Proofs.Diff.ConflictFree
import DocDelta.Proofs.Diff.Duality
import DocDelta.Proofs.Diff.Termination
import DocDelta.Proofs.Value.Ordinary

/-! Comparing two values the other way round.

What one direction adds the other removes, and what one sets the other sets back, so both touch
the same places. Nothing of that is immediate: an added field is compared with the zero of its
class and a removed one is tested for being zero, the keys of two mappings come in another order,
and equality is asked with its arguments exchanged. On ordinary values none of it shows, as long as
sequences are replaced or appended to and no zero goes unrecorded. -/
namespace DocDelta.Diff
open Heap Patch Relation
variable {h : Heap} {K : ClassTable} {o : Options} {v w old new : Value} {path path' : Label}
variable {active active' : List (Mark × Mark)} {n m : Nat}

/-! ### Ordinary values -/

/-- What has no zero of its class does not count as zero. -/
theorem reversible_ordinary (hv : h.Ordinary K v) : Reversible h v := by
  intro hz hr hn
  obtain ⟨c, n, u, hview, hw⟩ := hv.common.here.member_of_zero? hz hr hn
  refine ⟨by rw [hview]; nofun, ?_⟩
  rw [isZero_leaf (by rw [hview]; rfl), hview]
  simp [isZeroScalar, numeric?, hw]

theorem links_ordinary (hv : h.Ordinary K v) (hw : ReflTransGen h.Link v w) : h.Ordinary K w := by
  induction hw with
  | refl => exact hv
  | tail _ hl ih => exact ih.link hl

theorem mirrored_ordinary (hv : h.Ordinary K v) : Mirrored h v where
  acyclic := hv.acyclic
  regular := hv.regular
  dated := hv.dated
  fields _ hw hr f hf := reversible_ordinary ((links_ordinary hv hw).link (.field f hr hf))

theorem testable_ordinary (hv : h.Ordinary K v) : Testable h o v :=
  .inr fun _ hw => answers_isZero (links_ordinary hv hw).sane

/-! ### Either way round -/

theorem Tally.symm {base base' : Label} {k k' : Walk Unit}
    (ht : Tally SamePlaces active active' base base' k k') :
    Tally SamePlaces active' active base' base k' k := by
  rcases ht with ⟨hm, hm'⟩ | ⟨cs, ds, hs, hm, hm'⟩
  · exact .inl ⟨hm', hm⟩
  · exact .inr ⟨ds, cs, hs.symm, hm', hm⟩

/-- Two records have the same fields either way round. -/
theorem fields?_swap (hko : (h.view old).kind = .record) (hkn : (h.view new).kind = .record)
    (hform : (h.view new).form = (h.view old).form) :
    ∃ fs gs, (h.view old).fields? [h.view new] = some fs ∧
      (h.view new).fields? [h.view old] = some gs ∧ fs.Perm gs ∧
      ∀ f ∈ fs, h.Leads old f.name ∧ h.Leads new f.name := by
  obtain ⟨fs, hfs, hleads⟩ := fields?_leads hko (.inl hform)
  obtain ⟨gs, hgs, _⟩ := fields?_leads hkn (.inl hform.symm)
  refine ⟨fs, gs, hfs, hgs, ?_, hleads⟩
  cases hd : (h.view old).isDeclared with
  | true =>
    have hd' : (h.view new).isDeclared = true := Object.isDeclared_eq hform ▸ hd
    rw [Object.fields_declared hd] at hfs
    rw [Object.fields_declared hd'] at hgs
    cases hfs
    cases hgs
    rw [Object.fields_eq_of_declared hform hd']
  | false =>
    have hd' : (h.view new).isDeclared = false := Object.isDeclared_eq hform ▸ hd
    obtain ⟨as, has⟩ := Object.attributeNames?_of_record hko
    obtain ⟨bs, hbs⟩ := Object.attributeNames?_of_record hkn
    rw [Object.fields?_names hd] at hfs
    rw [Object.fields?_names hd'] at hgs
    obtain rfl : Field.ofNames [as, bs].flatten = fs := by simpa [has, hbs] using hfs
    obtain rfl : Field.ofNames [bs, as].flatten = gs := by simpa [has, hbs] using hgs
    refine (List.perm_ext_iff_of_nodup (Field.nodup_ofNames _) (Field.nodup_ofNames _)).mpr fun f => ?_
    simp only [Field.mem_ofNames, List.flatten_cons, List.flatten_nil, List.append_nil,
      List.mem_append, or_comm]

/-- A scalar is altered unless it is equal. -/
theorem alters_scalars (hz : o.zeros ≠ .ignore) (hn : Answers (h.isZeroValue new)) :
    Alters active path (h.deepEqual old new) (diffScalars h o old new path) := by
  refine alters_ask fun _ => ?_
  obtain ⟨zero, hzero⟩ := hn
  rw [hzero, ask_ok]
  cases zero with
  | false => exact ⟨.set new, trivial, succeeds_set⟩
  | true =>
    rw [if_pos rfl]
    cases hp : o.zeros with
    | ignore => exact absurd hp hz
    | set => exact ⟨.set new, trivial, succeeds_set⟩
    | unset => exact ⟨.unset, trivial, succeeds_unset⟩

/-- What both ways of going through two mappings need to know of their entries. -/
theorem entries_ordinary (hv : h.Ordinary K v) (hk : (h.view v).kind = .mapping) :
    ∃ es, h.entries? (h.view v) = some es ∧ (es.filterMap fun e => (h.view e.1).text?).Nodup := by
  obtain ⟨es, hes⟩ := hv.regular.here.entries hk
  refine ⟨es, hes, ?_⟩
  have hr := hv.regular.here
  have hc := hv.common.here
  generalize h.view v = x at *
  cases x with
  | map c ds =>
    obtain rfl := Option.some.inj (entries?_of_map.symm.trans hes)
    exact hr.2
  | mapView t => exact absurd hc id
  | _ => cases hes

/-! ### Layers

Two values of one class are compared by their layers first. Whatever is below them is compared both
ways too, and there the walks tally by induction. -/

/-- Below two values, the walks the opposite ways tally. -/
def TallyBelow (h : Heap) (o : Options) (n m : Nat) (active active' : List (Mark × Mark))
    (old new : Value) : Prop :=
  ∀ ⦃x y : Value⦄ ⦃place place' : Label⦄, x = .nil ∨ h.Link old x → y = .nil ∨ h.Link new y →
    place.text = place'.text →
      Tally SamePlaces active active' place place' (diffValues h o n x y place)
        (diffValues h o m y x place')

theorem scalars_reversal (hold : h.Ordinary K old) (hnew : h.Ordinary K new) (hz : o.zeros ≠ .ignore) :
    Tally SamePlaces active active' path path' (diffScalars h o old new path)
      (diffScalars h o new old path') := by
  have hways : Alters active path (h.deepEqual old new) (diffScalars h o old new path) :=
    alters_scalars hz (answers_isZeroScalar hnew.sane.quiet.here)
  have hways' : Alters active' path' (h.deepEqual new old) (diffScalars h o new old path') :=
    alters_scalars hz (answers_isZeroScalar hold.sane.quiet.here)
  rw [hold.deepEqual_comm hnew] at hways
  exact hways.tally hways'

/-- The search for the first difference of two sequences ends. -/
theorem answers_firstChange_ordinary (hold : h.Ordinary K old) (hnew : h.Ordinary K new)
    (xs ys : List Value) (hx : (h.view old).items? = some xs) (hy : (h.view new).items? = some ys) :
    Answers (firstChange h 0 xs ys) :=
  answers_firstChange (fun _ hm => hold.sane.of_part (items?_part (by rw [hx]; exact hm)))
    (fun _ hm => hnew.sane.of_part (items?_part (by rw [hy]; exact hm))) 0

theorem sequences_reversal (hold : h.Ordinary K old) (hnew : h.Ordinary K new)
    (hs : o.strategy = .replace ∨ o.strategy = .append) (hc : (h.view old).cls = (h.view new).cls)
    (hk : (h.view old).kind = .sequence) (hkn : (h.view new).kind = .sequence) :
    Tally SamePlaces active active' path path' (diffSequences h o.strategy old new path)
      (diffSequences h o.strategy new old path') := by
  have hways : Alters active path (h.deepEqual old new) (diffSequences h o.strategy old new path) :=
    alters_sequence hs hc hk hkn (answers_firstChange_ordinary hold hnew)
  have hways' : Alters active' path' (h.deepEqual new old)
      (diffSequences h o.strategy new old path') :=
    alters_sequence hs hc.symm hkn hk (answers_firstChange_ordinary hnew hold)
  rw [hold.deepEqual_comm hnew] at hways
  exact hways.tally hways'

theorem records_reversal (hp : path.text = path'.text) (hk : (h.view old).kind = .record)
    (hkn : (h.view new).kind = .record) (hform : (h.view new).form = (h.view old).form)
    (hbelow : TallyBelow h o n m active active' old new) :
    Tally SamePlaces active active' path path' (diffStructs h o (n + 1) old new path)
      (diffStructs h o (m + 1) new old path') := by
  obtain ⟨fs, gs, hfs, hgs, hperm, hleads⟩ := fields?_swap hk hkn hform
  rw [diffStructs, diffStructs]
  exact tally_fields tallying_places hp hfs hgs (.inr ⟨hperm, fun _ _ => trivial⟩) (fun _ _ => rfl)
    (fun f place => diffValues h o n (h.fieldValue old f.name) (h.fieldValue new f.name) place)
    (fun f place => diffValues h o m (h.fieldValue new f.name) (h.fieldValue old f.name) place)
    fun f hf => hbelow (hleads f hf).1 (hleads f hf).2 (text_joinPath hp rfl)

/-- Looking up the keys of one mapping among those of another ends. -/
theorem answers_find?_ordinary (hold : h.Ordinary K old) (hnew : h.Ordinary K new)
    {as bs : List (Value × Value)} (has : h.entries? (h.view old) = some as)
    (hbs : h.entries? (h.view new) = some bs) (e : Value × Value) (he : e ∈ bs) :
    Answers (h.find? e.1 as) :=
  answers_find? hold.sane has (hnew.regular.hashable_keys hbs e he)
    (hnew.follows.of_within (entries?_below hbs he).1.to_reflTransGen)

theorem mappings_reversal (hold : h.Ordinary K old) (hnew : h.Ordinary K new)
    (hp : path.text = path'.text) (hk : (h.view old).kind = .mapping)
    (hkn : (h.view new).kind = .mapping) (hbelow : TallyBelow h o n m active active' old new) :
    Tally SamePlaces active active' path path' (diffMappings h o (n + 1) old new path)
      (diffMappings h o (m + 1) new old path') := by
  obtain ⟨as, has, hna⟩ := entries_ordinary hold hk
  obtain ⟨bs, hbs, hnb⟩ := entries_ordinary hnew hkn
  refine tally_mappings tallying_places allows_places hp has hbs hbs has
    (answers_find?_ordinary hold hnew has hbs) (answers_find?_ordinary hnew hold hbs has)
    hna hnb hnb hna (fun s => ?_) ?_ (fun _ _ => trivial) fun s l k hl hk => ?_
  · simp only [List.filterMap_append, List.mem_append, or_comm]
  · simp only [List.forall_mem_append, and_comm]
  · exact hbelow (entry_leads has s) (entry_leads hbs s) (text_joinPath hp (hl.trans hk.symm))

/-! ### The walks -/

/-- **Two walks the opposite ways touch the same places**, or both fail. -/
theorem tally_reversal (hs : o.strategy = .replace ∨ o.strategy = .append) (hz : o.zeros ≠ .ignore)
    (hold : h.Ordinary K old) (hnew : h.Ordinary K new) {b : Nat} (hro : rank h old ≤ b)
    (hrn : rank h new ≤ b) (hp : path.text = path'.text) (ha : Ahead h active old)
    (ha' : Ahead h active' new) (hn : 8 * b + 2 ≤ n) (hm : 8 * b + 2 ≤ m) :
    Tally SamePlaces active active' path path' (diffValues h o n old new path)
      (diffValues h o m new old path') := by
  induction b using Nat.strong_induction_on generalizing old new path path' active active' n m with
  | _ b ih =>
  by_cases hnilo : h.view old = .nil
  · exact tally_item hnilo hp ha.unmet ha'.unmet (by omega) (by omega)
      (fields_tally hs (mirrored_ordinary hnew) (testable_ordinary hnew))
  by_cases hniln : h.view new = .nil
  · exact (tally_item hniln hp.symm ha'.unmet ha.unmet (by omega) (by omega)
      (fields_tally hs (mirrored_ordinary hold) (testable_ordinary hold))).symm
  obtain ⟨n, rfl⟩ : ∃ k, n = k + 2 := ⟨n - 2, by omega⟩
  obtain ⟨m, rfl⟩ : ∃ k, m = k + 2 := ⟨m - 2, by omega⟩
  rw [diffValues_objects _ hnilo hniln, diffValues_objects _ hniln hnilo]
  by_cases hc : (h.view old).cls = (h.view new).cls
  swap
  · rw [if_pos hc, if_pos (Ne.symm hc)]
    exact tally_fails (fun s _ => ⟨_, s, rfl⟩) fun s _ => ⟨_, s, rfl⟩
  rw [if_neg (not_not.mpr hc), if_neg (not_not.mpr hc.symm)]
  have hkind := Object.kind_eq hold.follows.here hnew.follows.here hc
  have hform := Object.form_eq hnew.follows.here hold.follows.here hc.symm
  -- whatever is below both values is met for the first time, whichever way they are compared
  have hbelow : TallyBelow h o n m (entered h old new active) (entered h new old active') old new := by
    intro x y place place' hx hy hplace
    have hrx := rank_below hold.acyclic hnilo hx
    have hry := rank_below hnew.acyclic hniln hy
    have hox : h.Ordinary K x := hx.elim (fun he => he ▸ ordinary_nil) hold.link
    have hoy : h.Ordinary K y := hy.elim (fun he => he ▸ ordinary_nil) hnew.link
    exact ih (b - 1) (by omega) hox hoy (by omega) (by omega) hplace
      (ha.enter hold.acyclic hniln hx) (ha'.enter hnew.acyclic hnilo hy) (by omega) (by omega)
  have hfresh := pair_fresh (u := new) ha.untouched hnilo
  have hfresh' := pair_fresh (u := old) ha'.untouched hniln
  rw [← hkind]
  cases hk : (h.view old).kind with
  | record => exact (records_reversal hp hk (hkind.symm.trans hk) hform hbelow).visiting hfresh hfresh'
  | sequence =>
    exact (sequences_reversal hold hnew hs hc hk (hkind.symm.trans hk)).visiting hfresh hfresh'
  | mapping =>
    exact (mappings_reversal hold hnew hp hk (hkind.symm.trans hk) hbelow).visiting hfresh hfresh'
  | _ => exact scalars_reversal hold hnew hz

/-! ### The patches -/

theorem Comparable.symm (hc : Comparable h old new) : Comparable h new old := by
  obtain ⟨hboth, hcls⟩ := hc
  refine ⟨by rwa [Bool.and_comm], fun hne => hcls ?_⟩
  simp only [Bool.and_eq_true, decide_eq_true_eq] at hne ⊢
  exact ⟨hne.1.symm, hne.2.symm⟩

/-- Two orders: a number that becomes zero, a list that grows, a mapping that goes and a text that
comes; who placed them is the same object. -/
def orders : Heap :=
  ⟨#[.record ⟨"Order", .freeform⟩ [("n", 7), ("tags", 4), ("by", 6), ("extra", 3)],
    .record ⟨"Order", .freeform⟩ [("n", 8), ("tags", 5), ("by", 6), ("note", 9)],
    .map none [(6, 7)], .list none [7], .list none [7, 8], .text none "k", .int none 1, .int none 0,
    .text none "z"]⟩

/-- Sequences are appended to, zeros are unset, and who placed an order is ignored. -/
def leaveBy : Options := ⟨[.text "by"], .append, .unset, false, []⟩

end DocDelta.Diff
