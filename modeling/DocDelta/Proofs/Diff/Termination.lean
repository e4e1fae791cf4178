import DocDelta.Proofs.Diff.Pairing
import DocDelta.Proofs.Diff.Run
import DocDelta.Proofs.Diff.Steps

/-! A comparison comes to an end.

The walks enter each pair of objects once on a branch, so the pairs not entered yet, together
with the weight of the values in place, bound how deep a comparison goes: `stepBound` is
enough for any two values, however they contain and share themselves and each other. What a
branch has entered leads to where it is by fields and entries, so a pair met again belongs to a
record or mapping that reaches itself that way. -/
namespace DocDelta.Diff
open Heap Relation

variable {h : Heap} {K : ClassTable} {cyclic : Prop} {active : List (Mark × Mark)}

/-! ### Sequences -/

section Sequences
variable {old new : Value} {path : Label}

theorem itemsOf_sequence {v : Value} (hk : (h.view v).kind = .sequence) :
    ∃ xs, itemsOf h v = .ok xs ∧ ∀ x ∈ xs, h.Part v x := by
  obtain ⟨xs, hxs⟩ := Object.items?_of_sequence hk
  exact ⟨xs, itemsOf_items hk hxs, fun x hx => items?_part (by rw [hxs]; exact hx)⟩

theorem ends_unlessEqual {body : Walk Unit} (ho : h.Sane K old) (hn : h.Sane K new)
    (hb : Ends cyclic active body) : Ends cyclic active (unlessEqual h old new body) :=
  ends_ask_answer (answers_deepEqual ho hn) fun _ _ => ends_ite (ends_pure ()) hb

theorem ends_fallBack (ho : h.Sane K old) (hn : h.Sane K new) (reason : String) :
    Ends cyclic active (fallBack h reason old new path) :=
  ends_bind (ends_log _ _) fun _ => ends_unlessEqual ho hn (ends_onPatch _)

theorem ends_setAt (index : Nat) (v : Value) : Ends cyclic active (setAt index v path) :=
  ends_bind ends_nextLabel fun _ => ends_bind (ends_onPatch _) fun _ => ends_onPatch _

theorem answers_changedPlaces {xs ys : List Value} (hx : ∀ x ∈ xs, h.Sane K x)
    (hy : ∀ y ∈ ys, h.Sane K y) (i : Nat) : Answers (changedPlaces h i xs ys) := by
  induction xs generalizing ys i with
  | nil => exact answers_ok []
  | cons x xs ih =>
    cases ys with
    | nil => exact answers_ok []
    | cons y ys =>
      refine answers_bind (answers_deepEqual (hx x (List.mem_cons_self ..))
        (hy y (List.mem_cons_self ..))) fun _ _ => ?_
      refine answers_bind (ih (fun z hz => hx z (List.mem_cons_of_mem x hz))
        (fun z hz => hy z (List.mem_cons_of_mem y hz)) (i + 1)) fun _ _ => answers_pure _

theorem answers_firstChange {xs ys : List Value} (hx : ∀ x ∈ xs, h.Sane K x)
    (hy : ∀ y ∈ ys, h.Sane K y) (i : Nat) : Answers (firstChange h i xs ys) := by
  induction xs generalizing ys i with
  | nil => exact answers_ok none
  | cons x xs ih =>
    cases ys with
    | nil => exact answers_ok none
    | cons y ys =>
      refine answers_bind (answers_deepEqual (hx x (List.mem_cons_self ..))
        (hy y (List.mem_cons_self ..))) fun _ _ => answers_ite ?_ (answers_pure _)
      exact ih (fun z hz => hx z (List.mem_cons_of_mem x hz))
        (fun z hz => hy z (List.mem_cons_of_mem y hz)) (i + 1)

theorem ends_appendSequence (ho : h.Sane K old) (hn : h.Sane K new)
    (hko : (h.view old).kind = .sequence) (hkn : (h.view new).kind = .sequence) :
    Ends cyclic active (appendSequence h old new path) := by
  obtain ⟨xs, hxs, hx⟩ := itemsOf_sequence hko
  obtain ⟨ys, hys, hy⟩ := itemsOf_sequence hkn
  have hchange := answers_firstChange (fun x hm => ho.of_part (hx x hm))
    (fun y hm => hn.of_part (hy y hm)) 0
  refine ends_unlessEqual ho hn ?_
  refine ends_ask_ok hxs (ends_ask_ok hys ?_)
  refine ends_ite (ends_fallBack ho hn _) (ends_ask_answer hchange fun change _ => ?_)
  cases change with
  | some i => exact ends_fallBack ho hn _
  | none => exact ends_onPatch _

theorem ends_smartSequence (ho : h.Sane K old) (hn : h.Sane K new)
    (hko : (h.view old).kind = .sequence) (hkn : (h.view new).kind = .sequence) :
    Ends cyclic active (smartSequence h old new path) := by
  obtain ⟨xs, hxs, hx⟩ := itemsOf_sequence hko
  obtain ⟨ys, hys, hy⟩ := itemsOf_sequence hkn
  have hchanged := answers_changedPlaces (fun x hm => ho.of_part (hx x hm))
    (fun y hm => hn.of_part (hy y hm)) 0
  refine ends_unlessEqual ho hn ?_
  refine ends_ask_ok hxs (ends_ask_ok hys ?_)
  refine ends_ite (ends_fallBack ho hn _) (ends_ite (ends_fallBack ho hn _) ?_)
  refine ends_ask_answer hchanged fun changed _ => ?_
  refine ends_ite (ends_fallBack ho hn _) (ends_ite ?_ (ends_ite (ends_onPatch _) ?_))
  · exact ends_forM fun i _ => ends_setAt i _
  · exact ends_fallBack ho hn _

theorem identifier?_within {item w : Value} {name : String}
    (hi : identifier? h item name = some w) : h.Within item w := by
  unfold identifier? at hi
  obtain ⟨hfound, _⟩ := Option.filter_eq_some_iff.mp hi
  split at hfound
  · rename_i es hes
    obtain ⟨e, he, rfl⟩ := Option.map_eq_some_iff.mp hfound
    exact (entries?_below hes (List.mem_of_find?_eq_some he)).2.to_reflTransGen
  · exact .single (attribute?_mem hfound)

theorem answers_decideByIdentifier (ho : h.Sane K old) (hn : h.Sane K new) (names : List String) :
    Answers (decideByIdentifier h old new names) := by
  induction names with
  | nil => exact answers_deepEqual ho hn
  | cons name names ih =>
    unfold decideByIdentifier
    split
    · exact ih
    · rename_i y hy
      have hys := hn.of_within (identifier?_within hy)
      refine answers_bind (answers_isZeroScalar hys.quiet.here) fun _ _ => answers_ite ih ?_
      split
      · exact ih
      · rename_i x hx
        exact answers_deepEqual (ho.of_within (identifier?_within hx)) hys

theorem answers_areSimilar (ho : h.Sane K old) (hn : h.Sane K new) :
    Answers (areSimilar h old new) :=
  answers_ite (answers_decideByIdentifier ho hn identifiers) (answers_deepEqual ho hn)

theorem answers_findSimilar {item : Value} (hi : h.Sane K item) {xs : List (Nat × Value)}
    (hx : ∀ e ∈ xs, h.Sane K e.2) : Answers (findSimilar h item xs) := by
  induction xs with
  | nil => exact answers_ok none
  | cons e xs ih =>
    refine answers_bind (answers_areSimilar (hx e (List.mem_cons_self ..)) hi) fun _ _ => ?_
    exact answers_ite (answers_pure _) (ih fun d hd => hx d (List.mem_cons_of_mem e hd))

theorem answers_add {p : Pairing} {item : Value} (hi : h.Sane K item)
    (hp : ∀ e ∈ p.unused, h.Sane K e.2) : Answers (p.add h item) := by
  refine answers_bind (answers_findSimilar hi hp) fun found hf => ?_
  cases found with
  | none => exact answers_pure _
  | some e =>
    refine answers_bind (answers_deepEqual (hp e (findSimilar_mem hf)) hi) fun equal _ => ?_
    exact answers_ite (answers_pure _) (answers_pure _)

theorem answers_pairUp {xs ys : List Value} (hx : ∀ x ∈ xs, h.Sane K x)
    (hy : ∀ y ∈ ys, h.Sane K y) : Answers (pairUp h xs ys) := by
  have hfold : ∀ (ys : List Value) (p : Pairing), (∀ y ∈ ys, h.Sane K y) →
      (∀ e ∈ p.unused, h.Sane K e.2) → Answers (ys.foldlM (fun p y => p.add h y) p) := by
    intro ys
    induction ys with
    | nil => exact fun p _ _ => answers_pure p
    | cons y ys ih =>
      intro p hy hp
      rw [List.foldlM_cons]
      refine answers_bind (answers_add (hy y (List.mem_cons_self ..)) hp) fun q hq => ?_
      exact ih q (fun z hz => hy z (List.mem_cons_of_mem y hz)) fun e he =>
        hp e ((pairs_of_add hq).unused_subset he)
  refine hfold ys _ hy fun e he => ?_
  obtain ⟨⟨x, i⟩, hm, rfl⟩ := List.mem_map.mp he
  exact hx x (List.fst_mem_of_mem_zipIdx hm)

theorem ends_mergeSequence (ho : h.Sane K old) (hn : h.Sane K new)
    (hko : (h.view old).kind = .sequence) (hkn : (h.view new).kind = .sequence) :
    Ends cyclic active (mergeSequence h old new path) := by
  obtain ⟨xs, hxs, hx⟩ := itemsOf_sequence hko
  obtain ⟨ys, hys, hy⟩ := itemsOf_sequence hkn
  have hpairs := answers_pairUp (fun x hm => ho.of_part (hx x hm))
    (fun y hm => hn.of_part (hy y hm))
  refine ends_unlessEqual ho hn (ends_ask_ok hxs (ends_ite (ends_onPatch _) ?_))
  refine ends_ask_ok hys (ends_ite (ends_onPatch _) (ends_ite (ends_fallBack ho hn _) ?_))
  refine ends_ask_answer hpairs fun p _ => ends_ite (ends_fallBack ho hn _) ?_
  refine ends_ite (ends_fallBack ho hn _) (ends_ite (ends_onPatch _) ?_)
  exact ends_forM fun e _ => ends_setAt e.1 e.2

theorem ends_diffSequences (strategy : Strategy) (ho : h.Sane K old) (hn : h.Sane K new)
    (hko : (h.view old).kind = .sequence) (hkn : (h.view new).kind = .sequence) :
    Ends cyclic active (diffSequences h strategy old new path) := by
  refine ends_unlessEqual ho hn ?_
  cases strategy with
  | replace => exact ends_unlessEqual ho hn (ends_onPatch _)
  | append => exact ends_appendSequence ho hn hko hkn
  | smart => exact ends_smartSequence ho hn hko hkn
  | merge => exact ends_mergeSequence ho hn hko hkn

end Sequences

/-! ### Room -/

/-- The identities of all values that have one. -/
def identities (h : Heap) : Finset Mark := insert none h.marks

/-- How many pairs of objects a branch has not entered yet. -/
def free (h : Heap) (active : List (Mark × Mark)) : Nat :=
  room (identities h ×ˢ identities h) active

theorem free_le (h : Heap) (active : List (Mark × Mark)) : free h active ≤ (h.size + 1) * (h.size + 1) := by
  refine (room_le_card _ _).trans ?_
  have hcard : (identities h).card ≤ h.size + 1 :=
    (Finset.card_insert_le _ _).trans (Nat.succ_le_succ (card_marks h))
  rw [Finset.card_product]
  exact Nat.mul_le_mul hcard hcard

theorem identity_mem {v : Value} {m : Mark} (hv : v.identity h = some m) : m ∈ identities h := by
  by_cases hn : h.view v = .nil
  · cases v with
    | ref a =>
      have : h.object a = .nil := by
        generalize ho : h.object a = o at hn
        rw [Heap.view, ho] at hn
        cases o <;> first | rfl | cases hn
      simp only [Value.identity, this] at hv
      cases hv
      exact Finset.mem_insert_self none h.marks
    | inline o =>
      cases hn
      cases hv
      exact Finset.mem_insert_self none h.marks
  · exact Finset.mem_insert_of_mem (identity_mem_marks hn hv)

theorem free_cons {old new : Value} {p : Mark × Mark} (hp : pairOf h old new = some p)
    (hn : p ∉ active) : free h (p :: active) < free h active := by
  obtain ⟨hx, hy⟩ := pairOf_eq_some hp
  exact room_cons (Finset.mk_mem_product (identity_mem hx) (identity_mem hy)) hn

/-! ### One step down -/

section Down
variable {o : Options} {n : Nat} {old new : Value} {path : Label}

theorem keyPath_foreseen {key : Value} :
    ∀ e, keyPath h o path key = .error e → Foreseen cyclic e := by
  intro e he
  unfold keyPath at he
  split at he
  · cases he
    trivial
  · cases he

theorem entriesOf_mapping (hv : h.Sane K old) (hk : (h.view old).kind = .mapping) :
    ∃ es, entriesOf h old = .ok es ∧ h.entries? (h.view old) = some es := by
  obtain ⟨es, hes⟩ := hv.regular.here.entries hk
  exact ⟨es, by rw [entriesOf, hes], hes⟩

theorem ends_nothing (ho : h.view old = .nil) (hn : h.view new = .nil) (hsteps : 2 ≤ n) :
    Ends cyclic active (diffValues h o n old new path) := by
  obtain ⟨n, rfl⟩ : ∃ m, n = m + 2 := ⟨n - 2, by omega⟩
  rw [diffValues_nothing n ho hn]
  exact ends_pure ()

/-- Two mappings are compared where the values that they hold under a key are. -/
theorem ends_diffMappings (ho : h.Sane K old) (hn : h.Sane K new)
    (hko : (h.view old).kind = .mapping) (hkn : (h.view new).kind = .mapping)
    (hbody : ∀ x y subpath, x = .nil ∨ h.Link old x → y = .nil ∨ h.Link new y →
      Ends cyclic active (diffValues h o n x y subpath)) :
    Ends cyclic active (diffMappings h o (n + 1) old new path) := by
  obtain ⟨as, has, hea⟩ := entriesOf_mapping ho hko
  obtain ⟨bs, hbs, heb⟩ := entriesOf_mapping hn hkn
  have hfirst : ∀ e ∈ as, h.hashable e.1 = true ∧ h.Everywhere (Object.Follows K) e.1 :=
    fun e hm => ⟨ho.regular.hashable_keys hea e hm,
      ho.named.of_within (entries?_below hea hm).1.to_reflTransGen⟩
  have hsecond : ∀ e ∈ bs, h.hashable e.1 = true ∧ h.Everywhere (Object.Follows K) e.1 :=
    fun e hm => ⟨hn.regular.hashable_keys heb e hm,
      hn.named.of_within (entries?_below heb hm).1.to_reflTransGen⟩
  have hunion := unionKeys_eq fun e hm =>
    answers_find? ho hea (hsecond e hm).1 (hsecond e hm).2
  rw [diffMappings]
  refine ends_ask_ok has (ends_ask_ok hbs (ends_ask_ok hunion (ends_forM fun key hkey => ?_)))
  have hkeys : h.hashable key = true ∧ h.Everywhere (Object.Follows K) key := by
    rcases List.mem_append.mp hkey with hm | hm
    · obtain ⟨e, he, rfl⟩ := List.mem_map.mp hm
      exact hfirst e he
    · obtain ⟨e, he, rfl⟩ := List.mem_map.mp hm
      exact hsecond e (List.mem_filter.mp he).1
  refine ends_ask_bind keyPath_foreseen fun subpath _ => ?_
  cases subpath with
  | none => exact ends_pure ()
  | some subpath =>
    have hx := answers_bind (answers_find? ho hea hkeys.1 hkeys.2) fun found _ =>
      answers_pure (found.getD .nil)
    have hy := answers_bind (answers_find? hn heb hkeys.1 hkeys.2) fun found _ =>
      answers_pure (found.getD .nil)
    refine ends_ask_answer hx fun x hx => ends_ask_answer hy fun y hy => ?_
    exact hbody x y subpath (valueUnder_link hea hx) (valueUnder_link heb hy)

end Down

/-! ### Adding and removing -/

/-- Where a branch is that adds or removes a value: what it has entered alone leads here. -/
structure Reached (h : Heap) (K : ClassTable) (cyclic : Prop) (active : List (Mark × Mark))
    (v : Value) : Prop where
  sane : h.Sane K v
  entered : ∀ a, (some a, none) ∈ active → TransGen h.Link (.ref a) v
  loops : ∀ w, h.Within v w → TransGen h.Link w w → cyclic

section Alone
variable {v w : Value}

theorem Reached.link (hv : Reached h K cyclic active v) (hl : h.Link v w) :
    Reached h K cyclic active w := by
  refine ⟨hv.sane.of_link hl, fun a ha => .tail (hv.entered a ha) hl, fun u hu => ?_⟩
  rcases hl.below with rfl | hw
  · rw [within_nil hu]
    intro hloop
    obtain ⟨x, hx, _⟩ := TransGen.head'_iff.mp hloop
    exact absurd rfl hx.view_ne_nil
  · exact hv.loops u (hw.to_reflTransGen.trans hu)

theorem Reached.enter {a : Addr} (hv : Reached h K cyclic active (.ref a)) (hl : h.Link (.ref a) w) :
    Reached h K cyclic ((some a, none) :: active) w := by
  have hw := hv.link hl
  refine ⟨hw.sane, fun b hb => ?_, hw.loops⟩
  rcases List.mem_cons.mp hb with hab | hb
  · cases hab
    exact .single hl
  · exact hw.entered b hb

/-- Entering a value alone leaves less room, or what it leads to weighs less. -/
theorem ends_visiting_alone {path : Label} {body : Walk Unit} (hv : Reached h K cyclic active v)
    (hn : h.view v ≠ .nil)
    (hbody : ∀ inner, (∀ w, h.Link v w → Reached h K cyclic inner w ∧
      free h inner + weight w < free h active + weight v) → Ends cyclic inner body) :
    Ends cyclic active (visiting h v .nil path body) := by
  have hpair : ∀ p, pairOf h v .nil = some p → ∃ a, v = .ref a ∧ p = (some a, none) := by
    rintro ⟨x, y⟩ hp
    obtain ⟨hx, hy⟩ := pairOf_eq_some hp
    obtain ⟨a, rfl, rfl, _⟩ := identity_eq_some hn hx
    cases hy
    exact ⟨a, rfl, rfl⟩
  refine ends_visiting (fun hnone => hbody active fun w hl => ⟨hv.link hl, ?_⟩) ?_ ?_
  · rcases pairOf_eq_none hnone with hm | hm
    · obtain ⟨o, rfl, _⟩ := identity_eq_none hm
      have := hl.weight_lt
      omega
    · cases hm
  · intro p hp hin
    obtain ⟨a, rfl, rfl⟩ := hpair p hp
    exact hv.loops _ .refl (hv.entered a hin)
  · intro p hp hout
    have hfree := free_cons hp hout
    obtain ⟨a, rfl, rfl⟩ := hpair p hp
    refine hbody _ fun w hl => ⟨hv.enter hl, ?_⟩
    have := hl.weight_le
    omega

variable {o : Options} {n : Nat} {x : Value} {path : Label}

/-- Records are added within a number of steps. -/
def AddsIn (h : Heap) (K : ClassTable) (o : Options) (cyclic : Prop) (n : Nat) : Prop :=
  ∀ active v path, Reached h K cyclic active v → (h.view v).isRecord = true →
    8 * (free h active + weight v) + 2 ≤ n → Ends cyclic active (addStructFields h o n v path)

theorem ends_values_added (hadd : ∀ m < n, AddsIn h K o cyclic m) (hx : h.view x = .nil)
    (hv : Reached h K cyclic active v) (hn : 8 * (free h active + weight v) + 4 ≤ n) :
    Ends cyclic active (diffValues h o n x v path) := by
  obtain ⟨n, rfl⟩ : ∃ m, n = m + 2 := ⟨n - 2, by omega⟩
  by_cases hnil : h.view v = .nil
  · exact ends_nothing hx hnil (by omega)
  · rw [diffValues_added n hx hnil]
    split
    · rename_i hr
      exact hadd n (by omega) active v path hv hr (by omega)
    · exact ends_onPatch _

/-- A mapping is added as if it were compared with an empty one. -/
theorem ends_mappings_added (hadd : ∀ m < n, AddsIn h K o cyclic m)
    (hx : h.Sane K x) (hkx : (h.view x).kind = .mapping) (hempty : h.parts x = [])
    (hv : Reached h K cyclic active v) (hkv : (h.view v).kind = .mapping)
    (hn : 8 * (free h active + weight v) + 5 ≤ n) :
    Ends cyclic active (diffMappings h o n x v path) := by
  obtain ⟨n, rfl⟩ : ∃ m, n = m + 1 := ⟨n - 1, by omega⟩
  refine ends_diffMappings hx hv.sane hkx hkv fun a b subpath ha hb => ?_
  have hnil : a = .nil := by
    rcases ha with rfl | ha
    · rfl
    · rcases ha.below with rfl | hbelow
      · rfl
      · obtain ⟨u, hu, _⟩ := TransGen.head'_iff.mp hbelow
        rw [Heap.Part, hempty] at hu
        cases hu
  have hadd : ∀ m < n, AddsIn h K o cyclic m := fun m hm => hadd m (hm.trans (Nat.lt_succ_self n))
  subst hnil
  rcases hb with rfl | hb
  · exact ends_nothing rfl rfl (by omega)
  · have := hb.weight_le
    exact ends_values_added hadd rfl (hv.link hb) (by omega)

/-- A value in place other than nothing is not entered. -/
theorem ends_visiting_inline {z : Object Value} {body : Walk Unit} (hz : z ≠ .nil)
    (hbody : Ends cyclic active body) :
    Ends cyclic active (visiting h (.inline z) v path body) := by
  have hpair : pairOf h (.inline z) v = none := by
    have : Value.identity h (.inline z) = none := by
      cases z <;> first | rfl | exact absurd rfl hz
    rw [pairOf, this]
    rfl
  refine ends_visiting (fun _ => hbody) ?_ ?_ <;>
  · intro p hp
    rw [hpair] at hp
    cases hp

theorem ends_diffScalars (hx : h.Sane K x) (hv : h.Sane K v) :
    Ends cyclic active (diffScalars h o x v path) := by
  refine ends_unlessEqual hx hv ?_
  refine ends_ask_answer (answers_isZeroScalar hv.quiet.here) fun _ _ => ends_ite ?_ (ends_onPatch _)
  cases o.zeros with
  | unset => exact ends_onPatch _
  | set => exact ends_onPatch _
  | ignore => exact ends_log _ _

/-- A value other than a record is added by comparing it with the zero of its class. -/
theorem ends_zero_added (hadd : ∀ m < n, AddsIn h K o cyclic m) {z : Object Value}
    (hz : (h.view v).zero? = some z) (hr : (h.view v).isRecord = false)
    (hv : Reached h K cyclic active v) (hn : 8 * (free h active + weight v) + 6 ≤ n) :
    Ends cyclic active (diffValues h o n (.inline z) v path) := by
  obtain ⟨n, rfl⟩ : ∃ m, n = m + 1 := ⟨n - 1, by omega⟩
  have hadd : ∀ m < n, AddsIn h K o cyclic m := fun m hm => hadd m (hm.trans (Nat.lt_succ_self n))
  have hb := Object.zero?_blank hz
  have hzero := sane_zero hv.sane hz
  have hkz := hb.kind
  have hvnil : h.view v ≠ .nil := fun hn => by rw [hn] at hz; cases hz
  rw [diffValues_objects n (show h.view (.inline z) ≠ .nil from hb.ne_nil) hvnil, view_inline]
  refine ends_ite (ends_throw trivial) ?_
  cases hk : z.kind with
  | record => exact absurd (Object.isRecord_iff.mpr (hkz ▸ hk)) (by rw [hr]; exact Bool.false_ne_true)
  | sequence =>
    exact ends_visiting_inline hb.ne_nil (ends_diffSequences _ hzero hv.sane hk (hkz ▸ hk))
  | mapping =>
    exact ends_visiting_inline hb.ne_nil
      (ends_mappings_added hadd hzero hk hb.children hv (hkz ▸ hk) (by omega))
  | nil => exact ends_diffScalars hzero hv.sane
  | time => exact ends_diffScalars hzero hv.sane
  | scalar => exact ends_diffScalars hzero hv.sane

theorem ends_diffAdded (hadd : ∀ m < n, AddsIn h K o cyclic m) (hv : Reached h K cyclic active v)
    (hn : 8 * (free h active + weight v) + 7 ≤ n) : Ends cyclic active (diffAdded h o n v path) := by
  obtain ⟨n, rfl⟩ : ∃ m, n = m + 1 := ⟨n - 1, by omega⟩
  have hadd : ∀ m < n + 1, AddsIn h K o cyclic m := hadd
  rw [diffAdded]
  refine ends_ite (ends_pure ()) ?_
  split
  · rename_i hr
    exact hadd n (Nat.lt_succ_self n) active v path hv hr (by omega)
  · rename_i hr
    split
    · exact ends_onPatch _
    · rename_i z hz
      exact ends_zero_added (fun m hm => hadd m (hm.trans (Nat.lt_succ_self n))) hz
        (Bool.eq_false_iff.mpr hr) hv (by omega)

/-- Records are added within as many steps as they may need. -/
theorem addsIn (h : Heap) (K : ClassTable) (o : Options) (cyclic : Prop) (n : Nat) :
    AddsIn h K o cyclic n := by
  induction n using Nat.strong_induction_on with
  | _ n ih =>
    intro active v path hv hr hn
    obtain ⟨n, rfl⟩ : ∃ m, n = m + 1 := ⟨n - 1, by omega⟩
    have hk := Object.isRecord_iff.mp hr
    have hnil := Object.ne_nil_of_record hk
    obtain ⟨fs, hfs, hleads⟩ := activeFields_leads o path hk (nothing_beside v)
    rw [addStructFields]
    refine ends_visiting_alone hv hnil fun inner hinner => ends_ask_ok hfs (ends_forM ?_)
    rintro ⟨f, subpath⟩ hp
    rcases (hleads _ hp).1 with he | hl
    · change Ends cyclic inner (diffAdded h o n (h.fieldValue v f.name) subpath)
      rw [he]
      obtain ⟨n, rfl⟩ : ∃ m, n = m + 1 := ⟨n - 1, by omega⟩
      rw [diffAdded]
      exact ends_pure ()
    · obtain ⟨hreach, hless⟩ := hinner (h.fieldValue v f.name) hl
      exact ends_diffAdded (fun m hm => ih m (hm.trans (Nat.lt_succ_self n))) hreach (by omega)

/-- Records are removed within a number of steps. -/
def RemovesIn (h : Heap) (K : ClassTable) (o : Options) (cyclic : Prop) (n : Nat) : Prop :=
  ∀ active v path, Reached h K cyclic active v → (h.view v).isRecord = true →
    8 * (free h active + weight v) + 2 ≤ n → Ends cyclic active (unsetStructFields h o n v path)

theorem ends_values_removed (hremove : ∀ m < n, RemovesIn h K o cyclic m) (hx : h.view x = .nil)
    (hv : Reached h K cyclic active v) (hn : 8 * (free h active + weight v) + 4 ≤ n) :
    Ends cyclic active (diffValues h o n v x path) := by
  obtain ⟨n, rfl⟩ : ∃ m, n = m + 2 := ⟨n - 2, by omega⟩
  by_cases hnil : h.view v = .nil
  · exact ends_nothing hnil hx (by omega)
  rw [diffValues_removed n hnil hx]
  split
  · rename_i hr
    exact hremove n (by omega) active v path hv hr (by omega)
  · exact ends_onPatch _

theorem ends_diffRemoved (hremove : ∀ m < n, RemovesIn h K o cyclic m)
    (hv : Reached h K cyclic active v) (hn : 8 * (free h active + weight v) + 7 ≤ n) :
    Ends cyclic active (diffRemoved h o n v path) := by
  obtain ⟨n, rfl⟩ : ∃ m, n = m + 1 := ⟨n - 1, by omega⟩
  have hremove : ∀ m < n + 1, RemovesIn h K o cyclic m := hremove
  rw [diffRemoved]
  refine ends_ask_answer (answers_isZero hv.sane) fun zero _ => ends_ite (ends_pure ()) ?_
  split
  · rename_i hr
    exact hremove n (Nat.lt_succ_self n) active v path hv hr (by omega)
  · split
    · rename_i es hes
      refine ends_forM ?_
      rintro ⟨key, item⟩ hm
      have hl : h.Link v item := .entry hes hm
      have := hl.weight_le
      refine ends_ask_bind keyPath_foreseen fun subpath _ => ?_
      cases subpath with
      | none => exact ends_pure ()
      | some subpath =>
        exact ends_values_removed (fun m hm => hremove m (hm.trans (Nat.lt_succ_self n))) rfl
          (hv.link hl) (by omega)
    · exact ends_onPatch _

theorem removesIn (h : Heap) (K : ClassTable) (o : Options) (cyclic : Prop) (n : Nat) :
    RemovesIn h K o cyclic n := by
  induction n using Nat.strong_induction_on with
  | _ n ih =>
    intro active v path hv hr hn
    obtain ⟨n, rfl⟩ : ∃ m, n = m + 1 := ⟨n - 1, by omega⟩
    have hk := Object.isRecord_iff.mp hr
    have hnil := Object.ne_nil_of_record hk
    obtain ⟨fs, hfs, hleads⟩ := activeFields_leads o path hk (nothing_beside v)
    rw [unsetStructFields]
    refine ends_visiting_alone hv hnil fun inner hinner => ends_ask_ok hfs (ends_forM ?_)
    rintro ⟨f, subpath⟩ hp
    rcases (hleads _ hp).1 with he | hl
    · change Ends cyclic inner (diffRemoved h o n (h.fieldValue v f.name) subpath)
      rw [he]
      obtain ⟨n, rfl⟩ : ∃ m, n = m + 1 := ⟨n - 1, by omega⟩
      rw [diffRemoved]
      exact ends_ask_ok isZero_nil (ends_pure ())
    · obtain ⟨hreach, hless⟩ := hinner (h.fieldValue v f.name) hl
      exact ends_diffRemoved (fun m hm => ih m (hm.trans (Nat.lt_succ_self n))) hreach (by omega)

end Alone

/-! ### Comparing -/

/-- Where a branch is that compares two values: the pairs it has entered lead here on both
sides, as far as there is something. -/
structure Paired (h : Heap) (K : ClassTable) (cyclic : Prop) (active : List (Mark × Mark))
    (old new : Value) : Prop where
  sane_old : h.Sane K old
  sane_new : h.Sane K new
  entered : ∀ p ∈ active, ∃ a b, p = (some a, some b) ∧
    (h.view old ≠ .nil → TransGen h.Link (.ref a) old) ∧
    (h.view new ≠ .nil → TransGen h.Link (.ref b) new)
  loops : ∀ w, h.Within old w ∨ h.Within new w → TransGen h.Link w w → cyclic

section Pairs
variable {o : Options} {n : Nat} {old new x y : Value} {path : Label}

theorem Paired.added (hp : Paired h K cyclic active old new) : Reached h K cyclic active new := by
  refine ⟨hp.sane_new, fun a ha => ?_, fun w hw => hp.loops w (.inr hw)⟩
  obtain ⟨_, _, he, _⟩ := hp.entered _ ha
  cases he

theorem Paired.removed (hp : Paired h K cyclic active old new) :
    Reached h K cyclic active old := by
  refine ⟨hp.sane_old, fun a ha => ?_, fun w hw => hp.loops w (.inl hw)⟩
  obtain ⟨_, _, he, _⟩ := hp.entered _ ha
  cases he

/-- What is on one side of a step from a value: nothing or what the value leads to. -/
def Onward (h : Heap) (v w : Value) : Prop := w = .nil ∨ h.Link v w

theorem Onward.sane {v w : Value} (hw : Onward h v w) (hv : h.Sane K v) : h.Sane K w := by
  rcases hw with rfl | hl
  · exact sane_nil K
  · exact hv.of_link hl

theorem Onward.weight_le {v w : Value} (hw : Onward h v w) : weight w ≤ weight v := by
  rcases hw with rfl | hl
  · exact Nat.zero_le _
  · exact hl.weight_le

theorem Onward.weight_lt {z : Object Value} {w : Value} (hz : z ≠ .nil)
    (hw : Onward h (.inline z) w) : weight w < weight (.inline z) := by
  rcases hw with rfl | hl
  · rw [weight_nil, weight_inline hz]
    exact depth_pos
  · exact hl.weight_lt

theorem Onward.tail {u v w : Value} (hw : Onward h v w) (hu : ReflTransGen h.Link u v)
    (hn : h.view w ≠ .nil) : TransGen h.Link u w := by
  rcases hw with rfl | hl
  · exact absurd rfl hn
  · exact .tail' hu hl

theorem Onward.loops {v w u : Value} (hw : Onward h v w) (hu : h.Within w u)
    (hloop : TransGen h.Link u u) : h.Within v u := by
  have hbelow : w = .nil ∨ TransGen h.Part v w := by
    rcases hw with rfl | hl
    · exact .inl rfl
    · exact hl.below
  rcases hbelow with rfl | hb
  · rw [within_nil hu] at hloop
    obtain ⟨x, hx, _⟩ := TransGen.head'_iff.mp hloop
    exact absurd rfl hx.view_ne_nil
  · exact hb.to_reflTransGen.trans hu

/-- One step on from a pair, the pair itself being entered or not. -/
theorem Paired.step (hp : Paired h K cyclic active old new) (hx : Onward h old x)
    (hy : Onward h new y) (ho : h.view old ≠ .nil) (hn : h.view new ≠ .nil)
    {inner : List (Mark × Mark)}
    (hinner : ∀ p ∈ inner, p ∈ active ∨ ∃ a b, p = (some a, some b) ∧ old = .ref a ∧ new = .ref b) :
    Paired h K cyclic inner x y := by
  refine ⟨hx.sane hp.sane_old, hy.sane hp.sane_new, fun p hin => ?_, fun w hw hloop => ?_⟩
  · rcases hinner p hin with hin | ⟨a, b, rfl, rfl, rfl⟩
    · obtain ⟨a, b, rfl, ha, hb⟩ := hp.entered p hin
      exact ⟨a, b, rfl, hx.tail (ha ho).to_reflTransGen, hy.tail (hb hn).to_reflTransGen⟩
    · exact ⟨a, b, rfl, hx.tail .refl, hy.tail .refl⟩
  · refine hp.loops w ?_ hloop
    exact hw.imp (fun hw => hx.loops hw hloop) fun hw => hy.loops hw hloop

/-- Entering a pair leaves less room, or what it leads to weighs less. -/
theorem ends_visiting_pair {body : Walk Unit} (hp : Paired h K cyclic active old new)
    (ho : h.view old ≠ .nil) (hn : h.view new ≠ .nil)
    (hbody : ∀ inner, (∀ x y, Onward h old x → Onward h new y → Paired h K cyclic inner x y ∧
      free h inner + weight x + weight y < free h active + weight old + weight new) →
      Ends cyclic inner body) :
    Ends cyclic active (visiting h old new path body) := by
  have hpair : ∀ p, pairOf h old new = some p →
      ∃ a b, p = (some a, some b) ∧ old = .ref a ∧ new = .ref b := by
    rintro ⟨x, y⟩ hp
    obtain ⟨hx, hy⟩ := pairOf_eq_some hp
    obtain ⟨a, rfl, rfl, _⟩ := identity_eq_some ho hx
    obtain ⟨b, rfl, rfl, _⟩ := identity_eq_some hn hy
    exact ⟨a, b, rfl, rfl, rfl⟩
  refine ends_visiting (fun hnone => hbody active fun x y hx hy => ?_) ?_ ?_
  · refine ⟨hp.step hx hy ho hn fun p hin => .inl hin, ?_⟩
    have := hx.weight_le
    have := hy.weight_le
    rcases pairOf_eq_none hnone with hm | hm
    · obtain ⟨z, rfl, hz⟩ := identity_eq_none hm
      have := hx.weight_lt hz
      omega
    · obtain ⟨z, rfl, hz⟩ := identity_eq_none hm
      have := hy.weight_lt hz
      omega
  · intro p hsome hin
    obtain ⟨a, b, rfl, rfl, rfl⟩ := hpair p hsome
    obtain ⟨_, _, hab, ha, _⟩ := hp.entered _ hin
    cases hab
    exact hp.loops _ (.inl .refl) (ha ho)
  · intro p hsome hout
    have hfree := free_cons hsome hout
    obtain ⟨a, b, rfl, hold, hnew⟩ := hpair p hsome
    refine hbody _ fun x y hx hy => ⟨hp.step hx hy ho hn fun q hq => ?_, ?_⟩
    · rcases List.mem_cons.mp hq with rfl | hq
      · exact .inr ⟨a, b, rfl, hold, hnew⟩
      · exact .inl hq
    · have := hx.weight_le
      have := hy.weight_le
      omega

/-- Two values are compared within as many steps as they may need. -/
theorem ends_diffValues (hp : Paired h K cyclic active old new)
    (hsteps : 8 * (free h active + weight old + weight new) + 8 ≤ n) :
    Ends cyclic active (diffValues h o n old new path) := by
  induction n using Nat.strong_induction_on generalizing active old new path with
  | _ n ih =>
    by_cases ho : h.view old = .nil
    · exact ends_values_added (fun m _ => addsIn h K o cyclic m) ho hp.added (by omega)
    by_cases hn : h.view new = .nil
    · exact ends_values_removed (fun m _ => removesIn h K o cyclic m) hn hp.removed (by omega)
    obtain ⟨n, rfl⟩ : ∃ m, n = m + 2 := ⟨n - 2, by omega⟩
    rw [diffValues_objects (n + 1) ho hn]
    split
    · exact ends_throw trivial
    · rename_i hc
      have hform := Object.form_eq hp.sane_new.named.here hp.sane_old.named.here (not_not.mp hc).symm
      have hkind : (h.view new).kind = (h.view old).kind := by
        rw [← Object.kind_form, hform, Object.kind_form]
      cases hk : (h.view old).kind with
      | record =>
        obtain ⟨fs, hfs, hleads⟩ := activeFields_leads o path hk (.inl hform)
        refine ends_visiting_pair hp ho hn fun inner hinner => ?_
        rw [diffStructs]
        refine ends_ask_ok hfs (ends_forM ?_)
        rintro ⟨f, subpath⟩ hf
        obtain ⟨hnext, hless⟩ := hinner (h.fieldValue old f.name) (h.fieldValue new f.name)
          (hleads _ hf).1 (hleads _ hf).2
        exact ih n (by omega) hnext (by omega)
      | sequence =>
        exact ends_visiting_pair hp ho hn fun inner _ =>
          ends_diffSequences _ hp.sane_old hp.sane_new hk (hkind.trans hk)
      | mapping =>
        refine ends_visiting_pair hp ho hn fun inner hinner => ?_
        refine ends_diffMappings hp.sane_old hp.sane_new hk (hkind.trans hk) fun x y subpath hx hy => ?_
        obtain ⟨hnext, hless⟩ := hinner x y hx hy
        exact ih n (by omega) hnext (by omega)
      | nil => exact ends_diffScalars hp.sane_old hp.sane_new
      | time => exact ends_diffScalars hp.sane_old hp.sane_new
      | scalar => exact ends_diffScalars hp.sane_old hp.sane_new

end Pairs

/-! ### The end of a comparison -/

theorem loop_parts {w : Value} (hw : TransGen h.Link w w) : TransGen h.Part w w := by
  have hbelow : ∀ {u v : Value}, TransGen h.Link u v → h.view v ≠ .nil → TransGen h.Part u v := by
    intro u v huv
    induction huv with
    | single hl =>
      intro hn
      rcases hl.below with rfl | hb
      · exact absurd rfl hn
      · exact hb
    | tail _ hl ih =>
      intro hn
      rcases hl.below with rfl | hb
      · exact absurd rfl hn
      · exact (ih hl.view_ne_nil).trans hb
  obtain ⟨u, hu, _⟩ := TransGen.head'_iff.mp hw
  exact hbelow hw hu.view_ne_nil

/-- Two records that are each their own successor. -/
def rings : Heap :=
  ⟨#[.record ⟨"Node", .freeform⟩ [("name", 2), ("next", 1)], .text none "a",
    .record ⟨"Node", .freeform⟩ [("name", 4), ("next", 3)], .text none "b"]⟩

theorem sane_rings (a : Addr) : rings.Sane (fun _ => .record ⟨"Node", .freeform⟩) (.ref a) := by
  refine ⟨everywhere_ref trivial ?_ a, everywhere_ref trivial ?_ a,
    everywhere_ref (Object.follows_nil _) ?_ a⟩
  all_goals
    intro a ha
    change a < 5 at ha
    interval_cases a <;> trivial

/-- Whether a comparison was given up at a cycle. -/
def endsInCycle : Except Fault Unit → Bool
  | .error (.cycle _) => true
  | _ => false

end DocDelta.Diff
