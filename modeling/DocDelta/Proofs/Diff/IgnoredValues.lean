import DocDelta.Proofs.Diff.ConflictFree
import DocDelta.Proofs.Diff.Twinned

/-! What an ignored name stands for does not reach the patch.

Fields and keys of an ignored name are passed over wherever the comparison goes through records
and mappings. What it takes as a whole, it does not look into for names: sequences, and values that
are set where there was nothing. Elsewhere, two heaps that differ under an ignored name make one
patch. A removed record is special, as whether it is zero depends on ignored fields too: but when it
is zero in either heap, its removal records nothing in the other. -/
namespace DocDelta
open Relation Diff

/-- A veil over what fields and keys of a name hold. -/
def Veil.named (s : String) : Veil := ⟨fun f => f.name = s ∨ f.external = s, (· = s)⟩

namespace Diff
open Heap
variable {h h' : Heap} {K : ClassTable} {o : Options} {V : Veil} {path : Label} {v : Value}

theorem passesOver_named {s : String} (hi : o.ignores h [s] = true) :
    PassesOver (.named s) h o := by
  obtain ⟨t, ht, hs⟩ := List.any_eq_true.mp hi
  obtain rfl := List.mem_singleton.mp ht
  refine ⟨fun {f} text hf => ?_, fun {k} text hk => ?_⟩
  · refine List.any_eq_true.mpr ⟨t, ?_, hs⟩
    rcases hf with rfl | rfl
    · exact List.mem_cons_self ..
    · exact List.mem_cons_of_mem _ (List.mem_cons_self ..)
  · obtain rfl : k = t := hk
    exact List.any_eq_true.mpr ⟨k, List.mem_cons_self .., hs⟩

/-! ### Removing what is zero elsewhere -/

/-- A walk that records nothing if it succeeds, while these objects are being removed. -/
def Silent (active : List (Option Addr)) (base : Label) (m : Walk Unit) : Prop :=
  ∀ s t, (∀ a ∈ active, (a, none) ∈ s.active) → m.run s = (.ok (), t) → Leaves base [] s t

section Silent
variable {active : List (Option Addr)} {base : Label} {m m' : Walk Unit}

theorem silent_pure : Silent active base (pure ()) := by
  intro s t _ hr
  cases hr
  exact leaves_self base s

theorem silent_throw (e : Fault) : Silent active base (throw e) := by
  intro s t _ hr
  cases hr

theorem silent_ask {α : Type} {x : Except Fault α} {f : α → Walk Unit}
    (hf : ∀ a, x = .ok a → Silent active base (f a)) : Silent active base (ask x >>= f) := by
  intro s t ha hr
  obtain ⟨a, u, hx, hr⟩ := run_bind_ok hr
  cases hx
  exact hf a rfl s t ha hr

theorem silent_forM {α : Type} {f : α → Walk Unit} {xs : List α}
    (hf : ∀ x ∈ xs, Silent active base (f x)) : Silent active base (xs.forM f) := by
  induction xs with
  | nil => exact silent_pure
  | cons x xs ih =>
    intro s t ha hr
    rw [forM_cons] at hr
    obtain ⟨_, u, hx, hr⟩ := run_bind_ok hr
    have hu := hf x (List.mem_cons_self ..) s u ha hx
    have ht := ih (fun y hy => hf y (List.mem_cons_of_mem x hy)) u t
      (fun a hm => hu.active ▸ ha a hm) hr
    exact hu.append ht

theorem Silent.under {l : Label} (hm : Silent active (joinPath base l) m) : Silent active base m :=
  fun s t ha hr => (hm s t ha hr).under

/-- An object that is being removed already is not entered again. -/
theorem silent_visiting
    (hs : ∀ a, v.identity h = some a → a ∉ active → Silent (a :: active) base m)
    (hn : v.identity h = none → Silent active base m) :
    Silent active base (visiting h v .nil path m) := by
  have hpair : pairOf h v .nil = (v.identity h).map (·, none) := by
    unfold pairOf
    cases v.identity h <;> rfl
  intro s t ha hr
  rw [run_visiting, hpair] at hr
  cases hi : v.identity h with
  | none =>
    rw [hi] at hr
    exact hn hi s t ha hr
  | some a =>
    rw [hi] at hr
    dsimp only [Option.map_some] at hr
    split at hr
    · cases hr
    · rename_i hfresh
      have hfresh : a ∉ active := fun hm => hfresh (List.contains_iff_mem.mpr (ha a hm))
      rcases hb : m.run { s with active := (a, none) :: s.active } with ⟨e | _, u⟩
      · rw [hb] at hr
        cases hr
      · rw [hb] at hr
        cases hr
        have hleaves := hs a hi hfresh _ u (fun b hm => ?_) hb
        · exact hleaves.leave rfl
        · rcases List.mem_cons.mp hm with rfl | hm
          · exact List.mem_cons_self ..
          · exact List.mem_cons_of_mem _ (ha b hm)

/-- Two silent walks end alike, where either may fail alone. -/
theorem abreast_silent (hm : Silent [] base m) (hm' : Silent [] base m') :
    Abreast True base (fun cs ds => cs = [] ∧ ds = []) m m' := by
  intro s s' _
  rcases hr : m.run s with ⟨e | _, t⟩
  · exact .first trivial
  · rcases hr' : m'.run s' with ⟨e | _, t'⟩
    · exact .second trivial
    · exact .records ⟨rfl, rfl⟩ (hm s t nofun hr) (hm' s' t' nofun hr')

end Silent

/-- The zero of a value that is no record hangs on its layer alone. -/
theorem isZeroWithin_layer {n : Nat} {active : List (Option Addr)} (hk : (h.view v).kind ≠ .record) :
    h.isZeroWithin (n + 1) active v = h.isZero v := by
  rw [isZero, layerBound, isZeroWithin, isZeroWithin]
  cases hkind : (h.view v).kind with
  | record => exact absurd hkind hk
  | _ => rfl

/-- So twin heaps tell it alike. -/
theorem isZero_twins (ht : Twins V h h') (hk : (h.view v).kind ≠ .record) :
    h'.isZero v = h.isZero v := by
  have hrecord : (h.view v).isRecord = false :=
    Bool.eq_false_iff.mpr fun hr => hk (Object.isRecord_iff.mp hr)
  rw [isZero, isZero, layerBound, layerBound, isZeroWithin, isZeroWithin, ht.congruent.kind]
  cases hkind : (h.view v).kind with
  | record => exact absurd hkind hk
  | mapping =>
    have hlength : ((h'.entries? (h'.view v)).getD []).length =
        ((h.entries? (h.view v)).getD []).length := by
      have hrel := ht.entries? v
      generalize h.entries? (h.view v) = x at hrel
      generalize h'.entries? (h'.view v) = y at hrel
      cases hrel with
      | none => rfl
      | some he => exact he.length_eq.symm
    have hitems := Object.items?_of_mapping hkind
    have hitems' := Object.items?_of_mapping ((ht.congruent.kind v).trans hkind)
    dsimp only
    rw [entryCount, entryCount, hitems, hitems']
    exact congrArg (fun n => Except.ok (n == 0)) hlength
  | sequence =>
    dsimp only
    rw [(ht.view v).eq hrecord (by simp [hkind]), entryCount, entryCount]
    have hnone : ∀ g : Heap, g.entries? (h.view v) = none :=
      fun g => entries?_none (by simp [hkind])
    rw [hnone, hnone]
  | _ =>
    dsimp only
    rw [(ht.view v).eq hrecord (by simp [hkind]), ht.congruent.isZeroScalar]

section Zero
variable (ht : Twins V h h') (hv : PassesOver V h' o) {k n : Nat} {active : List (Option Addr)}
include ht hv

/-- Fields that are zero in one heap are removed without a record in its twin, if values are. -/
theorem silent_fields (hr : (h'.view v).isRecord = true)
    (hremoved : ∀ {w : Value} {place : Label}, h.isZeroWithin k active w = .ok true →
      Silent active place (diffRemoved h' o n w place))
    (hz : allHold (fun f => h.isZeroWithin k active (h.fieldValue v f.name)) (h.view v).fields =
      .ok true) :
    Silent active path (do
      (← ask (activeFields h' o v .nil path)).forM fun (f, subpath) =>
        diffRemoved h' o n (h'.fieldValue v f.name) subpath) := by
  refine silent_ask fun fs hfs => silent_forM fun p hp => ?_
  obtain ⟨gs, hgs, hm, hsub, hi⟩ := mem_activeFields hfs hp
  obtain rfl := Option.some.inj ((Object.fields?_nil hr).symm.trans hgs)
  rw [ht.congruent.fields] at hm
  have hfield : Silent active p.2 (diffRemoved h' o n (h.fieldValue v p.1.name) p.2) :=
    hremoved (allHold_eq_true.mp hz p.1 hm)
  dsimp only
  rw [ht.fieldValue hm (hv.seen hi), hsub]
  exact (hsub ▸ hfield).under

/-- **What is zero in one heap is removed without a record in its twin.** The removal goes on where
the zero test does, or stops at an object that is being removed already. -/
theorem silent_removed (hz : h.isZeroWithin k active v = .ok true) :
    Silent active path (diffRemoved h' o n v path) := by
  -- the removal of a record takes two units of fuel, the zero test of it only one
  induction n using Nat.strong_induction_on generalizing k active v path with
  | _ n ih =>
    match n, k with
    | 0, _ => exact silent_throw _
    | _, 0 => cases hz
    | n + 1, k + 1 =>
      rw [diffRemoved]
      refine silent_ask fun zero hzero => ?_
      by_cases hk : (h.view v).kind = .record
      swap
      -- no field is hidden in what is no record, so the removal finds the same zero
      · rw [isZero_twins ht hk, ← isZeroWithin_layer hk, hz] at hzero
        cases hzero
        exact silent_pure
      have hr : (h'.view v).isRecord = true := by
        rw [ht.congruent.isRecord]
        exact Object.isRecord_iff.mpr hk
      cases zero with
      | true => exact silent_pure
      | false =>
        simp only [hr, Bool.false_eq_true, if_false, if_true]
        cases n with
        | zero => exact silent_throw _
        | succ n =>
          have hfields : ∀ inner, allHold (fun f => h.isZeroWithin k inner (h.fieldValue v f.name))
              (h.view v).fields = .ok true → Silent inner path (do
                (← ask (activeFields h' o v .nil path)).forM fun (f, subpath) =>
                  diffRemoved h' o n (h'.fieldValue v f.name) subpath) :=
            fun inner => silent_fields ht hv hr (ih n (by omega))
          rw [isZeroWithin] at hz
          simp only [hk] at hz
          rw [unsetStructFields]
          refine silent_visiting (fun a hi hfresh => hfields _ ?_) fun hi => hfields _ ?_
          · rw [ht.congruent.identity] at hi
            rw [hi] at hz
            simp only [List.contains_iff_mem, hfresh, if_false] at hz
            exact hz
          · rw [ht.congruent.identity] at hi
            rw [hi] at hz
            exact hz

end Zero

/-- A removal whose zero test has no answer fails. -/
theorem removed_fails {e : Fault} (hz : h.isZero v = .error e) (n : Nat) (s : State) :
    ∃ f t, (diffRemoved h o n v path).run s = (.error f, t) := by
  cases n with
  | zero => exact ⟨_, _, rfl⟩
  | succ n =>
    refine ⟨e, s, ?_⟩
    rw [diffRemoved, run_bind, run_ask, hz]

/-- **A value is removed alike from twin heaps**: it is zero in both or in neither, or nothing is
recorded. -/
theorem removed_twins (ht : Twins V h h') (hv : PassesOver V h o) (hv' : PassesOver V h' o) :
    h'.isZero v = h.isZero v ∨ ∀ n, Abreast True path (fun cs ds => cs = [] ∧ ds = [])
      (diffRemoved h o n v path) (diffRemoved h' o n v path) := by
  cases hz : h.isZero v with
  | error e => exact .inr fun n => abreast_of_fails trivial (removed_fails hz n)
  | ok zero =>
    cases hz' : h'.isZero v with
    | error e => exact .inr fun n => abreast_of_fails_second trivial (removed_fails hz' n)
    | ok zero' =>
      cases zero with
      | true =>
        exact .inr fun n => abreast_silent (silent_removed (twins_self V h) hv hz)
          (silent_removed ht hv' hz)
      | false =>
        cases zero' with
        | true =>
          exact .inr fun n => abreast_silent (silent_removed ht.symm hv hz')
            (silent_removed (twins_self V h') hv' hz')
        | false => exact .inl rfl

/-! ### The comparison -/

/-- The tasks that the comparison of two values comes to. -/
inductive Undertaken (h : Heap) (o : Options) (old new : Value) : Task → Label → Prop
  | root : Undertaken h o old new (.compare old new) (.plain "")
  | becomes {task next : Task} {path : Label} (hu : Undertaken h o old new task path)
      (hb : Becomes h task next) : Undertaken h o old new next path
  | into {task next : Task} {path place : Label} (hu : Undertaken h o old new task path)
      (hi : Into h o task path next place) : Undertaken h o old new next place

section Whole
variable {old new : Value} {s : String}

theorem unseen_named (ht : Twins (.named s) h h') (hi : o.ignores h [s] = true)
    (hw : ∀ task path v, Undertaken h o old new task path → Takes h task v → Agrees h h' v) :
    Unseen K h h' o fun task path =>
      Undertaken h o old new task path ∧ OnSides (h.Everywhere (Object.Follows K)) task where
  becomes hp hb := ⟨.becomes hp.1 hb, (passes_follows h K).becomes hb hp.2⟩
  into hp hi := ⟨.into hp.1 hi, (passes_follows h K).into hi hp.2⟩
  follows hp := ⟨hp.2.1.here, hp.2.2.here⟩
  takes hp hv := (hw _ _ _ hp.1 hv).readsAlike ht.congruent
  sequences {x y path} hp hx hy hc hk := by
    have hky := (Object.kind_eq hp.2.1.here hp.2.2.here hc).symm.trans hk
    have hg := not_goesOn_of_kind (y := y) hk nofun nofun
    exact sequencesAlike_same (sameOn_agrees ht.congruent) o.strategy
      (hw _ _ x hp.1 (.old hx hy hc hg)) (hw _ _ y hp.1 (.new hx hy hc hg)) hk hky
  removes {v path} _ := by
    have htext : h'.isText = h.isText := funext₂ ht.congruent.isText
    refine removed_twins ht (passesOver_named hi) (passesOver_named ?_)
    rw [Options.ignores, htext]
    exact hi

variable {p p' : Patch} {messages messages' : List Message}

/-- **Values under an ignored name do not reach the patch**, unless they are in something that the
comparison takes as a whole. Let two heaps differ in what fields or keys of an ignored name hold,
but in nothing within a value that is taken whole. If the comparison makes a patch in either heap,
the patches are the same and have one document, in which everything agrees. -/
theorem diff_ignored_values (hi : o.ignores h [s] = true) (ht : Twins (.named s) h h')
    (hfo : h.Everywhere (Object.Follows K) old) (hfn : h.Everywhere (Object.Follows K) new)
    (hw : ∀ task path v, Undertaken h o old new task path → Takes h task v → Agrees h h' v)
    (hd : diff h o old new = (.ok p, messages)) (hd' : diff h' o old new = (.ok p', messages')) :
    p' = p ∧ p.document h' = p.document h ∧ ∀ d, p.document h = .ok d → Agrees h h' d := by
  obtain ⟨hpatch, hdocument, hagrees⟩ := diff_twins (unseen_named (K := K) ht hi hw) ht
    (passesOver_named hi) ⟨.root, hfo, hfn⟩ (congrArg Prod.fst hd) (congrArg Prod.fst hd')
  exact ⟨hpatch, hdocument, hagrees⟩

end Whole

/-! ### Locked boxes -/

/-- Two maps that differ under `key`, of which the first holds an address under `secret`. -/
def lockers (secret : Addr) : Heap :=
  ⟨#[.map none [(3, secret), (4, 5)], .map none [(3, 5), (4, 6)],
    .text none "secret", .text none "key", .int none 1, .int none 2]⟩

theorem twins_lockers : Twins (.named "secret") (lockers 5) (lockers 6) := by
  refine twins_of_cells rfl fun a ha => ?_
  change a < 7 at ha
  interval_cases a
  case «1» => exact .map (.cons ⟨rfl, .inr ⟨"secret", rfl, rfl⟩⟩ (.cons ⟨rfl, .inl rfl⟩ .nil))
  all_goals exact .same _

theorem ignores_secret :
    Options.ignores ⟨[.text "secret"], .smart, .set, false, []⟩ (lockers 5) ["secret"] = true := by
  decide

/-- Past the two maps, the comparison comes to the two numbers under the other key. -/
theorem undertaken_lockers {task : Task} {path : Label}
    (hu : Undertaken (lockers 5) ⟨[.text "secret"], .smart, .set, false, []⟩ (.ref 1) (.ref 2) task path) :
    task = .compare (.ref 1) (.ref 2) ∨ task = .compare (.ref 5) (.ref 6) := by
  induction hu with
  | root => exact .inl rfl
  | becomes _ hb ih =>
    rcases ih with rfl | rfl <;> cases hb with
    | added ho => cases ho
    | removed hn => cases hn
  | into _ hi ih =>
    rcases ih with rfl | rfl
    · cases hi with
      | field _ hk => cases hk
      | key _ _ ha hb hu hm hl hi hx hy =>
        cases ha
        cases hb
        obtain rfl : _ = [Value.ref 3, .ref 4] := Except.ok.inj (hu.symm.trans rfl)
        rcases List.mem_pair.mp hm with rfl | rfl
        · rw [ignoresKey_text (s := "secret") rfl, (passesOver_named ignores_secret).key _ rfl] at hi
          cases hi
        · cases hx
          cases hy
          exact .inr rfl
    · cases hi with
      | field _ hk => cases hk
      | key _ hk => cases hk

theorem diff_ignored_values_lockers :
    Options.ignores ⟨[.text "secret"], .smart, .set, false, []⟩ (lockers 5) ["secret"] = true ∧
    Twins (.named "secret") (lockers 5) (lockers 6) ∧
    (lockers 5).Everywhere (Object.Follows freeforms) (.ref 1) ∧
    (lockers 5).Everywhere (Object.Follows freeforms) (.ref 2) ∧
    (∀ task path v, Undertaken (lockers 5) ⟨[.text "secret"], .smart, .set, false, []⟩
      (.ref 1) (.ref 2) task path → Takes (lockers 5) task v → Agrees (lockers 5) (lockers 6) v) ∧
    ∃ p messages messages',
      diff (lockers 5) ⟨[.text "secret"], .smart, .set, false, []⟩ (.ref 1) (.ref 2) =
        (.ok p, messages) ∧
      diff (lockers 6) ⟨[.text "secret"], .smart, .set, false, []⟩ (.ref 1) (.ref 2) =
        (.ok p, messages') ∧
      p.paths = ["key"] ∧ p.document (lockers 6) = p.document (lockers 5) := by
  have hclasses : ∀ a, (lockers 5).Everywhere (Object.Follows freeforms) (.ref a) :=
    everywhere_ref (Object.follows_nil freeforms) (by decide)
  have hnumber : ∀ a ∈ [5, 6], Agrees (lockers 5) (lockers 6) (.ref a) := by
    intro a ha w hw
    rcases List.mem_pair.mp ha with rfl | rfl
    all_goals
      rcases hw.cases_head with rfl | ⟨_, hp, _⟩
      · rfl
      · cases hp
  have htaken : ∀ task path v, Undertaken (lockers 5) ⟨[.text "secret"], .smart, .set, false, []⟩
      (.ref 1) (.ref 2) task path → Takes (lockers 5) task v → Agrees (lockers 5) (lockers 6) v := by
    intro task path v hu hv
    rcases undertaken_lockers hu with rfl | rfl
    · cases hv with
      | old _ _ _ hg => exact absurd ⟨rfl, .inr rfl⟩ hg
      | new _ _ _ hg => exact absurd ⟨rfl, .inr rfl⟩ hg
      | created hx => cases hx
    · cases hv with
      | old => exact hnumber 5 (by decide)
      | new => exact hnumber 6 (by decide)
      | created => exact hnumber 6 (by decide)
  have hruns : (diff (lockers 5) ⟨[.text "secret"], .smart, .set, false, []⟩ (.ref 1)
      (.ref 2)).1.toOption.map (·.paths) = some ["key"] ∧
      (diff (lockers 6) ⟨[.text "secret"], .smart, .set, false, []⟩ (.ref 1)
        (.ref 2)).1.toOption.isSome = true := by decide +kernel
  obtain ⟨p, hp, hpaths⟩ := Option.map_eq_some_iff.mp hruns.1
  obtain ⟨p', hp'⟩ := Option.isSome_iff_exists.mp hruns.2
  obtain ⟨messages, hd⟩ := diff_of_toOption hp
  obtain ⟨messages', hd'⟩ := diff_of_toOption hp'
  obtain ⟨rfl, hdocument, _⟩ := diff_ignored_values ignores_secret twins_lockers (hclasses 1)
    (hclasses 2) htaken hd hd'
  exact ⟨ignores_secret, twins_lockers, hclasses 1, hclasses 2, htaken, p', messages, messages', hd,
    hd', hpaths, hdocument⟩

/-! ### What is taken whole -/

/-- Two lists of one map each, of which the second holds an address under an ignored name. -/
def listed (secret : Addr) : Heap :=
  ⟨#[.list none [3], .list none [4], .map none [(5, 6)], .map none [(5, secret)],
    .text none "secret", .int none 1, .int none 2]⟩

/-- A map that holds an address under an ignored name. -/
def fresh (secret : Addr) : Heap :=
  ⟨#[.map none [(2, secret)], .text none "secret", .int none 1, .int none 2]⟩

theorem twins_listed : Twins (.named "secret") (listed 7) (listed 6) := by
  refine twins_of_cells rfl fun a ha => ?_
  change a < 8 at ha
  interval_cases a
  case «4» => exact .map (.cons ⟨rfl, .inr ⟨"secret", rfl, rfl⟩⟩ .nil)
  all_goals exact .same _

theorem twins_fresh : Twins (.named "secret") (fresh 3) (fresh 4) := by
  refine twins_of_cells rfl fun a ha => ?_
  change a < 5 at ha
  interval_cases a
  case «1» => exact .map (.cons ⟨rfl, .inr ⟨"secret", rfl, rfl⟩⟩ .nil)
  all_goals exact .same _

theorem follows_listed (a : Addr) : (listed 7).Everywhere (Object.Follows freeforms) (.ref a) :=
  everywhere_ref (Object.follows_nil freeforms) (by decide) a

theorem follows_fresh (a : Addr) : (fresh 3).Everywhere (Object.Follows freeforms) (.ref a) :=
  everywhere_ref (Object.follows_nil freeforms) (by decide) a

theorem diff_fresh (secret : Addr) : ∃ messages,
    diff (fresh secret) ⟨[.text "secret"], .replace, .set, false, []⟩ .nil (.ref 1) =
      (.ok (Patch.empty.set (.plain "") (.ref 1)), messages) := ⟨_, rfl⟩

theorem document_fresh (secret : Addr) (hs : secret = 3 ∨ secret = 4) :
    (Patch.empty.set (.plain "") (.ref 1)).document (fresh secret) =
      .ok (.map [(.text "$set", .map [(.text "", .map [(.ref 2, .ref secret)])])]) := by
  rcases hs with rfl | rfl <;> rfl

/-- What is under an ignored name reaches a patch from within sequences, even without one that is
compared from within maps that are set where there was nothing. -/
theorem diff_takes_ignored_values :
    (¬ ∀ (h h' : Heap) (K : ClassTable) (o : Options) (s : String) (old new : Value) (p p' : Patch)
      (messages messages' : List Message), o.ignores h [s] = true → Twins (.named s) h h' →
        h.Everywhere (Object.Follows K) old → h.Everywhere (Object.Follows K) new →
        diff h o old new = (.ok p, messages) → diff h' o old new = (.ok p', messages') →
          p'.paths = p.paths) ∧
    ¬ ∀ (h h' : Heap) (K : ClassTable) (o : Options) (s : String) (old new : Value) (p p' : Patch)
      (messages messages' : List Message), o.ignores h [s] = true → Twins (.named s) h h' →
        h.Everywhere (Object.Follows K) old → h.Everywhere (Object.Follows K) new →
        (∀ x y place, Compared h o old new x y place → (h.view x).kind ≠ .sequence) →
        diff h o old new = (.ok p, messages) → diff h' o old new = (.ok p', messages') →
          p'.document h' = p.document h := by
  constructor
  · intro hall
    have hruns : (diff (listed 7) ⟨[.text "secret"], .replace, .set, false, []⟩ (.ref 1)
        (.ref 2)).1.toOption.map (·.paths) = some [""] ∧
        (diff (listed 6) ⟨[.text "secret"], .replace, .set, false, []⟩ (.ref 1)
          (.ref 2)).1.toOption.map (·.paths) = some [] := by decide +kernel
    obtain ⟨p, hp, hpaths⟩ := Option.map_eq_some_iff.mp hruns.1
    obtain ⟨p', hp', hpaths'⟩ := Option.map_eq_some_iff.mp hruns.2
    obtain ⟨messages, hd⟩ := diff_of_toOption hp
    obtain ⟨messages', hd'⟩ := diff_of_toOption hp'
    have hsame := hall _ _ freeforms _ "secret" _ _ p p' messages messages' (by decide) twins_listed
      (follows_listed 1) (follows_listed 2) hd hd'
    rw [hpaths, hpaths'] at hsame
    cases hsame
  · intro hall
    obtain ⟨messages, hd⟩ := diff_fresh 3
    obtain ⟨messages', hd'⟩ := diff_fresh 4
    have hnone : ∀ x y place,
        Compared (fresh 3) ⟨[.text "secret"], .replace, .set, false, []⟩ .nil (.ref 1) x y place →
          ((fresh 3).view x).kind ≠ .sequence := by
      intro x y place hm hk
      obtain rfl := hm.of_nil
      cases hk
    have hsame := hall _ _ freeforms _ "secret" _ _ _ _ messages messages' (by decide) twins_fresh
      (everywhere_nil (Object.follows_nil freeforms)) (follows_fresh 1) hnone hd hd'
    rw [document_fresh 3 (.inl rfl), document_fresh 4 (.inr rfl)] at hsame
    cases hsame

end Diff
end DocDelta
