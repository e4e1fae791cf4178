import DocDelta.Proofs.Diff.ConflictFree
import DocDelta.Proofs.Diff.Located

/-! What the zero policy decides.

The policies are told apart only by scalars that became zero: such a scalar is set, or unset, or
nothing is recorded. No other record is made at its path, so the patches differ there and nowhere
else, and their filters are the same. A comparison that is refused under one policy is refused
under every other one with the same fault. -/
namespace DocDelta.Diff
open Heap Patch
variable {h : Heap} {K : ClassTable} {o : Options} {old new : Value} {fs : List Finding}

/-! ### Records at a path -/

/-- The records of a path. -/
def recordsAt (path : String) (rs : List Record) : List Record :=
  rs.filter fun r => r.path.text == path

theorem recordsAt_append (path : String) (rs ss : List Record) :
    recordsAt path (rs ++ ss) = recordsAt path rs ++ recordsAt path ss := List.filter_append ..

/-- The last record of a path is the last of its records. -/
theorem lastOn_recordsAt (path : String) (rs : List Record) :
    lastOn path rs = (recordsAt path rs).getLast? := by
  rw [lastOn, recordsAt, List.getLast?_eq_head?_reverse, ← List.filter_reverse, List.head?_filter]

namespace Finding

/-- The place names that a finding takes, under every policy. -/
def takes : Finding → Nat
  | .change c => c.takes
  | .zero .. => 0

/-- Findings are recorded one after another. -/
theorem recordsFrom_cons (policy : ZeroPolicy) (n : Nat) (f : Finding) (fs : List Finding) :
    recordsFrom n (settleAll policy (f :: fs)) =
      recordsFrom n (f.settle policy) ++ recordsFrom (n + f.takes) (settleAll policy fs) := by
  cases f with
  | change c => simp [settleAll, settle, recordsFrom, takes]
  | zero path v => cases policy <;> simp [settleAll, settle, recordsFrom, takes, Change.takes]

/-- A finding is recorded at its path, or below it. -/
theorem recordsFrom_path {policy : ZeroPolicy} {n : Nat} {f : Finding} {r : Record}
    (hr : r ∈ recordsFrom n (f.settle policy)) (hp : ∀ l ∈ f.path, PlainName l.text) :
    f.path.map (·.text) <+: names r.path.text := by
  have hone : ∀ {c : Change}, c.path = f.path → r ∈ recordsFrom n [c] →
      f.path.map (·.text) <+: names r.path.text := by
    intro c hc hr
    have hr : r ∈ (c.record? n).toList := by simpa [recordsFrom] using hr
    have hnames := names_record (Option.mem_toList.mp hr) fun l hl => (hp l (hc ▸ hl)).1
    rw [hnames, ← hc]
    cases c with
    | whole path action => exact List.prefix_rfl
    | item path index v => exact List.prefix_append ..
  cases f with
  | change c => exact hone rfl hr
  | zero path v =>
    cases policy with
    | unset => exact hone rfl hr
    | set => exact hone rfl hr
    | ignore => cases hr

/-- A zero is recorded at its path. -/
theorem recordsFrom_zero {policy : ZeroPolicy} {n : Nat} {path : List Label} {v : Value} {r : Record}
    (hr : r ∈ recordsFrom n (Finding.settle policy (.zero path v))) :
    r.path.text = (joinAll (.plain "") path).text := by
  cases policy with
  | unset =>
    obtain rfl := List.mem_singleton.mp hr
    rfl
  | set =>
    obtain rfl := List.mem_singleton.mp hr
    rfl
  | ignore => cases hr

/-- What lies apart from a path is not recorded there. -/
theorem recordsAt_apart {policy : ZeroPolicy} {n : Nat} {f : Finding} {path : List Label}
    (hp : ∀ l ∈ f.path, PlainName l.text) (hq : ∀ l ∈ path, PlainName l.text)
    (ha : Apart (f.path.map (·.text)) (path.map (·.text))) :
    recordsAt (joinAll (.plain "") path).text (recordsFrom n (f.settle policy)) = [] := by
  refine List.filter_eq_nil_iff.mpr fun r hr he => ha.1 ?_
  have hprefix := recordsFrom_path hr hp
  rw [beq_iff_eq.mp he, names_joinAll _ fun l hl => (hq l hl).1] at hprefix
  exact hprefix

end Finding

/-- The filters do not depend on the policy. -/
theorem filtersFrom_settleAll (policy policy' : ZeroPolicy) (n : Nat) (fs : List Finding) :
    filtersFrom n (settleAll policy fs) = filtersFrom n (settleAll policy' fs) := by
  have hcons : ∀ (policy : ZeroPolicy) (n : Nat) (f : Finding) (fs : List Finding),
      filtersFrom n (settleAll policy (f :: fs)) =
        filtersFrom n (f.settle .ignore) ++ filtersFrom (n + f.takes) (settleAll policy fs) := by
    intro policy n f fs
    cases f with
    | change c => simp [settleAll, Finding.settle, filtersFrom, Finding.takes]
    | zero path v =>
      cases policy <;>
        simp [settleAll, Finding.settle, filtersFrom, Finding.takes, Change.takes, Change.filter?]
  induction fs generalizing n with
  | nil => rfl
  | cons f fs ih => rw [hcons, hcons, ih]

/-- Away from the zeros every policy records the same. -/
theorem recordsAt_elsewhere {path : String}
    (hz : ∀ p v, .zero p v ∈ fs → (joinAll (.plain "") p).text ≠ path) (policy : ZeroPolicy) (n : Nat) :
    recordsAt path (recordsFrom n (settleAll policy fs)) =
      recordsAt path (recordsFrom n (settleAll .set fs)) := by
  induction fs generalizing n with
  | nil => rfl
  | cons f fs ih =>
    have ih := ih (fun p v hm => hz p v (List.mem_cons_of_mem f hm)) (n + f.takes)
    rw [Finding.recordsFrom_cons, Finding.recordsFrom_cons, recordsAt_append, recordsAt_append, ih]
    congr 1
    cases f with
    | change c => rfl
    | zero p v =>
      have hnone : ∀ policy, recordsAt path (recordsFrom n (Finding.settle policy (.zero p v))) = [] := by
        intro policy
        refine List.filter_eq_nil_iff.mpr fun r hr he => hz p v (List.mem_cons_self ..) ?_
        rw [← Finding.recordsFrom_zero hr, beq_iff_eq.mp he]
      rw [hnone, hnone]

/-- Findings that lie apart from a path are not recorded there. -/
theorem recordsAt_aside {path : List Label} (hp : ∀ f ∈ fs, ∀ l ∈ f.path, PlainName l.text)
    (hq : ∀ l ∈ path, PlainName l.text)
    (ha : ∀ f ∈ fs, Apart (f.path.map (·.text)) (path.map (·.text))) (policy : ZeroPolicy) (n : Nat) :
    recordsAt (joinAll (.plain "") path).text (recordsFrom n (settleAll policy fs)) = [] := by
  induction fs generalizing n with
  | nil => rfl
  | cons f fs ih =>
    rw [Finding.recordsFrom_cons, recordsAt_append,
      Finding.recordsAt_apart (hp f (List.mem_cons_self ..)) hq (ha f (List.mem_cons_self ..)),
      ih (fun g hg => hp g (List.mem_cons_of_mem f hg)) fun g hg => ha g (List.mem_cons_of_mem f hg)]
    rfl

/-- At a zero only the zero is recorded. -/
theorem recordsAt_zero (hs : Spread fs) {path : List Label} {v : Value} (hm : .zero path v ∈ fs)
    (policy : ZeroPolicy) (n : Nat) :
    recordsAt (joinAll (.plain "") path).text (recordsFrom n (settleAll policy fs)) =
      recordsFrom 0 (Finding.settle policy (.zero path v)) := by
  have hplain : ∀ l ∈ path, PlainName l.text := hs.plain _ hm
  induction fs generalizing n with
  | nil => cases hm
  | cons f fs ih =>
    have hrest : ∀ g ∈ fs, ∀ l ∈ g.path, PlainName l.text := fun g hg =>
      hs.plain g (List.mem_cons_of_mem f hg)
    obtain ⟨haside, hpairs⟩ := List.pairwise_cons.mp hs.aside
    rw [Finding.recordsFrom_cons, recordsAt_append]
    rcases List.mem_cons.mp hm with rfl | hm
    · have hapart : ∀ g ∈ fs, Apart (g.path.map (·.text)) (path.map (·.text)) := fun g hg => by
        rcases haside g hg (.inl trivial) with ha | ⟨_, _, _, _, _, _, he, _⟩
        · exact ha.symm
        · cases he
      rw [recordsAt_aside hrest hplain hapart, List.append_nil]
      have hself : ∀ r ∈ recordsFrom n (Finding.settle policy (.zero path v)),
          (r.path.text == (joinAll (.plain "") path).text) = true :=
        fun r hr => beq_iff_eq.mpr (Finding.recordsFrom_zero hr)
      rw [recordsAt, List.filter_eq_self.mpr hself]
      cases policy <;> rfl
    · have hapart : Apart (f.path.map (·.text)) (path.map (·.text)) := by
        rcases haside _ hm (.inr trivial) with ha | ⟨_, _, _, _, _, _, _, he, _⟩
        · exact ha
        · cases he
      rw [Finding.recordsAt_apart (hs.plain f (List.mem_cons_self ..)) hplain hapart, List.nil_append]
      exact ih ⟨hrest, hpairs⟩ hm (n + f.takes)

/-! ### Policies -/

/-- The path of a compared position where a scalar became zero. -/
def ZeroAt (h : Heap) (o : Options) (old new : Value) (path : String) : Prop :=
  ∃ x y place, Compared h o old new x y place ∧ BecomesZero h x y ∧ place.text = path

theorem into_zeros {policy : ZeroPolicy} {task next : Task} {path place : Label}
    (hi : Into h o task path next place) :
    Into h { o with zeros := policy } task path next place := by
  cases hi with
  | field hc hk hf hp => exact .field hc hk hf hp
  | key hc hk ha hb hu hm hl hi hx hy => exact .key hc hk ha hb hu hm hl hi hx hy
  | addedField hr hf hp => exact .addedField hr hf hp
  | removedField hr hf hp => exact .removedField hr hf hp
  | removedEntry hz hr he hm hl hi => exact .removedEntry hz hr he hm hl hi

/-- The policy does not decide which positions are compared. -/
theorem compared_zeros {policy : ZeroPolicy} {x y : Value} {place : Label} :
    Compared h { o with zeros := policy } old new x y place ↔ Compared h o old new x y place := by
  constructor
  · intro hc
    induction hc with
    | root => exact .root
    | into hm hi ih => exact .into ih (into_zeros (o := { o with zeros := policy }) hi)
  · intro hc
    induction hc with
    | root => exact .root
    | into hm hi ih => exact .into ih (into_zeros hi)

/-- The zeros that are found are those at compared positions. -/
theorem zeroAt_iff (hf : Finds h o (.compare old new) (.plain "") fs) {path : String} :
    ZeroAt h o old new path ↔ ∃ p v, .zero p v ∈ fs ∧ (joinAll (.plain "") p).text = path := by
  constructor
  · rintro ⟨x, y, place, hc, hz, rfl⟩
    obtain ⟨p, rfl, hm⟩ := finds_zero hf hc hz
    exact ⟨p, y, hm, rfl⟩
  · rintro ⟨p, v, hm, rfl⟩
    obtain ⟨x, y, hc, hz, _⟩ := finds_located hf .root hm trivial
    exact ⟨x, y, _, hc, hz, rfl⟩

/-- How the patch under a policy follows from the one where zeros are set: a zero is unset
instead, or left out. -/
def Treats (h : Heap) (o : Options) (old new : Value) : ZeroPolicy → Patch → Patch → Prop
  | .set, p, q => q = p
  | .unset, p, q => q.filters = p.filters ∧ ∀ e, e ∈ q.entries ↔
      e ∈ p.entries ∧ ¬ ZeroAt h o old new e.2.1 ∨
        e = (.unset, e.2.1, .text "") ∧ ZeroAt h o old new e.2.1
  | .ignore, p, q => q.filters = p.filters ∧ ∀ e, e ∈ q.entries ↔
      e ∈ p.entries ∧ ¬ ZeroAt h o old new e.2.1

/-- What two patches hold that settle the same findings. -/
theorem mem_entries_settled {policy : ZeroPolicy} {p : Patch} {n : Nat}
    (hp : (p, n) = replayAll (.plain "") (settleAll policy fs) (.empty, 0)) {e : Operator × String × Value} :
    e ∈ p.entries ↔ ∃ r, (recordsAt e.2.1 (recordsFrom 0 (settleAll policy fs))).getLast? = some r ∧
      r.operator = e.1 ∧ r.value = e.2.2 := by
  rw [mem_entries (accumulates_changes hp).1, lastOn_recordsAt]

/-- A zero is all that is recorded at its path. -/
theorem mem_entries_zero {policy : ZeroPolicy} {p : Patch} {n : Nat} (hs : Spread fs)
    (hp : (p, n) = replayAll (.plain "") (settleAll policy fs) (.empty, 0)) {path : List Label}
    {v : Value} (hm : .zero path v ∈ fs) {operator : Operator} {w : Value} :
    (operator, (joinAll (.plain "") path).text, w) ∈ p.entries ↔ match policy with
      | .set => operator = .set ∧ w = v
      | .unset => operator = .unset ∧ w = .text ""
      | .ignore => False := by
  rw [mem_entries_settled hp, recordsAt_zero hs hm]
  cases policy with
  | ignore => simp [Finding.settle, recordsFrom]
  | set => simp [Finding.settle, recordsFrom, Change.record?, eq_comm]
  | unset => simp [Finding.settle, recordsFrom, Change.record?, eq_comm]

/-- A policy treats the patch where zeros are set. -/
theorem treats_settled (hf : Finds h { o with zeros := .set } (.compare old new) (.plain "") fs)
    (hs : Spread fs) {policy : ZeroPolicy} {p q : Patch} {m n : Nat}
    (hp : (p, m) = replayAll (.plain "") (settleAll .set fs) (.empty, 0))
    (hq : (q, n) = replayAll (.plain "") (settleAll policy fs) (.empty, 0)) :
    Treats h o old new policy p q := by
  have hzeros : ∀ {path}, ZeroAt h o old new path ↔
      ∃ p v, .zero p v ∈ fs ∧ (joinAll (.plain "") p).text = path := by
    intro path
    rw [← zeroAt_iff hf]
    simp only [ZeroAt, compared_zeros]
  have hfilters : q.filters = p.filters := by
    rw [(accumulates_changes hq).2, (accumulates_changes hp).2, filtersFrom_settleAll]
  have helse : ∀ e : Operator × String × Value, ¬ ZeroAt h o old new e.2.1 →
      (e ∈ q.entries ↔ e ∈ p.entries) := by
    intro e hz
    have hz : ∀ p v, .zero p v ∈ fs → (joinAll (.plain "") p).text ≠ e.2.1 :=
      fun p v hm he => hz (hzeros.mpr ⟨p, v, hm, he⟩)
    rw [mem_entries_settled hq, mem_entries_settled hp, recordsAt_elsewhere hz]
  cases policy with
  | set => exact (Prod.mk.inj (hq.trans hp.symm)).1
  | unset =>
    refine ⟨hfilters, fun e => ?_⟩
    by_cases hz : ZeroAt h o old new e.2.1
    · obtain ⟨operator, place, w⟩ := e
      obtain ⟨path, v, hm, rfl⟩ := hzeros.mp hz
      simp only [hz, not_true_eq_false, and_false, false_or, and_true, Prod.mk.injEq, true_and]
      exact mem_entries_zero hs hq hm
    · simp only [hz, not_false_eq_true, and_true, and_false, or_false]
      exact helse e hz
  | ignore =>
    refine ⟨hfilters, fun e => ?_⟩
    by_cases hz : ZeroAt h o old new e.2.1
    · obtain ⟨operator, place, w⟩ := e
      obtain ⟨path, v, hm, rfl⟩ := hzeros.mp hz
      simp only [hz, not_true_eq_false, and_false, iff_false]
      exact (mem_entries_zero hs hq hm).mp
    · simp only [hz, not_false_eq_true, and_true]
      exact helse e hz

/-- **Zero policies differ only at zeros.** Let the parts of two values have plain names of their
own and classes that are known. Then every policy refuses the comparison of the two with the same
fault, or every policy makes a patch. A zero is set where it is to be set, and nothing else is
recorded there; each other patch is that one with its zeros unset or left out. -/
theorem diff_zero_policies (hno : h.Everywhere h.WellNamed old) (hnn : h.Everywhere h.WellNamed new)
    (hfo : h.Everywhere (Object.Follows K) old) (hfn : h.Everywhere (Object.Follows K) new) :
    (∃ e, ∀ policy, (diff h { o with zeros := policy } old new).1 = .error e) ∨
    ∃ patch : ZeroPolicy → Patch,
      (∀ policy, (diff h { o with zeros := policy } old new).1 = .ok (patch policy)) ∧
      (∀ x y place, Compared h o old new x y place → BecomesZero h x y → ∀ operator v,
        (operator, place.text, v) ∈ (patch .set).entries ↔ operator = .set ∧ v = y) ∧
      ∀ policy, Treats h o old new policy (patch .set) (patch policy) := by
  have ho := everywhere_orderly hno hfo
  have hn := everywhere_orderly hnn hfn
  have htwo := fun policy : ZeroPolicy =>
    diff_abreast (finds_compare (o := { o with zeros := .set }) policy ho hn) rfl
  cases hset : (diff h { o with zeros := .set } old new).1 with
  | error e =>
    refine .inl ⟨e, fun policy => ?_⟩
    rcases htwo policy with ⟨e', he, he'⟩ | ⟨p, _, _, _, _, _, hp, _⟩
    · cases hset.symm.trans he
      exact he'
    · cases hset.symm.trans hp
  | ok p =>
    have hruns : ∀ policy, ∃ q fs m n, (diff h { o with zeros := policy } old new).1 = .ok q ∧
        Finds h { o with zeros := .set } (.compare old new) (.plain "") fs ∧
        (p, m) = replayAll (.plain "") (settleAll .set fs) (.empty, 0) ∧
        (q, n) = replayAll (.plain "") (settleAll policy fs) (.empty, 0) := by
      intro policy
      rcases htwo policy with ⟨e, he, _⟩ | ⟨p', q, cs, ds, m, n, hp, hq, ⟨fs, hf, rfl, rfl⟩, hpr, hqr⟩
      · cases hset.symm.trans he
      · cases hset.symm.trans hp
        exact ⟨q, fs, m, n, hq, hf, hpr, hqr⟩
    choose patch hruns using hruns
    have hself : patch .set = p := by
      obtain ⟨_, _, _, hq, _⟩ := hruns .set
      exact Except.ok.inj (hq.symm.trans hset)
    refine .inr ⟨patch, fun policy => ?_, fun x y place hc hz operator v => ?_, fun policy => ?_⟩
    · obtain ⟨_, _, _, hq, _⟩ := hruns policy
      exact hq
    · obtain ⟨fs, _, _, _, hf, hp, _⟩ := hruns .set
      obtain ⟨ls, rfl, hm⟩ := finds_zero hf (compared_zeros.mpr hc) hz
      rw [hself]
      exact mem_entries_zero (finds_spread hf ⟨ho, hn⟩) hp hm
    · obtain ⟨fs, _, _, _, hf, hp, hq⟩ := hruns policy
      rw [hself]
      exact treats_settled hf (finds_spread hf ⟨ho, hn⟩) hp hq

/-- Two counters, of which one is back at zero. -/
def counters : Heap :=
  ⟨#[.record ⟨"Counter", .freeform⟩ [("hits", 3), ("misses", 4)],
    .record ⟨"Counter", .freeform⟩ [("hits", 5), ("misses", 6)],
    .int none 3, .int none 1, .int none 0, .int none 2]⟩

theorem diff_zero_policies_counters :
    counters.Everywhere counters.WellNamed (.ref 1) ∧ counters.Everywhere counters.WellNamed (.ref 2) ∧
    counters.Everywhere (Object.Follows freeforms) (.ref 1) ∧
    counters.Everywhere (Object.Follows freeforms) (.ref 2) ∧
    ∃ patch : ZeroPolicy → Patch,
      (∀ policy, (diff counters { Options.default with zeros := policy } (.ref 1) (.ref 2)).1 =
        .ok (patch policy)) ∧
      (.set, "hits", .ref 5) ∈ (patch .set).entries ∧
      (.unset, "hits", .text "") ∈ (patch .unset).entries ∧
      ∀ operator v, (operator, "hits", v) ∉ (patch .ignore).entries := by
  have hnamed : ∀ a < counters.size, (∀ s ∈ counters.partNames (counters.view (.ref a)), PlainName s) ∧
      (counters.partNames (counters.view (.ref a))).Nodup := by decide +kernel
  have hfollows : ∀ a < counters.size, (counters.view (.ref a)).Follows freeforms := by decide
  have hwell := everywhere_ref wellNamed_nil fun a ha => ⟨(hnamed a ha).1, (hnamed a ha).2⟩
  have hclasses := everywhere_ref (Object.follows_nil freeforms) hfollows
  have hfields : (activeFields counters .default (.ref 1) (.ref 2) (.plain "")).toOption =
      some [(⟨"hits", "hits", false⟩, .plain "hits"), (⟨"misses", "misses", false⟩, .plain "misses")] := by
    decide +kernel
  have hvalues : (counters.deepEqual (.ref 3) (.ref 5)).toOption = some false ∧
      (counters.isZeroValue (.ref 5)).toOption = some true := by decide +kernel
  have hruns : (diff counters { Options.default with zeros := .set } (.ref 1) (.ref 2)).1.toOption.isSome := by
    decide +kernel
  have hmeets : Compared counters .default (.ref 1) (.ref 2) (.ref 3) (.ref 5) (.plain "hits") :=
    .into .root (.field (x := .ref 1) (y := .ref 2) (p := (⟨"hits", "hits", false⟩, .plain "hits"))
      rfl rfl (ok_of_toOption hfields) (List.mem_cons_self ..))
  have hzero : BecomesZero counters (.ref 3) (.ref 5) :=
    ⟨nofun, nofun, rfl, rfl, ok_of_toOption hvalues.1, ok_of_toOption hvalues.2⟩
  rcases diff_zero_policies (o := .default) (hwell 1) (hwell 2) (hclasses 1) (hclasses 2) with
    ⟨e, he⟩ | ⟨patch, hpatch, hset, htreats⟩
  · rw [he .set] at hruns
    cases hruns
  · have hat : ZeroAt counters .default (.ref 1) (.ref 2) "hits" := ⟨_, _, _, hmeets, hzero, rfl⟩
    refine ⟨hwell 1, hwell 2, hclasses 1, hclasses 2, patch, hpatch, ?_, ?_, fun operator v hv => ?_⟩
    · exact (hset _ _ _ hmeets hzero .set _).mpr ⟨rfl, rfl⟩
    · exact ((htreats .unset).2 _).mpr (.inr ⟨rfl, hat⟩)
    · exact (((htreats .ignore).2 _).mp hv).2 hat

end DocDelta.Diff
