import DocDelta.Proofs.Diff.Recorded
import DocDelta.Proofs.Diff.Repairs
import DocDelta.Proofs.Diff.Tally
import DocDelta.Proofs.Value.Bisimilarity

/-! Changes at the same places.

Two comparisons may record other operations and still touch the same paths: one sets what the
other unsets, or pushes items where the other replaces a sequence. `SamePlaces` is that
correspondence, as long as no item is changed by its place. A walk that treats its two values as a
whole `Alters` its place once, or not at all where they are equal. -/
namespace DocDelta.Diff
open Heap Patch

/-! ### Places -/

/-- Changes of whole values that are recorded at the same places. -/
structure SamePlaces (cs ds : List Change) : Prop where
  left : ∀ c ∈ cs, c.takes = 0
  right : ∀ d ∈ ds, d.takes = 0
  places : ∀ ns, ns ∈ placesFrom 0 cs ↔ ns ∈ placesFrom 0 ds

theorem takes_under (l : Label) (c : Change) : (c.under l).takes = c.takes := by
  cases c <;> rfl

/-- A change of a whole value is recorded at its path, unless nothing is pushed. -/
theorem mem_placesFrom_whole {cs : List Change} (hw : ∀ c ∈ cs, c.takes = 0) {ns : List String} :
    ns ∈ placesFrom 0 cs ↔
      ∃ c ∈ cs, (c.record? 0).isSome = true ∧ ns = c.path.map (·.text) := by
  induction cs with
  | nil => exact ⟨nofun, nofun⟩
  | cons c cs ih =>
    obtain ⟨hc, hw⟩ := List.forall_mem_cons.mp hw
    have hnames : c.names 0 = c.path.map (·.text) := by
      cases c with
      | whole path action => rfl
      | item path index v => cases hc
    rw [placesFrom, hc, List.mem_append, ih hw, hnames]
    simp only [List.mem_cons, exists_eq_or_imp]
    refine or_congr_left ?_
    cases c.record? 0 with
    | none => simp
    | some r => simp

/-- Whether a change is recorded does not depend on what is above it. -/
theorem isSome_record_under (l : Label) (c : Change) :
    ((c.under l).record? 0).isSome = (c.record? 0).isSome := by
  cases c with
  | item path index v => rfl
  | whole path action =>
    cases action with
    | push items => match items with
      | [] => rfl
      | [_] => rfl
      | _ :: _ :: _ => rfl
    | _ => rfl

theorem SamePlaces.symm {cs ds : List Change} (hs : SamePlaces cs ds) : SamePlaces ds cs :=
  ⟨hs.right, hs.left, fun ns => (hs.places ns).symm⟩

/-- Walks may be put together in any order as far as places go. -/
theorem tallying_places :
    Tallying (fun l k => l.text = k.text) (fun _ _ => True) SamePlaces where
  nil := ⟨nofun, nofun, fun _ => Iff.rfl⟩
  append := by
    rintro as as' bs bs' ⟨hl, hr, hp⟩ ⟨hl', hr', hp'⟩
    have hleft := List.forall_mem_append.mpr ⟨hl, hl'⟩
    have hright := List.forall_mem_append.mpr ⟨hr, hr'⟩
    refine ⟨hleft, hright, fun ns => ?_⟩
    have hp := hp ns
    have hp' := hp' ns
    rw [mem_placesFrom_whole hl, mem_placesFrom_whole hr] at hp
    rw [mem_placesFrom_whole hl', mem_placesFrom_whole hr'] at hp'
    rw [mem_placesFrom_whole hleft, mem_placesFrom_whole hright]
    simp only [List.mem_append, or_and_right, exists_or, hp, hp']
  under := by
    rintro as bs l k hlk ⟨hl, hr, hp⟩
    have hwhole : ∀ {cs : List Change} (l : Label), (∀ c ∈ cs, c.takes = 0) →
        ∀ c ∈ cs.map (·.under l), c.takes = 0 := by
      intro cs l hw c hc
      obtain ⟨c, hm, rfl⟩ := List.mem_map.mp hc
      rw [takes_under]
      exact hw c hm
    have hplaces : ∀ {cs : List Change} (l : Label), (∀ c ∈ cs, c.takes = 0) → ∀ ns,
        ns ∈ placesFrom 0 (cs.map (·.under l)) ↔ ∃ ms ∈ placesFrom 0 cs, ns = l.text :: ms := by
      intro cs l hw ns
      rw [mem_placesFrom_whole (hwhole l hw)]
      constructor
      · rintro ⟨c, hc, hs, rfl⟩
        obtain ⟨c, hm, rfl⟩ := List.mem_map.mp hc
        rw [isSome_record_under] at hs
        refine ⟨_, (mem_placesFrom_whole hw).mpr ⟨c, hm, hs, rfl⟩, ?_⟩
        rw [Change.path_under, List.map_cons]
      · rintro ⟨ms, hms, rfl⟩
        obtain ⟨c, hm, hs, rfl⟩ := (mem_placesFrom_whole hw).mp hms
        refine ⟨_, List.mem_map_of_mem hm, (isSome_record_under l c).trans hs, ?_⟩
        rw [Change.path_under, List.map_cons]
    refine ⟨hwhole l hl, hwhole k hr, fun ns => ?_⟩
    rw [hplaces l hl, hplaces k hr, hlk]
    simp only [hp]
  perm := by
    rintro as es es' hperm - ⟨hl, hr, hp⟩
    have hmem : ∀ d, d ∈ spread es' ↔ d ∈ spread es := fun d => (hperm.flatMap_right _).mem_iff.symm
    have hr' : ∀ d ∈ spread es', d.takes = 0 := fun d hd => hr d ((hmem d).mp hd)
    refine ⟨hl, hr', fun ns => ?_⟩
    rw [hp, mem_placesFrom_whole hr, mem_placesFrom_whole hr']
    simp only [hmem]

theorem allows_places :
    Allows (fun _ => True) (fun l k => l.text = k.text) (fun _ _ => True) :=
  ⟨fun _ he => he, fun _ _ _ => trivial⟩

theorem SamePlaces.paths {cs ds : List Change} (hs : SamePlaces cs ds) (path : String) :
    path ∈ (recordsFrom 0 cs).map (·.path.text) ↔ path ∈ (recordsFrom 0 ds).map (·.path.text) := by
  rw [paths_recordsFrom, paths_recordsFrom]
  simp only [List.mem_map, hs.places]

/-! ### Values as a whole -/

/-- An action that is recorded. -/
def Action.Recorded : Action → Prop
  | .push items => items ≠ []
  | _ => True

theorem samePlaces_here {a b : Action} (ha : a.Recorded) (hb : b.Recorded) :
    SamePlaces [.whole [] a] [.whole [] b] := by
  have hone : ∀ {a : Action}, a.Recorded → ∀ ns, ns ∈ placesFrom 0 [.whole [] a] ↔ ns = [] := by
    intro a ha ns
    have hs : ((Change.whole [] a).record? 0).isSome = true := by
      cases a with
      | push items => match items with
        | [] => exact absurd rfl ha
        | [_] => rfl
        | _ :: _ :: _ => rfl
      | _ => rfl
    rw [mem_placesFrom_whole (by simp [Change.takes])]
    simp [hs, Change.path]
  refine ⟨by simp [Change.takes], by simp [Change.takes], fun ns => ?_⟩
  rw [hone ha, hone hb]

/-- A walk that does nothing where a test says so, records one change of the whole value where it
says the opposite, and fails where it does. -/
structure Alters (active : List (Mark × Mark)) (base : Label) (x : Except Fault Bool)
    (m : Walk Unit) : Prop extends Skips active base x m where
  once : x = .ok false → ∃ a : Action, a.Recorded ∧ Succeeds active base [.whole [] a] m

variable {h : Heap} {o : Options} {active active' : List (Mark × Mark)} {base base' path : Label}
variable {x : Except Fault Bool} {m m' : Walk Unit} {old new v : Value}

/-- Walks that ask the same touch the same places. -/
theorem Alters.tally (hm : Alters active base x m) (hm' : Alters active' base' x m') :
    Tally SamePlaces active active' base base' m m' := by
  cases x with
  | error e => exact tally_fails (hm.fault e rfl) (hm'.fault e rfl)
  | ok b =>
    cases b with
    | true => exact tallying_places.nothing (hm.nothing rfl) (hm'.nothing rfl)
    | false =>
      obtain ⟨a, ha, hm⟩ := hm.once rfl
      obtain ⟨b, hb, hm'⟩ := hm'.once rfl
      exact .inr ⟨_, _, samePlaces_here ha hb, hm, hm'⟩

/-- A change of the whole value after a test. -/
theorem alters_ask (hm : x = .ok false → ∃ a : Action, a.Recorded ∧ Succeeds active base [.whole [] a] m) :
    Alters active base x (ask x >>= fun equal => if equal then pure () else m) where
  toSkips := skips_ask
  once hx := by
    obtain ⟨a, ha, hs⟩ := hm hx
    subst hx
    exact ⟨a, ha, hs⟩

theorem succeeds_set : Succeeds active path [.whole [] (.set v)] (onPatch (·.set path v)) :=
  succeeds_onPatch fun _ _ => rfl

theorem succeeds_unset : Succeeds active path [.whole [] .unset] (onPatch (·.unset path)) :=
  succeeds_onPatch fun _ _ => rfl

theorem succeeds_log {level : Level} {text : String} : Succeeds active path [] (log level text) :=
  fun _ _ => ⟨_, rfl, rfl, rfl, rfl, rfl⟩

theorem succeeds_replace (he : h.deepEqual old new = .ok false) :
    Succeeds active path [.whole [] (.set new)] (replaceSequence h old new path) := by
  rw [replaceSequence, unlessEqual, he]
  exact succeeds_set

theorem succeeds_fallBack (he : h.deepEqual old new = .ok false) {reason : String} :
    Succeeds active path [.whole [] (.set new)] (fallBack h reason old new path) :=
  Succeeds.seq succeeds_log (succeeds_replace he)

/-- Sequences of one class are equal where their items are. -/
theorem deepEqual_of_items (hc : (h.view old).cls = (h.view new).cls)
    (hk : (h.view old).kind = .sequence) {xs ys : List Value} (hx : (h.view old).items? = some xs)
    (hy : (h.view new).items? = some ys)
    (hp : List.Forall₂ (fun x y => h.deepEqual x y = .ok true) xs ys) :
    h.deepEqual old new = .ok true := by
  refine deepEqual_of_related (.sequence hc hk ?_)
  rw [hx, hy]
  exact hp

/-- Two sequences that are replaced or appended to are altered unless they are equal. -/
theorem alters_sequence (hs : o.strategy = .replace ∨ o.strategy = .append)
    (hc : (h.view old).cls = (h.view new).cls) (hk : (h.view old).kind = .sequence)
    (hkn : (h.view new).kind = .sequence)
    (hans : ∀ xs ys, (h.view old).items? = some xs → (h.view new).items? = some ys →
      Answers (firstChange h 0 xs ys)) :
    Alters active path (h.deepEqual old new) (diffSequences h o.strategy old new path) := by
  refine alters_ask fun he => ?_
  rcases hs with hs | hs
  · rw [hs]
    exact ⟨.set new, trivial, succeeds_replace he⟩
  · rw [hs]
    obtain ⟨xs, hx⟩ := Object.items?_of_sequence hk
    obtain ⟨ys, hy⟩ := Object.items?_of_sequence hkn
    obtain ⟨found, hf⟩ := hans xs ys hx hy
    dsimp only
    rw [appendSequence, unlessEqual, he, ask_ok, if_neg (by decide), itemsOf_items hk hx,
      itemsOf_items hkn hy, ask_ok, ask_ok]
    split
    · exact ⟨.set new, trivial, succeeds_fallBack he⟩
    · rename_i hlength
      rw [hf, ask_ok]
      cases found with
      | some i => exact ⟨.set new, trivial, succeeds_fallBack he⟩
      | none =>
        refine ⟨.push (ys.drop xs.length), fun hnil => ?_, succeeds_onPatch fun _ _ => rfl⟩
        have hle : xs.length ≤ ys.length := Nat.le_of_not_lt hlength
        have hequal := firstChange_none hf hle
        rw [List.take_of_length_le (List.drop_eq_nil_iff.mp hnil)] at hequal
        rw [deepEqual_of_items hc hk hx hy hequal] at he
        cases he

end DocDelta.Diff
