import DocDelta.Proofs.Diff.Merging
import DocDelta.Proofs.Patch.Accumulation
import DocDelta.Report

/-! Reading pushed items back.

A push of several items records them as a list under `$each`, a push of one item records that item.
A reader of the patch tells the two apart by looking for `$each`. So it gets the pushed items back
(`recorded_readBack`), unless a single item is itself a map with such an entry: that one is taken
for the items it lists (`push_misread`). -/
namespace DocDelta.Report
open Heap Patch Diff
variable {h : Heap}

/-! ### One push -/

/-- The items that a report goes through for a pushed value. -/
def readBack (h : Heap) (v : Value) : Except Fault (List Value) := h.iterate (pushedItems h v)

/-- What a value has under `$each`, if it is a map. -/
def listed? (h : Heap) (v : Value) : Option Value := (h.mapEntries? v).bind (h.entry? Operator.each)

/-- No single item that lists others. -/
def Unambiguous (h : Heap) (vs : List Value) : Prop := ∀ v, vs = [v] → listed? h v = none

theorem readBack_of_listed {v items : Value} (hl : listed? h v = some items) :
    readBack h v = h.iterate items := by
  have hl : (h.mapEntries? v).bind (h.entry? Operator.each) = some items := hl
  rw [readBack, pushedItems, hl]

theorem readBack_single {v : Value} (hl : listed? h v = none) : readBack h v = .ok [v] := by
  have hl : (h.mapEntries? v).bind (h.entry? Operator.each) = none := hl
  rw [readBack, pushedItems, hl]
  rfl

theorem readBack_several (vs : List Value) :
    readBack h (.table [(Operator.each, .list vs)]) = .ok vs := rfl

/-- What a push records is held under it, whatever the patch held before. -/
theorem held?_push (p : Patch) {path : Label} {vs : List Value} {r : Record}
    (hr : pushed? path vs = some r) : held? (p.push path vs) .push path.text = some r.value := by
  have hpush : r.operator = .push ∧ r.path = path := by
    match vs with
    | [] => cases hr
    | [_] => cases hr; exact ⟨rfl, rfl⟩
    | _ :: _ :: _ => cases hr; exact ⟨rfl, rfl⟩
  rw [push_eq, hr]
  show heldIn (putUnder r.operator r.path r.value _) .push path.text = _
  rw [heldIn_putUnder, hpush.1, hpush.2, if_pos ⟨rfl, rfl⟩]

theorem held?_push_single (p : Patch) (path : Label) (v : Value) :
    held? (p.push path [v]) .push path.text = some v := by
  have hsingle : pushed? path [v] = some ⟨.push, path, v⟩ := rfl
  exact held?_push p hsingle

/-- A patch holds a push at a path from which the items can be read back. -/
def Pushes (h : Heap) (p : Patch) (path : Label) (vs : List Value) : Prop :=
  ∃ v, held? p .push path.text = some v ∧ readBack h v = .ok vs

theorem pushes_push (p : Patch) (path : Label) {vs : List Value} (hne : vs ≠ [])
    (hvs : Unambiguous h vs) : Pushes h (p.push path vs) path vs := by
  match vs with
  | [] => exact absurd rfl hne
  | [v] => exact ⟨v, held?_push_single p path v, readBack_single (hvs v rfl)⟩
  | v :: w :: vs => exact ⟨_, held?_push p rfl, readBack_several (v :: w :: vs)⟩

/-! ### Sequences that got longer -/

/-- Items that begin with others, up to deep equality, and go on. -/
structure Extends (h : Heap) (xs ys : List Value) : Prop where
  longer : xs.length < ys.length
  equal : List.Forall₂ (fun x y => h.deepEqual x y = .ok true) xs (ys.take xs.length)

/-- Where the strategy that looks at single items replaces a sequence that got longer. -/
def Refused (h : Heap) (xs ys : List Value) : Prop :=
  xs = [] ∨ ys.length / 2 < ys.length - xs.length ∨ startsPrimitive h xs = true

instance (xs ys : List Value) : Decidable (Refused h xs ys) :=
  match xs with
  | [] => .isTrue (.inl rfl)
  | x :: xs => decidable_of_iff (ys.length / 2 < ys.length - (x :: xs).length ∨
      startsPrimitive h (x :: xs) = true) ⟨.inr, fun hr => hr.resolve_left nofun⟩

section Sequences
variable {old new : Value} {xs ys : List Value}

/-- Sequences of different lengths are not deeply equal. -/
theorem deepEqual_of_length (hk : (h.view old).kind = .sequence)
    (hx : (h.view old).items? = some xs) (hy : (h.view new).items? = some ys)
    (hl : xs.length ≠ ys.length) : h.deepEqual old new = .ok false := by
  have hbound : h.pairBound old new = (old.depth + new.depth + h.size * h.size) + 1 := rfl
  have hdiffer : Value.isSame h old new ≠ true := fun hs => by
    rw [view_eq_of_isSame hs, hy] at hx
    exact hl (congrArg List.length (Option.some.inj hx)).symm
  have hassume : ∃ active, h.assume [] old new = some active := by
    unfold Heap.assume
    split
    · exact ⟨_, rfl⟩
    · exact ⟨_, rfl⟩
  obtain ⟨active, hactive⟩ := hassume
  rw [deepEqual, hbound, deepEqualWithin, hk]
  dsimp only
  rw [if_neg hdiffer, hactive]
  split
  · rfl
  · simp only [equalParts, hk, hx, hy, Option.getD_some, if_neg hl]

theorem firstChange_of_extends {i : Nat} (he : Extends h xs ys) :
    firstChange h i xs ys = .ok none := by
  obtain ⟨-, he⟩ := he
  induction xs generalizing ys i with
  | nil => rfl
  | cons x xs ih =>
    cases ys with
    | nil => cases he
    | cons y ys =>
      cases he with
      | cons hxy he =>
        rw [firstChange, hxy]
        exact ih he

theorem changedPlaces_of_extends {i : Nat} (he : Extends h xs ys) :
    changedPlaces h i xs ys = .ok [] := by
  obtain ⟨-, he⟩ := he
  induction xs generalizing ys i with
  | nil => rfl
  | cons x xs ih =>
    cases ys with
    | nil => cases he
    | cons y ys =>
      cases he with
      | cons hxy he =>
        rw [changedPlaces, hxy]
        show (changedPlaces h (i + 1) xs ys >>= _) = _
        rw [ih he]
        rfl

variable (hko : (h.view old).kind = .sequence) (hkn : (h.view new).kind = .sequence)
variable (hx : (h.view old).items? = some xs) (hy : (h.view new).items? = some ys)
include hko hkn hx hy

/-- Appending to a sequence that got longer pushes the new items. -/
theorem run_appendSequence (he : Extends h xs ys) (path : Label) (s : State) :
    (appendSequence h old new path).run s =
      (.ok (), { s with patch := s.patch.push path (ys.drop xs.length) }) := by
  have hdiffer := deepEqual_of_length hko hx hy (Nat.ne_of_lt he.longer)
  rw [appendSequence, run_unlessEqual, hdiffer]
  simp only [run_bind, run_ask, itemsOf_items hko hx, itemsOf_items hkn hy,
    firstChange_of_extends he, if_neg (Nat.not_lt.mpr (Nat.le_of_lt he.longer))]
  rfl

/-- So does the strategy that looks at single items, unless it refuses to. -/
theorem run_smartSequence (he : Extends h xs ys) (path : Label) (s : State) :
    ∃ t, (smartSequence h old new path).run s = (.ok (), t) ∧
      t.patch = if Refused h xs ys then s.patch.set path new
        else s.patch.push path (ys.drop xs.length) := by
  have hdiffer := deepEqual_of_length hko hx hy (Nat.ne_of_lt he.longer)
  have hlonger := he.longer
  have hmax : max xs.length ys.length = ys.length := Nat.max_eq_right (Nat.le_of_lt hlonger)
  have hmin : min xs.length ys.length = xs.length := Nat.min_eq_left (Nat.le_of_lt hlonger)
  have hempty : xs.length = 0 ↔ xs = [] := List.length_eq_zero_iff
  have hfull : ys.length ≠ 0 := by omega
  have hfallBack : ∀ reason, Refused h xs ys →
      ∃ t, (fallBack h reason old new path).run s = (.ok (), t) ∧
        t.patch = if Refused h xs ys then s.patch.set path new
          else s.patch.push path (ys.drop xs.length) := fun reason hrefused => by
    rw [if_pos hrefused]
    exact run_fallBack reason hdiffer s
  rw [smartSequence, run_unlessEqual, hdiffer]
  simp only [run_bind, run_ask, itemsOf_items hko hx, itemsOf_items hkn hy, hmax, hmin, hempty,
    hfull, or_false, Bool.or_eq_true, decide_eq_true_eq,
    changedPlaces_of_extends he]
  split
  · rename_i hlength
    exact hfallBack _ (hlength.imp_right .inl)
  · rename_i hlength
    split
    · rename_i hprimitive
      exact hfallBack _ (.inr (.inr hprimitive))
    · rename_i hprimitive
      have haccepted : ¬ Refused h xs ys := by
        rintro (hnil | hlong | hstart)
        · exact hlength (.inl hnil)
        · exact hlength (.inr hlong)
        · exact hprimitive hstart
      rw [if_neg haccepted]
      refine ⟨{ s with patch := s.patch.push path (ys.drop xs.length) }, ?_, rfl⟩
      simp only [run_bind, run_ask, ne_eq, not_true_eq_false, false_and, if_false]
      rfl

end Sequences

/-! ### Whatever the sequences are -/

/-- What is pushed at a path, if anything is, reads back as the given items. -/
structure PushesOnly (h : Heap) (path : Label) (vs : List Value) (s : State) : Prop where
  tidy : Tidy s.patch.groups
  reads : ∀ v, held? s.patch .push path.text = some v → readBack h v = .ok vs

/-- A walk after which only the given items are pushed at a path, if that holds before it. -/
def Safe {α : Type} (h : Heap) (path : Label) (vs : List Value) (m : Walk α) : Prop :=
  ∀ s, PushesOnly h path vs s → PushesOnly h path vs (m.run s).2

section Safe
variable {α β : Type} {path : Label} {vs : List Value}

theorem safe_ask (answer : Except Fault α) : Safe h path vs (Diff.ask answer) := fun _ hs => hs

theorem safe_bind {m : Walk α} {f : α → Walk β} (hm : Safe h path vs m)
    (hf : ∀ a, Safe h path vs (f a)) : Safe h path vs (m >>= f) := by
  intro s hs
  have ht := hm s hs
  rw [run_bind]
  rcases hr : m.run s with ⟨e | a, t⟩
  · rwa [hr] at ht
  · rw [hr] at ht
    exact hf a t ht

/-- An answer that is known is gone on with. -/
theorem safe_bind_ok {a : α} {f : α → Walk β} (hf : Safe h path vs (f a)) :
    Safe h path vs (Diff.ask (.ok a) >>= f) := fun s hs => hf s hs

theorem safe_forM {f : α → Walk Unit} {xs : List α} (hf : ∀ x, Safe h path vs (f x)) :
    Safe h path vs (xs.forM f) := by
  induction xs with
  | nil => exact fun _ hs => hs
  | cons x xs ih => exact safe_bind (hf x) fun _ => ih

theorem safe_log (level : Level) (text : String) : Safe h path vs (log level text) :=
  fun _ hs => ⟨hs.tidy, hs.reads⟩

/-- A record of another operator pushes nothing, at whatever path. -/
theorem safe_set (l : Label) (v : Value) : Safe h path vs (onPatch (·.set l v)) := by
  intro s hs
  refine ⟨tidy_enter hs.tidy ⟨.set, l, v⟩, fun w hw => ?_⟩
  have hheld : held? (enter s.patch ⟨.set, l, v⟩) .push path.text = some w := hw
  rw [held?_enter hs.tidy] at hheld
  by_cases hl : l.text = path.text
  · simp [hl] at hheld
  · exact hs.reads w (by simpa [hl] using hheld)

theorem safe_push (hvs : Unambiguous h vs) : Safe h path vs (onPatch (·.push path vs)) := by
  intro s hs
  by_cases hnil : vs = []
  · subst hnil
    exact ⟨hs.tidy, hs.reads⟩
  obtain ⟨v, hv, hread⟩ := pushes_push s.patch path hnil hvs
  refine ⟨?_, fun w hw => ?_⟩
  · show Tidy (s.patch.push path vs).groups
    rw [push_eq]
    cases pushed? path vs with
    | none => exact hs.tidy
    | some r => exact tidy_enter hs.tidy r
  · have hheld : held? (s.patch.push path vs) .push path.text = some w := hw
    rw [hv] at hheld
    cases hheld
    exact hread

theorem safe_setAt (i : Nat) (v : Value) (l : Label) : Safe h path vs (setAt i v l) := by
  refine safe_bind (fun _ hs => ⟨hs.tidy, hs.reads⟩) fun name => ?_
  exact safe_bind (fun _ hs => ⟨hs.tidy, hs.reads⟩) fun _ => safe_set _ _

theorem safe_unlessEqual {old new : Value} {body : Walk Unit} (hbody : Safe h path vs body) :
    Safe h path vs (unlessEqual h old new body) := by
  refine safe_bind (safe_ask _) fun equal => ?_
  cases equal with
  | true => exact fun _ hs => hs
  | false => exact hbody

theorem safe_fallBack (reason : String) (old new : Value) (l : Label) :
    Safe h path vs (fallBack h reason old new l) :=
  safe_bind (safe_log _ _) fun _ => safe_unlessEqual (safe_set _ _)

section Sequences
variable {old new : Value} {xs ys : List Value}
variable (hko : (h.view old).kind = .sequence) (hkn : (h.view new).kind = .sequence)
variable (hx : (h.view old).items? = some xs) (hy : (h.view new).items? = some ys)
variable (htail : Unambiguous h (ys.drop xs.length))
include hko hkn hx hy htail

theorem safe_appendSequence : Safe h path (ys.drop xs.length) (appendSequence h old new path) := by
  rw [appendSequence, itemsOf_items hko hx, itemsOf_items hkn hy]
  refine safe_unlessEqual (safe_bind_ok (safe_bind_ok ?_))
  split
  · exact safe_fallBack _ _ _ _
  · refine safe_bind (safe_ask _) fun change => ?_
    cases change with
    | some i => exact safe_fallBack _ _ _ _
    | none => exact safe_push htail

theorem safe_smartSequence : Safe h path (ys.drop xs.length) (smartSequence h old new path) := by
  rw [smartSequence, itemsOf_items hko hx, itemsOf_items hkn hy]
  refine safe_unlessEqual (safe_bind_ok (safe_bind_ok ?_))
  dsimp only
  split
  · exact safe_fallBack _ _ _ _
  split
  · exact safe_fallBack _ _ _ _
  refine safe_bind (safe_ask _) fun changed => ?_
  split
  · exact safe_fallBack _ _ _ _
  split
  · exact safe_forM fun i => safe_setAt _ _ _
  split
  · exact safe_push htail
  · exact safe_fallBack _ _ _ _

end Sequences
end Safe

/-! ### The claim -/

/-- **What is pushed can be read back** from what the patch holds, unless it is one item that
lists others: then those are read. So a sequence that got longer has its new items pushed, and
whatever the sequences are, a push that a comparison leaves at their path stands for the items
behind the length of the old one. -/
theorem recorded_readBack (h : Heap) :
    (∀ (p : Patch) (path : Label) (vs : List Value), vs ≠ [] → Unambiguous h vs →
      Pushes h (p.push path vs) path vs) ∧
    (∀ (p : Patch) (path : Label) (v items : Value), listed? h v = some items →
      held? (p.push path [v]) .push path.text = some v ∧ readBack h v = h.iterate items) ∧
    ∀ (old new : Value) (xs ys : List Value) (path : Label) (s : State),
      (h.view old).kind = .sequence → (h.view new).kind = .sequence →
      (h.view old).items? = some xs → (h.view new).items? = some ys →
      Unambiguous h (ys.drop xs.length) →
      (Tidy s.patch.groups → held? s.patch .push path.text = none →
        PushesOnly h path (ys.drop xs.length) ((appendSequence h old new path).run s).2 ∧
        PushesOnly h path (ys.drop xs.length) ((smartSequence h old new path).run s).2) ∧
      (Extends h xs ys →
        (∃ t, (appendSequence h old new path).run s = (.ok (), t) ∧
          Pushes h t.patch path (ys.drop xs.length)) ∧
        ∃ t, (smartSequence h old new path).run s = (.ok (), t) ∧
          if Refused h xs ys then t.patch = s.patch.set path new
          else Pushes h t.patch path (ys.drop xs.length)) := by
  refine ⟨fun p path vs => pushes_push p path, fun p path v items hl =>
    ⟨held?_push_single p path v, readBack_of_listed hl⟩, ?_⟩
  intro old new xs ys path s hko hkn hx hy htail
  refine ⟨fun htidy hnone => ?_, fun he => ?_⟩
  · have hs : PushesOnly h path (ys.drop xs.length) s :=
      ⟨htidy, fun v hv => by cases hnone.symm.trans hv⟩
    exact ⟨safe_appendSequence hko hkn hx hy htail s hs,
      safe_smartSequence hko hkn hx hy htail s hs⟩
  · have hne : ys.drop xs.length ≠ [] := by simpa using he.longer
    refine ⟨⟨_, run_appendSequence hko hkn hx hy he path s, pushes_push _ path hne htail⟩, ?_⟩
    obtain ⟨t, ht, hpatch⟩ := run_smartSequence hko hkn hx hy he path s
    refine ⟨t, ht, ?_⟩
    split
    · rename_i hrefused
      rwa [if_pos hrefused] at hpatch
    · rename_i haccepted
      rw [hpatch, if_neg haccepted]
      exact pushes_push _ path hne htail

/-- A cart of one line, and the same cart with a line more. -/
def carts : Heap :=
  ⟨#[.text none "sku", .text none "$inc", .text none "$each", .int none 7,
    .map none [(1, 4)], .map none [(1, 4)], .map none [(2, 4)],
    .list none [5], .list none [6, 7], .list none [4, 1], .map none [(3, 10)]]⟩

theorem recorded_readBack_carts :
    Unambiguous carts [.ref 7] ∧ Extends carts [.ref 5] [.ref 6, .ref 7] ∧
    Pushes carts (Patch.empty.push (.plain "lines") [.ref 5, .ref 7]) (.plain "lines")
      [.ref 5, .ref 7] ∧
    readBack carts (.ref 11) = .ok [.ref 4, .ref 1] ∧
    PushesOnly carts (.plain "lines") [.ref 7]
      ((appendSequence carts (.ref 8) (.ref 9) (.plain "lines")).run .start).2 ∧
    ∃ t, (smartSequence carts (.ref 8) (.ref 9) (.plain "lines")).run .start = (.ok (), t) ∧
      Pushes carts t.patch (.plain "lines") [.ref 7] := by
  have hone : Unambiguous carts [.ref 7] := fun v hv => by cases hv; rfl
  have hextends : Extends carts [.ref 5] [.ref 6, .ref 7] :=
    ⟨by decide, .cons (by rfl) .nil⟩
  obtain ⟨hpush, hlisted, hsequences⟩ := recorded_readBack carts
  obtain ⟨honly, hlonger⟩ := hsequences (.ref 8) (.ref 9) [.ref 5] [.ref 6, .ref 7]
    (.plain "lines") .start rfl rfl rfl rfl hone
  obtain ⟨t, ht, hsmart⟩ := (hlonger hextends).2
  have haccepted : ¬ Refused carts [.ref 5] [.ref 6, .ref 7] := by decide
  rw [if_neg haccepted] at hsmart
  exact ⟨hone, hextends, hpush _ _ _ nofun nofun,
    (hlisted .empty (.plain "lines") (.ref 11) (.ref 10) rfl).2,
    (honly ⟨List.nodup_nil, nofun, nofun⟩ rfl).1, t, ht, hsmart⟩

/-- **One item that lists others is misread**: the items it lists are read in its place. -/
theorem push_misread :
    ¬ ∀ (h : Heap) (p : Patch) (path : Label) (vs : List Value), vs ≠ [] →
      Pushes h (p.push path vs) path vs := by
  intro hall
  obtain ⟨v, hv, hread⟩ := hall carts .empty (.plain "tags") [.ref 11] nofun
  have hheld : v = .ref 11 := by cases hv; rfl
  have hitems : readBack carts (.ref 11) = .ok [.ref 4, .ref 1] := rfl
  rw [hheld, hitems] at hread
  cases hread

end DocDelta.Report
