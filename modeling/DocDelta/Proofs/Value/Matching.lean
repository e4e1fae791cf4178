import Mathlib.Data.List.Forall2
import DocDelta.Proofs.Value.Descent
import DocDelta.Proofs.Value.Scalars

/-! Values that match part by part.

An object of the heap matches itself, whatever it holds. Values in place are compared by their
parts, and the bound on how far equality descends grows with the values, so it never cuts such a
comparison short: lists match where their items do, and maps from the same texts where their
values do. -/
namespace DocDelta

/-- What holds of the second of every two that stand at one place holds of the second list. -/
theorem forall_right {α β : Type} {P : β → Prop} {xs : List α} {ys : List β}
    (hp : List.Forall₂ (fun _ y => P y) xs ys) : ∀ y ∈ ys, P y := by
  induction hp with
  | nil => exact nofun
  | cons hy _ ih => exact List.forall_mem_cons.mpr ⟨hy, ih⟩

/-- What is in the first list has a partner in the second. -/
theorem exists_right {α β : Type} {R : α → β → Prop} {xs : List α} {ys : List β}
    (hp : List.Forall₂ R xs ys) : ∀ x ∈ xs, ∃ y ∈ ys, R x y := by
  induction hp with
  | nil => exact nofun
  | @cons x y xs ys hxy _ ih =>
    refine List.forall_mem_cons.mpr ⟨⟨y, List.mem_cons_self .., hxy⟩, fun z hz => ?_⟩
    obtain ⟨w, hw, hzw⟩ := ih z hz
    exact ⟨w, List.mem_cons_of_mem y hw, hzw⟩

namespace Heap
open Number
variable {h : Heap} {n : Nat} {v w : Value}

theorem isSame_ref (a : Addr) : Value.isSame h (.ref a) (.ref a) = true := by
  cases hm : (Value.ref a).identity h with
  | none =>
    obtain ⟨o, ho, _⟩ := identity_eq_none hm
    cases ho
  | some m => simp [Value.isSame, hm]

/-- Objects of the heap match themselves, also those that hold a NaN. -/
theorem matching_ref (a : Addr) : h.matching (.ref a) (.ref a) = .ok true := if_pos (isSame_ref a)

/-! ### Layer by layer -/

/-- Two values match where equality goes down `n` layers. -/
def Fits (h : Heap) (n : Nat) (v w : Value) : Prop := matchPart h (h.sameWithin n) v w = .ok true

theorem Fits.mono {m : Nat} (hv : Fits h n v w) (hm : n ≤ m) : Fits h m v w :=
  stepwise_yields.matchPart (fun a b => sameWithin_mono hm a b) v w true hv

theorem matching_iff : h.matching v w = .ok true ↔ Fits h (h.pairBound v w) v w := Iff.rfl

/-- Layers that are equal whatever their parts are make values match. -/
theorem fits_of_layers (hf : (h.view v).isFreeform = false)
    (hl : h.sameObject (h.sameWithin n) (h.view v) (h.view w) = .ok true) : Fits h (n + 1) v w := by
  unfold Fits matchPart
  split
  · rfl
  · rw [sameWithin, hf, Bool.false_and, if_neg Bool.false_ne_true, hl]

theorem text_of_text? {o : Object Value} {s : String} (ht : o.text? = some s) :
    ∃ c, o = .text c s := by
  cases o <;> cases ht
  exact ⟨_, rfl⟩

/-- A layer equals a text where it is that text. -/
theorem sameObject_text {eq : Value → Value → Except Fault Bool} (x : Object Value)
    (c : Option Subclass) (s : String) : h.sameObject eq x (.text c s) = .ok (x.text? == some s) := by
  have hentries : h.entries? (.text c s) = none := entries?_none nofun
  have hitems : (Object.text c s : Object Value).tupleItems? = none := rfl
  have hnumbers : ∀ b, sameObject.numbers h b (.text c s) = .ok false := fun b => by
    unfold sameObject.numbers
    cases h.numeric? b <;> rfl
  cases x with
  | text d t => rfl
  | map d es => simp only [sameObject, hentries]; rfl
  | mapView t => simp only [sameObject, hentries]; split <;> first | rfl | simp_all
  | _ => simp [sameObject, hitems, hnumbers, Object.text?]

/-- A text equals a layer where that is the text. -/
theorem text_sameObject {eq : Value → Value → Except Fault Bool} (c : Option Subclass) (s : String)
    (y : Object Value) : h.sameObject eq (.text c s) y = .ok (some s == y.text?) := by
  have hnumbers : ∀ b, sameObject.numbers h (.text c s) b = .ok false := fun _ => rfl
  have hitems : (Object.text c s : Object Value).tupleItems? = none := rfl
  cases y with
  | text d t => rfl
  | _ => simp [sameObject, hitems, hnumbers, Object.text?]

/-- A part matches a text where it is that text. -/
theorem matchPart_text {s : String} (hs : (h.view w).text? = some s) :
    matchPart h (h.sameWithin (n + 1)) v w = .ok ((h.view v).text? == some s) := by
  have htext := text_of_text? hs
  unfold matchPart
  split
  · rename_i hsame
    rw [view_eq_of_isSame hsame, hs, beq_self_eq_true]
  · rename_i hdiffer
    rw [sameWithin, Bool.eq_false_iff.mpr hdiffer, Bool.and_false, if_neg Bool.false_ne_true]
    obtain ⟨c, hc⟩ := htext
    rw [hc, sameObject_text]

theorem fits_list {xs ys : List Value} (hp : List.Forall₂ (Fits h n) xs ys) :
    Fits h (n + 1) (.list xs) (.list ys) := by
  have hparts : matchParts h (h.sameWithin n) xs ys = .ok true := by
    induction hp with
    | nil => rfl
    | cons hx _ ih =>
      rw [matchParts, hx]
      exact ih
  refine fits_of_layers rfl ?_
  show (if xs.length = ys.length then matchParts h (h.sameWithin n) xs ys else .ok false) = _
  rw [if_pos hp.length_eq, hparts]

/-- Two entries under one text, with values that are related. -/
def Beside (h : Heap) (R : Value → Value → Prop) (e d : Value × Value) : Prop :=
  ∃ s, (h.view e.1).text? = some s ∧ (h.view d.1).text? = some s ∧ R e.2 d.2

section Entries
variable {R : Value → Value → Prop} {es ds : List (Value × Value)}

theorem keys_of_beside (hr : List.Forall₂ (Beside h R) es ds) :
    ∀ d ∈ ds, ∃ t, (h.view d.1).text? = some t :=
  forall_right (hr.imp fun _ _ ⟨s, _, hs, _⟩ => ⟨s, hs⟩)

/-- Among distinct texts an entry is found under any key that is its text. -/
theorem findPart_text (hds : ∀ d ∈ ds, ∃ t, (h.view d.1).text? = some t)
    (hd : (ds.map fun d => (h.view d.1).text?).Nodup) {key : Value} {d : Value × Value}
    (hm : d ∈ ds) {s : String} (hk : (h.view key).text? = some s) (hs : (h.view d.1).text? = some s) :
    findPart h (h.sameWithin (n + 1)) key ds = .ok (some d.2) := by
  induction ds with
  | nil => cases hm
  | cons c ds ih =>
    obtain ⟨t, ht⟩ := hds c (List.mem_cons_self ..)
    obtain ⟨hfresh, hd⟩ := List.nodup_cons.mp hd
    rw [findPart, matchPart_text hk, ht]
    rcases List.mem_cons.mp hm with rfl | hm
    · rw [Option.some.inj (ht.symm.trans hs), beq_self_eq_true]
      rfl
    · have hne : (some t == some s) = false := by
        refine beq_eq_false_iff_ne.mpr fun hts => hfresh ?_
        exact List.mem_map.mpr ⟨d, hm, (hs.trans hts.symm).trans ht.symm⟩
      rw [hne]
      exact ih (fun e he => hds e (List.mem_cons_of_mem c he)) hd hm

/-- Among keys that are told apart an entry is found under its own key. -/
theorem findPart_apart (hk : es.Pairwise fun d e =>
      matchPart h (h.sameWithin n) d.1 e.1 = .ok false) {e : Value × Value} (he : e ∈ es)
    (hself : Fits h n e.1 e.1) : findPart h (h.sameWithin n) e.1 es = .ok (some e.2) := by
  induction es with
  | nil => cases he
  | cons c es ih =>
    obtain ⟨hfirst, hk⟩ := List.pairwise_cons.mp hk
    rw [findPart]
    rcases List.mem_cons.mp he with rfl | he
    · rw [hself]
      rfl
    · rw [hfirst e he]
      exact ih hk he

/-- Maps match where each entry of one is found in the other with a value that matches. -/
theorem fits_found (hl : es.length = ds.length) (hf : ∀ e ∈ es, ∃ w,
      findPart h (h.sameWithin n) e.1 ds = .ok (some w) ∧ Fits h n e.2 w) :
    Fits h (n + 1) (.map es) (.map ds) := by
  have hcovers : coversEntries h (h.sameWithin n) ds es = .ok true := by
    clear hl
    induction es with
    | nil => rfl
    | cons e es ih =>
      obtain ⟨w, hw, hfits⟩ := hf e (List.mem_cons_self ..)
      rw [coversEntries, hw]
      show (matchPart h (h.sameWithin n) e.2 w >>= _) = _
      rw [hfits]
      exact ih fun e he => hf e (List.mem_cons_of_mem _ he)
  refine fits_of_layers rfl ?_
  show (if es.length = ds.length then coversEntries h (h.sameWithin n) ds es else .ok false) = _
  rw [if_pos hl, hcovers]

/-- Maps from the same distinct texts match where their values do. -/
theorem fits_map (hr : List.Forall₂ (Beside h (Fits h (n + 1))) es ds)
    (hd : (ds.map fun d => (h.view d.1).text?).Nodup) : Fits h (n + 2) (.map es) (.map ds) := by
  refine fits_found hr.length_eq fun e he => ?_
  obtain ⟨d, hm, s, he, hs, hfits⟩ := exists_right hr e he
  exact ⟨d.2, findPart_text (keys_of_beside hr) hd hm he hs, hfits⟩

end Entries

/-! ### Equality within its bound -/

/-- A value matches a text where it is that text. -/
theorem matching_text {s : String} (hs : (h.view w).text? = some s) :
    h.matching v w = .ok ((h.view v).text? == some s) := matchPart_text hs

/-- A text matches a value that is that text. -/
theorem text_matching {s : String} (hs : (h.view v).text? = some s) :
    h.matching v w = .ok (some s == (h.view w).text?) := by
  obtain ⟨c, hc⟩ := text_of_text? hs
  unfold matching matchPart
  split
  · rename_i hsame
    rw [← view_eq_of_isSame hsame, hs, beq_self_eq_true]
  · rename_i hdiffer
    show h.sameWithin (v.depth + w.depth + h.size * h.size + 1) v w = _
    rw [sameWithin, Bool.eq_false_iff.mpr hdiffer, Bool.and_false, if_neg Bool.false_ne_true, hc,
      text_sameObject]

theorem matching_of_layers (hf : (h.view v).isFreeform = false)
    (hl : ∀ eq, h.sameObject eq (h.view v) (h.view w) = .ok true) : h.matching v w = .ok true :=
  fits_of_layers hf (hl _)

theorem matching_label (l : Label) : h.matching l.value l.value = .ok true := by
  refine matching_of_layers rfl fun eq => ?_
  show Except.ok (l.text == l.text) = _
  rw [beq_self_eq_true]

theorem compareMagnitude_self (c : Nat) (e : Int) : Decimal.compareMagnitude c e c e = .eq := by
  have hpower : power 10 (e - e).toNat = 1 := by
    rw [Int.sub_self]
    rfl
  simp only [Decimal.compareMagnitude, ne_eq, not_true_eq_false, if_false]
  rw [if_pos (by omega), hpower, Nat.mul_one, compare_eq_iff_eq.mpr rfl]

/-- A finite number is equal to itself. -/
theorem same_finite (negative : Bool) (c : Nat) (e : Int) :
    (Decimal.finite negative c e).same (.finite negative c e) = true := by
  unfold Decimal.same Decimal.compare?
  split <;> simp_all [compareMagnitude_self]

theorem matching_int (n : Int) : h.matching (.int n) (.int n) = .ok true := by
  refine matching_of_layers rfl fun eq => ?_
  show Except.ok ((Decimal.ofInt n).same (.ofInt n)) = _
  rw [Decimal.ofInt, same_finite]

theorem matching_list {xs ys : List Value}
    (hp : List.Forall₂ (fun x y => h.matching x y = .ok true) xs ys) :
    h.matching (.list xs) (.list ys) = .ok true := by
  have hfits : List.Forall₂
      (Fits h (Value.listDepth xs + Value.listDepth ys + h.size * h.size + 1)) xs ys := by
    refine List.forall₂_iff_zip.mpr ⟨hp.length_eq, fun {x y} hm => ?_⟩
    have hx := depth_le_listDepth (List.of_mem_zip hm).1
    have hy := depth_le_listDepth (List.of_mem_zip hm).2
    refine Fits.mono (matching_iff.mp ((List.forall₂_iff_zip.mp hp).2 hm)) ?_
    simp only [pairBound]
    omega
  have hx : (Value.list xs).depth = Value.listDepth xs + 1 := rfl
  have hy : (Value.list ys).depth = Value.listDepth ys + 1 := rfl
  refine matching_iff.mpr (Fits.mono (fits_list hfits) ?_)
  simp only [pairBound, hx, hy]
  omega

theorem depth_le_of_mem {es : List (Value × Value)} {e : Value × Value} (he : e ∈ es) :
    e.2.depth ≤ Value.entriesDepth es :=
  depth_le_entriesDepth (List.mem_flatMap.mpr
    ⟨e, he, List.mem_cons_of_mem _ (List.mem_singleton_self _)⟩)

theorem matching_map {es ds : List (Value × Value)}
    (hr : List.Forall₂ (Beside h fun x y => h.matching x y = .ok true) es ds)
    (hd : (ds.map fun d => (h.view d.1).text?).Nodup) :
    h.matching (.map es) (.map ds) = .ok true := by
  have hfits : List.Forall₂ (Beside h
      (Fits h (Value.entriesDepth es + Value.entriesDepth ds + h.size * h.size + 1))) es ds := by
    refine List.forall₂_iff_zip.mpr ⟨hr.length_eq, fun {e d} hm => ?_⟩
    obtain ⟨s, he, hds, hmatch⟩ := (List.forall₂_iff_zip.mp hr).2 hm
    have hx := depth_le_of_mem (List.of_mem_zip hm).1
    have hy := depth_le_of_mem (List.of_mem_zip hm).2
    refine ⟨s, he, hds, Fits.mono (matching_iff.mp hmatch) ?_⟩
    simp only [pairBound]
    omega
  have hx : (Value.map es).depth = Value.entriesDepth es + 1 := rfl
  have hy : (Value.map ds).depth = Value.entriesDepth ds + 1 := rfl
  refine matching_iff.mpr (Fits.mono (fits_map hfits hd) ?_)
  simp only [pairBound, hx, hy]
  omega

/-- A map matches itself where its keys are told apart and all that it holds matches itself. -/
theorem matching_self_map {es : List (Value × Value)}
    (hk : es.Pairwise fun d e => h.matching d.1 e.1 = .ok false)
    (hs : ∀ e ∈ es, h.matching e.1 e.1 = .ok true ∧ h.matching e.2 e.2 = .ok true) :
    h.matching (.map es) (.map es) = .ok true := by
  have hdepth : ∀ e ∈ es, e.1.depth ≤ Value.entriesDepth es ∧ e.2.depth ≤ Value.entriesDepth es :=
    fun e he => ⟨depth_le_entriesDepth (List.mem_flatMap.mpr ⟨e, he, List.mem_cons_self ..⟩),
      depth_le_of_mem he⟩
  have hbound : ∀ {v w : Value} {b : Bool}, v.depth ≤ Value.entriesDepth es →
      w.depth ≤ Value.entriesDepth es → h.matching v w = .ok b →
        matchPart h (h.sameWithin (2 * Value.entriesDepth es + h.size * h.size + 1)) v w = .ok b :=
    fun {v w b} hv hw hm => by
      have hm : matchPart h (h.sameWithin (h.pairBound v w)) v w = .ok b := hm
      refine stepwise_yields.matchPart (fun x y => sameWithin_mono ?_ x y) v w b hm
      rw [pairBound]
      omega
  have hfits : Fits h (2 * Value.entriesDepth es + h.size * h.size + 2) (.map es) (.map es) := by
    have hapart : es.Pairwise fun d e => matchPart h
        (h.sameWithin (2 * Value.entriesDepth es + h.size * h.size + 1)) d.1 e.1 = .ok false :=
      hk.imp_of_mem fun hd he => hbound (hdepth _ hd).1 (hdepth _ he).1
    refine fits_found rfl fun e he => ⟨e.2, findPart_apart hapart he ?_, ?_⟩
    · exact hbound (hdepth e he).1 (hdepth e he).1 (hs e he).1
    · exact hbound (hdepth e he).2 (hdepth e he).2 (hs e he).2
  have hdepth : (Value.map es).depth = Value.entriesDepth es + 1 := rfl
  refine matching_iff.mpr (Fits.mono hfits ?_)
  simp only [pairBound, hdepth]
  omega

/-- A map from distinct labels whose values match themselves. -/
theorem matching_labels {α : Type} {xs : List α} {l : α → Label} {v : α → Value}
    (hd : (xs.map fun x => (l x).text).Nodup)
    (hx : ∀ x ∈ xs, h.matching (v x) (v x) = .ok true) :
    h.matching (.map (xs.map fun x => ((l x).value, v x)))
      (.map (xs.map fun x => ((l x).value, v x))) = .ok true := by
  refine matching_map ?_ ?_
  · rw [List.forall₂_map_left_iff, List.forall₂_map_right_iff, List.forall₂_same]
    exact fun x hm => ⟨(l x).text, rfl, rfl, hx x hm⟩
  · have htexts := hd.map (Option.some_injective String)
    rw [List.map_map] at htexts ⊢
    exact htexts

end Heap
end DocDelta
