import DocDelta.Proofs.Document.Written
import DocDelta.Proofs.Value.Matching

/-! Documents of plain scalars, lists and maps from texts, and their copies.

A document stands in place down to its scalars, which may be objects of the heap and of derived
classes. Its copy is the same document without identities and classes, in the same order: what a
notation can give back that has neither. A document has at most one copy, is equal to it, and a
copy is its own document. -/
namespace DocDelta

/-- A plain scalar and what it is without its class: nothing, a boolean, a whole number, a finite
double or a text. -/
inductive Bare {α : Type} : Object α → Object Value → Prop
  | nil : Bare .nil .nil
  | bool (b : Bool) : Bare (.bool b) (.bool b)
  | int (cls : Option Subclass) (n : Int) : Bare (.int cls n) (.int none n)
  | float (cls : Option Subclass) (negative : Bool) (units : Nat) :
      Bare (.float cls (.finite negative units)) (.float none (.finite negative units))
  | text (cls : Option Subclass) (s : String) : Bare (.text cls s) (.text none s)

theorem Bare.unique {α : Type} {o : Object α} {z z' : Object Value} (hz : Bare o z)
    (hz' : Bare o z') : z = z' := by
  cases hz <;> cases hz' <;> rfl

namespace Heap
open Number
variable {h : Heap} {v d : Value}

/-- A document made of plain scalars, lists and maps from distinct texts, and its copy. -/
inductive Copies (h : Heap) : Value → Value → Prop
  | scalar {v : Value} {z : Object Value} (hz : Bare (h.view v) z) : Copies h v (.inline z)
  | list {xs ys : List Value} (hl : xs.length = ys.length)
      (hp : ∀ p ∈ xs.zip ys, Copies h p.1 p.2) : Copies h (.list xs) (.list ys)
  | map {es : List (Value × Value)} {ds : List (String × Value)} (hl : es.length = ds.length)
      (hk : ∀ p ∈ es.zip ds, (h.view p.1.1).text? = some p.2.1) (hd : (ds.map (·.1)).Nodup)
      (hp : ∀ p ∈ es.zip ds, Copies h p.1.2 p.2.2) : Copies h (.map es) (.table ds)

/-- An entry of a document and its copy. -/
def CopiesEntry (h : Heap) (e : Value × Value) (d : String × Value) : Prop :=
  (h.view e.1).text? = some d.1 ∧ Copies h e.2 d.2

theorem copies_list {xs ys : List Value} (hp : List.Forall₂ (Copies h) xs ys) :
    Copies h (.list xs) (.list ys) :=
  .list hp.length_eq fun _ hm => (List.forall₂_iff_zip.mp hp).2 hm

theorem copies_map {es : List (Value × Value)} {ds : List (String × Value)}
    (hp : List.Forall₂ (CopiesEntry h) es ds) (hd : (ds.map (·.1)).Nodup) :
    Copies h (.map es) (.table ds) :=
  .map hp.length_eq (fun _ hm => ((List.forall₂_iff_zip.mp hp).2 hm).1) hd
    fun _ hm => ((List.forall₂_iff_zip.mp hp).2 hm).2

/-- Induction on a document and its copy, with the parts of both side by side. -/
@[elab_as_elim]
theorem Copies.layers {motive : ∀ v d : Value, Copies h v d → Prop}
    (scalar : ∀ {v : Value} {z : Object Value} (hz : Bare (h.view v) z),
      motive v (.inline z) (.scalar hz))
    (list : ∀ {xs ys : List Value}, List.Forall₂ (fun x y => ∃ hc, motive x y hc) xs ys →
      ∀ hc, motive (.list xs) (.list ys) hc)
    (map : ∀ {es : List (Value × Value)} {ds : List (String × Value)},
      List.Forall₂ (fun e d => (h.view e.1).text? = some d.1 ∧ ∃ hc, motive e.2 d.2 hc) es ds →
        (ds.map (·.1)).Nodup → ∀ hc, motive (.map es) (.table ds) hc)
    (hc : Copies h v d) : motive v d hc := by
  induction hc with
  | scalar hz => exact scalar hz
  | list hl hp ih => exact list (List.forall₂_iff_zip.mpr ⟨hl, fun hm => ⟨hp _ hm, ih _ hm⟩⟩) _
  | map hl hk hd hp ih =>
    exact map (List.forall₂_iff_zip.mpr ⟨hl, fun hm => ⟨hk _ hm, hp _ hm, ih _ hm⟩⟩) hd _

/-! ### One copy -/

/-- What is related to one thing only at each place is one list. -/
theorem eq_of_forall₂ {α β : Type} {xs : List α} {ys zs : List β} {R : α → β → Prop}
    (hy : List.Forall₂ (fun x y => ∀ z, R x z → y = z) xs ys) (hz : List.Forall₂ R xs zs) :
    ys = zs := by
  induction hy generalizing zs with
  | nil =>
    cases hz
    rfl
  | cons hxy _ ih =>
    cases hz with
    | cons hxz hz => rw [hxy _ hxz, ih hz]

/-- A document has at most one copy. -/
theorem Copies.unique {e : Value} (hd : Copies h v d) (he : Copies h v e) : d = e := by
  induction hd using Copies.layers generalizing e with
  | scalar hz =>
    cases he with
    | scalar hz' => rw [hz.unique hz']
    | list => cases hz
    | map => cases hz
  | list hp hc =>
    cases he with
    | scalar hz => cases hz
    | list hl hq =>
      rw [eq_of_forall₂ (hp.imp fun _ _ ⟨_, hx⟩ _ => hx)
        (List.forall₂_iff_zip.mpr ⟨hl, fun hm => hq _ hm⟩)]
  | map hp hd hc =>
    cases he with
    | scalar hz => cases hz
    | map hl hk _ hq =>
      have hds := List.forall₂_iff_zip.mpr ⟨hl, fun hm => And.intro (hk _ hm) (hq _ hm)⟩
      rw [eq_of_forall₂ (hp.imp fun e d ⟨hs, _, hx⟩ c hc => ?_) hds]
      exact Prod.ext (Option.some.inj (hs.symm.trans hc.1)) (hx hc.2)

/-! ### Finding a copy -/

/-- Whether a layer is a scalar and another what it is without its class. -/
def isBare : Object Value → Object Value → Bool
  | .nil, .nil => true
  | .bool a, .bool b => a == b
  | .int _ m, .int none n => m == n
  | .float _ (.finite negative units), .float none x => x == .finite negative units
  | .text _ s, .text none t => s == t
  | _, _ => false

theorem bare_of_isBare {o z : Object Value} (hz : isBare o z = true) : Bare o z := by
  unfold isBare at hz
  split at hz
  · exact .nil
  · rw [eq_of_beq hz]
    exact .bool _
  · rw [eq_of_beq hz]
    exact .int _ _
  · rw [eq_of_beq hz]
    exact .float _ _ _
  · rw [eq_of_beq hz]
    exact .text _ _
  · cases hz

/-- The names of a map whose keys are plain texts in place. -/
def names? : List (Value × Value) → Option (List (String × Value))
  | [] => some []
  | (.inline (.text none s), v) :: es => (names? es).map ((s, v) :: ·)
  | _ => none

theorem map_of_names? {es : List (Value × Value)} {ds : List (String × Value)}
    (hd : names? es = some ds) : Value.map es = .table ds := by
  have hentries : es = namedEntries ds := by
    induction es generalizing ds with
    | nil =>
      cases hd
      rfl
    | cons e es ih =>
      unfold names? at hd
      split at hd
      · contradiction
      · rename_i s v rest he
        cases he
        obtain ⟨rest, hrest, rfl⟩ := Option.map_eq_some_iff.mp hd
        rw [ih hrest]
        rfl
      · cases hd
  rw [hentries]
  rfl

/-- Whether a value is a document and another its copy, as far as `n` layers down. -/
def isCopyWithin (h : Heap) : Nat → Value → Value → Bool
  | n + 1, .inline (.list none xs), .inline (.list none ys) =>
    xs.length == ys.length && (xs.zip ys).all fun p => isCopyWithin h n p.1 p.2
  | n + 1, .inline (.map none es), .inline (.map none ds) =>
    (names? ds).any fun ds => es.length == ds.length && (ds.map (·.1)).Nodup &&
      (es.zip ds).all fun p =>
        (h.view p.1.1).text? == some p.2.1 && isCopyWithin h n p.1.2 p.2.2
  | _, v, .inline z => isBare (h.view v) z
  | _, _, _ => false

/-- Whether a value is a document and another its copy. -/
def isCopy (h : Heap) (v d : Value) : Bool := isCopyWithin h d.depth v d

theorem copies_of_isCopyWithin {n : Nat} (hc : isCopyWithin h n v d = true) : Copies h v d := by
  induction n generalizing v d with
  | zero =>
    unfold isCopyWithin at hc
    split at hc
    · contradiction
    · contradiction
    · exact .scalar (bare_of_isBare hc)
    · cases hc
  | succ n ih =>
    unfold isCopyWithin at hc
    split at hc
    · rename_i k xs ys hk
      cases hk
      obtain ⟨hl, hp⟩ := Bool.and_eq_true_iff.mp hc
      exact .list (eq_of_beq hl) fun p hm => ih (List.all_eq_true.mp hp p hm)
    · rename_i k es ds hk
      cases hk
      rcases hts : names? ds with _ | ts
      · rw [hts] at hc
        cases hc
      rw [hts] at hc
      obtain ⟨hc, hp⟩ := Bool.and_eq_true_iff.mp hc
      obtain ⟨hl, hd⟩ := Bool.and_eq_true_iff.mp hc
      have hparts := fun p hm => Bool.and_eq_true_iff.mp (List.all_eq_true.mp hp p hm)
      have htable : Value.inline (.map none ds) = .table ts := map_of_names? hts
      rw [htable]
      exact .map (eq_of_beq hl) (fun p hm => eq_of_beq (hparts p hm).1) (of_decide_eq_true hd)
        fun p hm => ih (hparts p hm).2
    · exact .scalar (bare_of_isBare hc)
    · cases hc

theorem copies_of_isCopy (hc : isCopy h v d = true) : Copies h v d := copies_of_isCopyWithin hc

/-! ### Depth -/

theorem depth_bare {o z : Object Value} (hz : Bare o z) : (Value.inline z).depth = 1 := by
  cases hz <;> rfl

/-- A copy is no deeper than the document, but for a scalar of the heap. -/
theorem Copies.depth_le (hc : Copies h v d) : d.depth ≤ v.depth + 1 := by
  induction hc using Copies.layers with
  | scalar hz =>
    rw [depth_bare hz]
    omega
  | @list xs ys hp hc =>
    have hdepth : Value.listDepth ys ≤ Value.listDepth xs + 1 := by
      clear hc
      induction hp with
      | nil => exact Nat.zero_le _
      | cons hx _ ih =>
        obtain ⟨_, hx⟩ := hx
        simp only [Value.listDepth]
        omega
    show Value.listDepth ys + 1 ≤ Value.listDepth xs + 1 + 1
    omega
  | @map es ds hp hd hc =>
    have hdepth : Value.entriesDepth (namedEntries ds) ≤ Value.entriesDepth es + 1 := by
      clear hd hc
      induction hp with
      | nil => exact Nat.zero_le _
      | @cons e d _ _ he _ ih =>
        obtain ⟨key, x⟩ := e
        obtain ⟨_, _, he⟩ := he
        have he : d.2.depth ≤ x.depth + 1 := he
        have hkey : (Value.text d.1).depth = 1 := rfl
        simp only [namedEntries, List.map_cons, Value.entriesDepth, Value.entryDepth, hkey] at ih ⊢
        omega
    show Value.entriesDepth (namedEntries ds) + 1 ≤ Value.entriesDepth es + 1 + 1
    omega

/-! ### What a copy shows -/

/-- A plain scalar is equal to what it is without its class. -/
theorem matching_bare {z : Object Value} (hz : Bare (h.view v) z) :
    h.matching (.inline z) v = .ok true := by
  generalize ho : h.view v = o at hz
  have hz' : (h.view (.inline z)).isFreeform = false := by cases hz <;> rfl
  refine matching_of_layers hz' fun eq => ?_
  have hsame : ∀ d : Decimal, d.same d = true → d.isSignaling = false →
      Numeric.same.reals d d = .ok true := by
    intro d hd hs
    rw [Numeric.same.reals, hs, hd]
    rfl
  rw [ho]
  cases hz with
  | nil => rfl
  | bool b => exact hsame _ (same_finite ..) rfl
  | int c n => exact hsame _ (same_finite ..) rfl
  | float c negative units => exact hsame _ (same_finite ..) rfl
  | text c s =>
    show Except.ok (s == s) = _
    rw [beq_self_eq_true]

/-- A copy is equal to its document. -/
theorem Copies.matching (hc : Copies h v d) : h.matching d v = .ok true := by
  induction hc using Copies.layers with
  | scalar hz => exact matching_bare hz
  | list hp hc => exact matching_list (hp.imp fun _ _ hx => hx.2).flip
  | @map es ds hp hd hc =>
    have hkeys : es.map (fun e => (h.view e.1).text?) = ds.map fun d => some d.1 := by
      clear hd hc
      induction hp with
      | nil => rfl
      | cons he _ ih => rw [List.map_cons, List.map_cons, he.1, ih]
    show h.matching (.map (namedEntries ds)) (.map es) = .ok true
    refine matching_map ?_ ?_
    · rw [namedEntries, List.forall₂_map_left_iff]
      exact (hp.imp fun e d hx => ⟨d.1, rfl, hx.1, hx.2.2⟩).flip
    · rw [hkeys]
      have htexts := hd.map (Option.some_injective String)
      rwa [List.map_map] at htexts

/-! ### Documents of copies -/

theorem yields_mapM {α β : Type} {f g : α → Except Fault β} (hf : ∀ a, Yields (f a) (g a))
    (xs : List α) : Yields (xs.mapM f) (xs.mapM g) := by
  intro ys hys
  exact mapM_eq_ok.mpr ((mapM_eq_ok.mp hys).imp fun x y hx => hf x y hx)

/-- A document that was made within a number of layers is made within any larger one. -/
theorem documentWithin_mono {n m : Nat} (hm : n ≤ m) (v : Value) :
    Yields (h.documentWithin n v) (h.documentWithin m v) := by
  induction n generalizing m v with
  | zero => exact fun _ hd => nomatch hd
  | succ n ih =>
    obtain ⟨m, rfl⟩ : ∃ k, m = k + 1 := ⟨m - 1, by omega⟩
    have ih := fun w => ih (by omega : n ≤ m) w
    have hfields : ∀ (fs : List Field) (es : List (String × Value)), Yields
        (h.fieldDocuments (h.documentWithin n) v fs es)
        (h.fieldDocuments (h.documentWithin m) v fs es) := by
      intro fs
      induction fs with
      | nil => exact fun es => stepwise_yields.ok es
      | cons f fs ihf =>
        intro es
        rw [fieldDocuments_cons, fieldDocuments_cons]
        refine stepwise_yields.bind (fun _ hr => hr) fun omitted => Stepwise.ite (ihf es) ?_
        exact stepwise_yields.bind (ih _) fun d => ihf _
    rw [documentWithin, documentWithin]
    split
    · exact stepwise_yields.bind (hfields _ _) fun _ => stepwise_yields.ok _
    · refine stepwise_yields.bind (yields_mapM (fun e => ?_) _) fun _ => stepwise_yields.ok _
      exact stepwise_yields.bind (ih e.2) fun _ => stepwise_yields.ok _
    · exact stepwise_yields.bind (yields_mapM ih _) fun _ => stepwise_yields.ok _
    · split
      · exact ih _
      · exact stepwise_yields.ok _

theorem document_list {xs ds : List Value}
    (hx : List.Forall₂ (fun x d => h.document x = .ok d) xs ds) :
    h.document (.list xs) = .ok (.list ds) := by
  have hitems : xs.mapM (h.documentWithin (h.size + (Value.listDepth xs + 1))) = .ok ds := by
    refine mapM_eq_ok.mpr (List.forall₂_iff_zip.mpr ⟨hx.length_eq, fun {x d} hm => ?_⟩)
    have hdepth := depth_le_listDepth (List.of_mem_zip hm).1
    refine documentWithin_mono ?_ x d ((List.forall₂_iff_zip.mp hx).2 hm)
    simp only [layerBound]
    omega
  show (xs.mapM (h.documentWithin (h.size + (Value.listDepth xs + 1))) >>= fun ds =>
    pure (Value.list ds)) = _
  rw [hitems]
  rfl

theorem document_map {es ds : List (Value × Value)}
    (he : List.Forall₂ (fun e d => e.1 = d.1 ∧ h.document e.2 = .ok d.2) es ds) :
    h.document (.map es) = .ok (.map ds) := by
  have hentries : es.mapM (fun e => do
      return (e.1, ← h.documentWithin (h.size + (Value.entriesDepth es + 1)) e.2)) = .ok ds := by
    refine mapM_eq_ok.mpr (List.forall₂_iff_zip.mpr ⟨he.length_eq, fun {e d} hm => ?_⟩)
    have hdepth := depth_le_of_mem (List.of_mem_zip hm).1
    obtain ⟨hkey, hdoc⟩ := (List.forall₂_iff_zip.mp he).2 hm
    have hwithin := documentWithin_mono (m := h.size + (Value.entriesDepth es + 1))
      (by simp only [layerBound]; omega) e.2 d.2 hdoc
    rw [hwithin, hkey]
    rfl
  show (es.mapM (fun e => do
    return (e.1, ← h.documentWithin (h.size + (Value.entriesDepth es + 1)) e.2)) >>= fun ds =>
      pure (Value.map ds)) = _
  rw [hentries]
  rfl

/-- A copy is its own document. -/
theorem Copies.document (hc : Copies h v d) : h.document d = .ok d := by
  induction hc using Copies.layers with
  | @scalar v z hz =>
    generalize h.view v = o at hz
    refine document_leaf ?_ ?_
    · cases hz <;> rfl
    · cases hz <;> nofun
  | list hp hc =>
    exact document_list (List.forall₂_same.mpr (forall_right (hp.imp fun _ _ ⟨_, hy⟩ => hy)))
  | @map es ds hp hd hc =>
    show h.document (.map (namedEntries ds)) = .ok (.map (namedEntries ds))
    refine document_map (List.forall₂_same.mpr fun e he => ?_)
    obtain ⟨d, hm, rfl⟩ := List.mem_map.mp he
    exact ⟨rfl, forall_right (hp.imp fun _ _ ⟨_, _, hy⟩ => hy) d hm⟩

end Heap
end DocDelta
