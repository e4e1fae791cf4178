import DocDelta.Proofs.Diff.Naming
import DocDelta.Proofs.Diff.Outcome
import DocDelta.Proofs.Diff.Paths
import DocDelta.Proofs.Diff.Unchanged
import DocDelta.Proofs.Diff.Whole
import DocDelta.Proofs.Document.Matched

/-! Two walks that come to the same.

Two walks `Tally` when both fail, or both succeed with changes that correspond. They may be of
other values, with other pairs under comparison, and take their steps in another order; all that
has to be known of the correspondence is that it is `Tallying`: nothing corresponds to nothing, and
it is kept by going on, by names in front that agree and by reordering what stands under different
names. -/
namespace DocDelta.Diff
open Heap Patch

/-! ### Correspondence of changes -/

/-- Changes of several steps, each below the name of its step. -/
def spread (es : List (Label × List Change)) : List Change := es.flatMap fun e => e.2.map (·.under e.1)

/-- A correspondence of changes that walks can be put together under. Names in front have to be
`N`, and steps may be reordered whose names are `D`. -/
structure Tallying (N D : Label → Label → Prop) (R : List Change → List Change → Prop) : Prop where
  nil : R [] []
  append : ∀ {as as' bs bs'}, R as bs → R as' bs' → R (as ++ as') (bs ++ bs')
  under : ∀ {as bs} {l k : Label}, N l k → R as bs → R (as.map (·.under l)) (bs.map (·.under k))
  perm : ∀ {as} {es es' : List (Label × List Change)}, es.Perm es' → (es.map (·.1)).Pairwise D →
    R as (spread es) → R as (spread es')

/-- Both walks fail, or both succeed with changes that correspond. -/
def Tally (R : List Change → List Change → Prop) (active active' : List (Mark × Mark))
    (base base' : Label) (m m' : Walk Unit) : Prop :=
  (Fails active m ∧ Fails active' m') ∨
    ∃ cs ds, R cs ds ∧ Succeeds active base cs m ∧ Succeeds active' base' ds m'

/-- A walk that ends in one way from all states with these pairs under comparison. -/
def Decided (active : List (Mark × Mark)) (m : Walk Unit) : Prop :=
  Fails active m ∨ ∃ base cs, Succeeds active base cs m

variable {N D : Label → Label → Prop} {R : List Change → List Change → Prop}
variable {active active' : List (Mark × Mark)} {base base' path path' : Label}
variable {m m' : Walk Unit} {α β : Type}

theorem tally_fails (hm : Fails active m) (hm' : Fails active' m') :
    Tally R active active' base base' m m' := .inl ⟨hm, hm'⟩

theorem Tallying.nothing (hR : Tallying N D R) (hm : Succeeds active base [] m)
    (hm' : Succeeds active' base' [] m') : Tally R active active' base base' m m' :=
  .inr ⟨[], [], hR.nil, hm, hm'⟩

theorem Tally.left (ht : Tally R active active' base base' m m') : Decided active m := by
  rcases ht with ⟨hm, _⟩ | ⟨cs, _, _, hm, _⟩
  · exact .inl hm
  · exact .inr ⟨base, cs, hm⟩

theorem Tally.right (ht : Tally R active active' base base' m m') : Decided active' m' := by
  rcases ht with ⟨_, hm⟩ | ⟨_, ds, _, _, hm⟩
  · exact .inl hm
  · exact .inr ⟨base', ds, hm⟩

/-- The second walk may ask first whether there is anything to do. -/
theorem Tally.unless {x : Except Fault Bool} (hR : Tallying N D R)
    (hm : Tally R active active' base base' m m') (hs : Skips active base x m) :
    Tally R active active' base base' m (ask x >>= fun zero => if zero then pure () else m') := by
  cases x with
  | error e => exact tally_fails (hs.fault e rfl) (fails_ask e _)
  | ok zero =>
    rw [ask_ok]
    cases zero with
    | true => exact hR.nothing (hs.nothing rfl) succeeds_pure
    | false => exact hm

/-- Both walks enter a pair that is new to them. -/
theorem Tally.visiting {h : Heap} {x y x' y' : Value} (hx : ∀ p, pairOf h x y = some p → p ∉ active)
    (hx' : ∀ p, pairOf h x' y' = some p → p ∉ active')
    (ht : Tally R (entered h x y active) (entered h x' y' active') base base' m m') :
    Tally R active active' base base' (visiting h x y path m) (visiting h x' y' path' m') := by
  rcases ht with ⟨hm, hm'⟩ | ⟨cs, ds, hcs, hm, hm'⟩
  · exact tally_fails hm.visiting hm'.visiting
  · exact .inr ⟨cs, ds, hcs, hm.visiting hx, hm'.visiting hx'⟩

/-- Both walks ask something first, and get the same answer. -/
theorem tally_ask {γ : Type} {x : Except Fault γ} {f f' : γ → Walk Unit}
    (hf : ∀ a, x = .ok a → Tally R active active' base base' (f a) (f' a)) :
    Tally R active active' base base' (ask x >>= f) (ask x >>= f') := by
  cases x with
  | error e => exact tally_fails (fails_ask e _) (fails_ask e _)
  | ok a => exact hf a rfl

theorem tally_ite {c : Prop} [Decidable c] {k k' : Walk Unit}
    (hm : c → Tally R active active' base base' m m')
    (hk : ¬ c → Tally R active active' base base' k k') :
    Tally R active active' base base' (if c then m else k) (if c then m' else k') := by
  split
  · exact hm ‹c›
  · exact hk ‹¬ c›

/-! ### Steps -/

/-- Steps fail together when one of them does and none is undecided. -/
theorem fails_forM {xs : List α} {f : α → Walk Unit} (hall : ∀ x ∈ xs, Decided active (f x)) {x : α}
    (hx : x ∈ xs) (hf : Fails active (f x)) : Fails active (xs.forM f) := by
  induction xs with
  | nil => cases hx
  | cons y ys ih =>
    rw [forM_cons]
    rcases List.mem_cons.mp hx with rfl | hx
    · exact hf.left
    · rcases hall y (List.mem_cons_self ..) with hy | ⟨_, _, hy⟩
      · exact hy.left
      · exact .right hy (ih (fun z hz => hall z (List.mem_cons_of_mem y hz)) hx)

/-- Steps that succeed, each with changes below its name. -/
theorem succeeds_spread {xs : List α} {f : α → Walk Unit} {es : List (Label × List Change)}
    (hs : List.Forall₂ (fun x e => Succeeds active (joinPath base e.1) e.2 (f x)) xs es) :
    Succeeds active base (spread es) (xs.forM f) := by
  induction hs with
  | nil => exact succeeds_pure
  | cons hx _ ih =>
    rw [forM_cons]
    exact hx.under.seq ih

/-- Two steps at names that agree tally below them. -/
def StepsTally (N : Label → Label → Prop) (R : List Change → List Change → Prop)
    (active active' : List (Mark × Mark)) (base base' : Label) (l k : Label) (m m' : Walk Unit) :
    Prop :=
  N l k ∧ Tally R active active' (joinPath base l) (joinPath base' k) m m'

section Steps
variable {xs : List α} {ys zs : List β} {f : α → Walk Unit} {g : β → Walk Unit}
variable {l : α → Label} {k : β → Label}

/-- Of steps that tally in pairs one on either side fails, or all succeed with changes that
correspond. -/
theorem steps_outcome (hR : Tallying N D R)
    (hs : List.Forall₂ (fun x y =>
      StepsTally N R active active' base base' (l x) (k y) (f x) (g y)) xs ys) :
    ((∃ x ∈ xs, Fails active (f x)) ∧ ∃ y ∈ ys, Fails active' (g y)) ∨
    ∃ as bs, List.Forall₂ (fun x e => Succeeds active (joinPath base e.1) e.2 (f x)) xs as ∧
      List.Forall₂ (fun y e => e.1 = k y ∧ Succeeds active' (joinPath base' e.1) e.2 (g y)) ys bs ∧
      R (spread as) (spread bs) := by
  induction hs with
  | nil => exact .inr ⟨[], [], .nil, .nil, hR.nil⟩
  | @cons x y xs ys hxy _ ih =>
    obtain ⟨hlk, ⟨hx, hy⟩ | ⟨cs, ds, hcs, hx, hy⟩⟩ := hxy
    · exact .inl ⟨⟨x, List.mem_cons_self .., hx⟩, y, List.mem_cons_self .., hy⟩
    · rcases ih with ⟨⟨u, hu, hfu⟩, w, hw, hgw⟩ | ⟨as, bs, has, hbs, hR'⟩
      · exact .inl ⟨⟨u, List.mem_cons_of_mem x hu, hfu⟩, w, List.mem_cons_of_mem y hw, hgw⟩
      · exact .inr ⟨(l x, cs) :: as, (k y, ds) :: bs, .cons hx has, .cons ⟨rfl, hy⟩ hbs,
          hR.append (hR.under hlk hcs) hR'⟩

theorem decided_left
    (hs : List.Forall₂ (fun x y =>
      StepsTally N R active active' base base' (l x) (k y) (f x) (g y)) xs ys) :
    ∀ x ∈ xs, Decided active (f x) := by
  induction hs with
  | nil => exact nofun
  | cons hxy _ ih => exact List.forall_mem_cons.mpr ⟨hxy.2.left, ih⟩

theorem decided_right
    (hs : List.Forall₂ (fun x y =>
      StepsTally N R active active' base base' (l x) (k y) (f x) (g y)) xs ys) :
    ∀ y ∈ ys, Decided active' (g y) :=
  forall_right (hs.imp fun _ _ hxy => hxy.2.right)

/-- **Steps that tally in pairs tally together.** -/
theorem tally_forM (hR : Tallying N D R)
    (hs : List.Forall₂ (fun x y =>
      StepsTally N R active active' base base' (l x) (k y) (f x) (g y)) xs ys) :
    Tally R active active' base base' (xs.forM f) (ys.forM g) := by
  rcases steps_outcome hR hs with ⟨⟨x, hx, hfx⟩, y, hy, hgy⟩ | ⟨as, bs, has, hbs, hR'⟩
  · exact tally_fails (fails_forM (decided_left hs) hx hfx) (fails_forM (decided_right hs) hy hgy)
  · exact .inr ⟨_, _, hR', succeeds_spread has, succeeds_spread (hbs.imp fun _ _ hy => hy.2)⟩

/-- **So they do when one side takes them in another order**, under names that allow it. -/
theorem tally_forM_perm (hR : Tallying N D R)
    (hs : List.Forall₂ (fun x y =>
      StepsTally N R active active' base base' (l x) (k y) (f x) (g y)) xs ys)
    (hp : ys.Perm zs) (hd : (ys.map k).Pairwise D) :
    Tally R active active' base base' (xs.forM f) (zs.forM g) := by
  rcases steps_outcome hR hs with ⟨⟨x, hx, hfx⟩, y, hy, hgy⟩ | ⟨as, bs, has, hbs, hR'⟩
  · have hdecided : ∀ z ∈ zs, Decided active' (g z) := fun z hz =>
      decided_right hs z (hp.mem_iff.mpr hz)
    exact tally_fails (fails_forM (decided_left hs) hx hfx)
      (fails_forM hdecided (hp.mem_iff.mp hy) hgy)
  · have hnames : bs.map (·.1) = ys.map k := by
      clear hR' hs hp hd
      induction hbs with
      | nil => rfl
      | cons hy _ ih => rw [List.map_cons, List.map_cons, hy.1, ih]
    have hcomp : Relation.Comp List.Perm (List.Forall₂ fun y e =>
        e.1 = k y ∧ Succeeds active' (joinPath base' e.1) e.2 (g y)) zs bs := ⟨ys, hp.symm, hbs⟩
    rw [← List.forall₂_comp_perm_eq_perm_comp_forall₂] at hcomp
    obtain ⟨es, hes, hperm⟩ := hcomp
    refine .inr ⟨_, _, hR.perm hperm.symm (hnames ▸ hd) hR', succeeds_spread has, ?_⟩
    exact succeeds_spread (hes.imp fun _ _ hz => hz.2)

end Steps

/-! ### Fields -/

section Fields
variable {h : Heap} {o : Options} {x y x' y' : Value}

/-- The fields that are not ignored. -/
def keptFields (h : Heap) (o : Options) (path : Label) (fs : List Field) : List Field :=
  fs.filter fun f => !o.ignores h [f.name, f.external, (joinPath path (.plain f.external)).text]

theorem activeFields_kept {fs : List Field} (hfs : (h.view x).fields? [h.view y] = some fs) :
    activeFields h o x y path =
      .ok ((keptFields h o path fs).map fun f => (f, joinPath path (.plain f.external))) := by
  rw [activeFields, hfs]
  dsimp only
  rw [List.filter_map]
  rfl

theorem keptFields_congr (hp : path.text = path'.text) (fs : List Field) :
    keptFields h o path fs = keptFields h o path' fs := by
  refine List.filter_congr fun f _ => ?_
  rw [text_joinPath hp rfl]

/-- **Walks that go through the same fields tally where they do at each.** -/
theorem tally_fields (hR : Tallying N D R) (hp : path.text = path'.text) {fs gs : List Field}
    (hfs : (h.view x).fields? [h.view y] = some fs) (hgs : (h.view x').fields? [h.view y'] = some gs)
    (hperm : fs = gs ∨ fs.Perm gs ∧ (∀ l k, D l k))
    (hN : ∀ f ∈ fs, N (.plain f.external) (.plain f.external)) (body body' : Field → Label → Walk Unit)
    (hb : ∀ f ∈ fs, Tally R active active' (joinPath path (.plain f.external))
      (joinPath path' (.plain f.external)) (body f (joinPath path (.plain f.external)))
      (body' f (joinPath path' (.plain f.external)))) :
    Tally R active active' path path'
      (ask (activeFields h o x y path) >>= fun fs => fs.forM fun f => body f.1 f.2)
      (ask (activeFields h o x' y' path') >>= fun fs => fs.forM fun f => body' f.1 f.2) := by
  rw [activeFields_kept hfs, activeFields_kept hgs, ask_ok, ask_ok, forM_map, forM_map,
    keptFields_congr hp fs]
  have hsteps : List.Forall₂ (fun f g : Field => StepsTally N R active active' path path'
      (.plain f.external) (.plain g.external) (body f (joinPath path (.plain f.external)))
      (body' g (joinPath path' (.plain g.external)))) (keptFields h o path' fs)
      (keptFields h o path' fs) :=
    List.forall₂_same.mpr fun f hf =>
      ⟨hN f (List.mem_filter.mp hf).1, hb f (List.mem_filter.mp hf).1⟩
  rcases hperm with rfl | ⟨hperm, hD⟩
  · exact tally_forM hR (l := fun f => .plain f.external) (k := fun f => .plain f.external) hsteps
  · exact tally_forM_perm hR (l := fun f => .plain f.external) (k := fun f => .plain f.external)
      hsteps (hperm.filter _) (List.pairwise_of_forall fun _ _ => hD _ _)

end Fields

/-! ### Keys -/

/-- Where two lists have the same names, each name once, the items of one can be put in the order
of the other. -/
theorem exists_aligned {γ : Type} {xs : List α} {ys : List β} {f : α → Option γ} {g : β → Option γ}
    (hx : ∀ x ∈ xs, (f x).isSome = true) (hy : ∀ y ∈ ys, (g y).isSome = true)
    (hnx : (xs.filterMap f).Nodup) (hny : (ys.filterMap g).Nodup)
    (hsame : ∀ c, c ∈ xs.filterMap f ↔ c ∈ ys.filterMap g) :
    ∃ zs, zs.Perm ys ∧ List.Forall₂ (fun x z => f x = g z) xs zs := by
  have hmap : ∀ {δ : Type} {zs : List δ} {k : δ → Option γ}, (∀ z ∈ zs, (k z).isSome = true) →
      zs.map k = (zs.filterMap k).map some := by
    intro δ zs k hz
    induction zs with
    | nil => rfl
    | cons z zs ih =>
      obtain ⟨hsome, hz⟩ := List.forall_mem_cons.mp hz
      obtain ⟨c, hc⟩ := Option.isSome_iff_exists.mp hsome
      rw [List.map_cons, ih hz, List.filterMap_cons_some hc, hc]
      rfl
  have hperm : (xs.map f).Perm (ys.map g) := by
    rw [hmap hx, hmap hy]
    exact ((List.perm_ext_iff_of_nodup hnx hny).mpr hsame).map some
  have hleft : List.Forall₂ (fun c y => c = g y) (ys.map g) ys :=
    List.forall₂_map_left_iff.mpr (List.forall₂_same.mpr fun _ _ => rfl)
  have hcomp : Relation.Comp List.Perm (List.Forall₂ fun c y => c = g y) (xs.map f) ys :=
    ⟨_, hperm, hleft⟩
  rw [← List.forall₂_comp_perm_eq_perm_comp_forall₂] at hcomp
  obtain ⟨zs, hzs, hp⟩ := hcomp
  exact ⟨zs, hp, List.forall₂_map_left_iff.mp hzs⟩

variable {h : Heap} {o : Options}

/-- What is done at a key: nothing if it is ignored. -/
def keyStep (h : Heap) (o : Options) (path : Label) (key : Value) (body : Label → Walk Unit) :
    Walk Unit := do
  match ← ask (keyPath h o path key) with
  | none => return ()
  | some subpath => body subpath

/-- The name of a key, where it is a text. -/
def keyName (h : Heap) (key : Value) : Label := ((h.view key).label?).getD (.plain "")

theorem keyName_text {key : Value} {s : String} (hs : (h.view key).text? = some s) :
    (keyName h key).text = s := by
  obtain ⟨l, hl, rfl⟩ := label?_of_text? hs
  rw [keyName, hl]
  rfl

theorem keyStep_text {key : Value} {s : String} (hs : (h.view key).text? = some s)
    (body : Label → Walk Unit) : keyStep h o path key body =
      if o.ignores h [s, (joinPath path (keyName h key)).text] then pure ()
      else body (joinPath path (keyName h key)) := by
  obtain ⟨l, hl, rfl⟩ := label?_of_text? hs
  rw [keyStep, keyPath, keyName, hl, Option.getD_some]
  dsimp only
  cases o.ignores h [l.text, (joinPath path l).text] <;> rfl

theorem keyStep_fails {key : Value} (hs : (h.view key).text? = none) (body : Label → Walk Unit) :
    Fails active (keyStep h o path key body) := by
  have hl : (h.view key).label? = none := by
    generalize h.view key = k at hs
    cases k <;> first | rfl | cases hs
  rw [keyStep, keyPath, hl]
  exact fails_ask _ _

/-- Steps at keys with one text tally where what is done there does. -/
theorem tally_keyStep (hR : Tallying N D R) (hp : path.text = path'.text) {key key' : Value} {s : String}
    (hs : (h.view key).text? = some s) (hs' : (h.view key').text? = some s)
    (hN : ∀ l k : Label, l.text = s → k.text = s → N l k) {body body' : Label → Walk Unit}
    (hb : ∀ l k : Label, l.text = s → k.text = s → Tally R active active' (joinPath path l)
      (joinPath path' k) (body (joinPath path l)) (body' (joinPath path' k))) :
    StepsTally N R active active' path path' (keyName h key) (keyName h key')
      (keyStep h o path key body) (keyStep h o path' key' body') := by
  have hname := (keyName_text hs).trans (keyName_text hs').symm
  refine ⟨hN _ _ (keyName_text hs) (keyName_text hs'), ?_⟩
  rw [keyStep_text hs, keyStep_text hs', text_joinPath hp hname]
  split
  · exact hR.nothing succeeds_pure succeeds_pure
  · exact hb _ _ (keyName_text hs) (keyName_text hs')

/-- Names of a sort may stand in front of what corresponds, and steps under different ones may be
reordered. -/
structure Allows (P : String → Prop) (N D : Label → Label → Prop) : Prop where
  same : ∀ {l k : Label}, P l.text → l.text = k.text → N l k
  apart : ∀ {l k : Label}, P l.text → P k.text → l.text ≠ k.text → D l k

variable {P : String → Prop}

/-- **Steps at the same keys tally in any order**; they fail if some key is no text. -/
theorem tally_keys (hR : Tallying N D R) (hP : Allows P N D) (hp : path.text = path'.text) {xs : List α} {ys : List β} {f : α → Value} {g : β → Value}
    (hnx : (xs.filterMap fun x => (h.view (f x)).text?).Nodup)
    (hny : (ys.filterMap fun y => (h.view (g y)).text?).Nodup)
    (hsame : ∀ s, s ∈ (xs.filterMap fun x => (h.view (f x)).text?) ↔
      s ∈ ys.filterMap fun y => (h.view (g y)).text?)
    (hall : (∀ x ∈ xs, ((h.view (f x)).text?).isSome = true) ↔
      ∀ y ∈ ys, ((h.view (g y)).text?).isSome = true)
    (hsort : ∀ s ∈ (xs.filterMap fun x => (h.view (f x)).text?), P s)
    {body : α → Label → Walk Unit} {body' : β → Label → Walk Unit}
    (hb : ∀ x ∈ xs, ∀ y ∈ ys, ∀ s, (h.view (f x)).text? = some s → (h.view (g y)).text? = some s →
      ∀ l k : Label, l.text = s → k.text = s → Tally R active active' (joinPath path l)
        (joinPath path' k) (body x (joinPath path l)) (body' y (joinPath path' k))) :
    Tally R active active' path path' (xs.forM fun x => keyStep h o path (f x) (body x))
      (ys.forM fun y => keyStep h o path' (g y) (body' y)) := by
  have hstep : ∀ x ∈ xs, ∀ y ∈ ys, ∀ s, (h.view (f x)).text? = some s →
      (h.view (g y)).text? = some s →
      StepsTally N R active active' path path' (keyName h (f x)) (keyName h (g y))
        (keyStep h o path (f x) (body x)) (keyStep h o path' (g y) (body' y)) :=
    fun x hx y hy s hs hs' => tally_keyStep hR hp hs hs'
      (fun _ _ hl hk => hP.same (hl ▸ hsort s (List.mem_filterMap.mpr ⟨x, hx, hs⟩)) (hl.trans hk.symm))
      (hb x hx y hy s hs hs')
  by_cases htexts : ∀ x ∈ xs, ((h.view (f x)).text?).isSome = true
  · have htexts' := hall.mp htexts
    obtain ⟨zs, hperm, haligned⟩ := exists_aligned htexts htexts' hnx hny hsame
    refine tally_forM_perm hR (l := fun x => keyName h (f x)) (k := fun y => keyName h (g y)) ?_ hperm ?_
    · refine List.forall₂_iff_zip.mpr ⟨haligned.length_eq, fun {x z} hxz => ?_⟩
      obtain ⟨hx, hz⟩ := List.of_mem_zip hxz
      obtain ⟨s, hs⟩ := Option.isSome_iff_exists.mp (htexts x hx)
      exact hstep x hx z (hperm.mem_iff.mp hz) s hs
        (((List.forall₂_iff_zip.mp haligned).2 hxz).symm.trans hs)
    · have hnodup := (hperm.filterMap fun y => (h.view (g y)).text?).nodup_iff.mpr hny
      refine List.pairwise_map.mpr ((List.pairwise_filterMap.mp hnodup).imp_of_mem ?_)
      intro y z hy hz hne
      obtain ⟨s, hs⟩ := Option.isSome_iff_exists.mp (htexts' y (hperm.mem_iff.mp hy))
      obtain ⟨t, ht⟩ := Option.isSome_iff_exists.mp (htexts' z (hperm.mem_iff.mp hz))
      have hsort' : ∀ z ∈ zs, ∀ s, (h.view (g z)).text? = some s → P s := fun z hz s hs =>
        hsort s ((hsame s).mpr (List.mem_filterMap.mpr ⟨z, hperm.mem_iff.mp hz, hs⟩))
      refine hP.apart ?_ ?_ ?_
      · exact keyName_text hs ▸ hsort' y hy s hs
      · exact keyName_text ht ▸ hsort' z hz t ht
      · rw [keyName_text hs, keyName_text ht]
        exact hne s hs t ht
  · -- some key is no text on either side, and no other step is undecided
    have htexts' : ¬ ∀ y ∈ ys, ((h.view (g y)).text?).isSome = true := fun hy => htexts (hall.mpr hy)
    obtain ⟨x, hx, hnone⟩ : ∃ x ∈ xs, (h.view (f x)).text? = none := by simpa using htexts
    obtain ⟨y, hy, hnone'⟩ : ∃ y ∈ ys, (h.view (g y)).text? = none := by simpa using htexts'
    refine tally_fails (fails_forM (fun x hx => ?_) hx (keyStep_fails hnone _))
      (fails_forM (fun y hy => ?_) hy (keyStep_fails hnone' _))
    · cases hs : (h.view (f x)).text? with
      | none => exact .inl (keyStep_fails hs _)
      | some s =>
        obtain ⟨y, hy, hs'⟩ :=
          List.mem_filterMap.mp ((hsame s).mp (List.mem_filterMap.mpr ⟨x, hx, hs⟩))
        exact (hstep x hx y hy s hs hs').2.left
    · cases hs : (h.view (g y)).text? with
      | none => exact .inl (keyStep_fails hs _)
      | some s =>
        obtain ⟨x, hx, hs'⟩ :=
          List.mem_filterMap.mp ((hsame s).mpr (List.mem_filterMap.mpr ⟨y, hy, hs⟩))
        exact (hstep x hx y hy s hs' hs).2.right

/-- **Mappings with the same keys tally where what is under each does**, in whatever order their
entries come. -/
theorem tally_mappings (hR : Tallying N D R) (hP : Allows P N D) (hp : path.text = path'.text) {x y x' y' : Value} {n m : Nat}
    {as bs as' bs' : List (Value × Value)}
    (ha : h.entries? (h.view x) = some as) (hb : h.entries? (h.view y) = some bs)
    (ha' : h.entries? (h.view x') = some as') (hb' : h.entries? (h.view y') = some bs')
    (hf : ∀ e ∈ bs, Answers (h.find? e.1 as)) (hf' : ∀ e ∈ bs', Answers (h.find? e.1 as'))
    (hna : (as.filterMap fun e => (h.view e.1).text?).Nodup)
    (hnb : (bs.filterMap fun e => (h.view e.1).text?).Nodup)
    (hna' : (as'.filterMap fun e => (h.view e.1).text?).Nodup)
    (hnb' : (bs'.filterMap fun e => (h.view e.1).text?).Nodup)
    (hsame : ∀ s, (s ∈ (as ++ bs).filterMap fun e => (h.view e.1).text?) ↔
      s ∈ (as' ++ bs').filterMap fun e => (h.view e.1).text?)
    (hall : (∀ e ∈ as ++ bs, ∃ s, (h.view e.1).text? = some s) ↔
      ∀ e ∈ as' ++ bs', ∃ s, (h.view e.1).text? = some s)
    (hsort : ∀ s ∈ ((as ++ bs).filterMap fun e => (h.view e.1).text?), P s)
    (hbody : ∀ s, ∀ l k : Label, l.text = s → k.text = s →
      Tally R active active' (joinPath path l) (joinPath path' k)
        (diffValues h o n ((h.entry? s as).getD .nil) ((h.entry? s bs).getD .nil) (joinPath path l))
        (diffValues h o m ((h.entry? s as').getD .nil) ((h.entry? s bs').getD .nil)
          (joinPath path' k))) :
    Tally R active active' path path' (diffMappings h o (n + 1) x y path)
      (diffMappings h o (m + 1) x' y' path') := by
  have hkeys := unionKeys_eq hf
  have hkeys' := unionKeys_eq hf'
  have hmappings : ∀ {u w : Value} {cs ds : List (Value × Value)} {keys : List Value} {p : Label}
      {i : Nat}, h.entries? (h.view u) = some cs → h.entries? (h.view w) = some ds →
      unionKeys h cs ds = .ok keys → diffMappings h o (i + 1) u w p =
        keys.forM fun key => keyStep h o p key fun subpath =>
          ask (valueUnder h key cs) >>= fun u => ask (valueUnder h key ds) >>= fun w =>
            diffValues h o i u w subpath := by
    intro u w cs ds keys p i hcs hds hkeys
    rw [diffMappings, entriesOf, hcs, entriesOf, hds, ask_ok, ask_ok, hkeys, ask_ok]
    rfl
  rw [hmappings ha hb hkeys, hmappings ha' hb' hkeys']
  refine tally_keys hR hP hp (f := fun k => k) (g := fun k => k) (nodup_union hkeys hna hnb)
    (nodup_union hkeys' hna' hnb') (fun s => ?_) ?_ (fun s hs => hsort s ((texts_union hkeys).mp hs))
    fun key _ key' _ s hs hs' l k hl hk => ?_
  · rw [texts_union hkeys, texts_union hkeys', hsame]
  · simp only [Option.isSome_iff_exists]
    rw [all_texts_union hkeys, all_texts_union hkeys', hall]
  · simp only [valueUnder_text hs, valueUnder_text hs', ask_ok]
    exact hbody s l k hl hk

/-! ### The patches -/

/-- Of two comparisons the search for shared references tells the same. -/
def SearchedAlike (h : Heap) (o : Options) (x y x' y' : Value) : Prop :=
  ∃ u u', (prepare h o x y).run .start = (.ok (), u) ∧ (prepare h o x' y').run .start = (.ok (), u') ∧
    ∀ t t' : State, t.old = u.old → t.new = u.new → t'.old = u'.old → t'.new = u'.new →
      (sharedIn o t = none ↔ sharedIn o t' = none)

section Patches
variable {x y x' y' : Value}

/-- Nothing is told of values without cycles but whether they share a reference. -/
theorem searched_acyclic (hx : h.Acyclic x) (hy : h.Acyclic y) (hx' : h.Acyclic x')
    (hy' : h.Acyclic y')
    (hs : o.detectsSharing = true → ((∃ a, IsShared h x y a) ↔ ∃ a, IsShared h x' y' a)) :
    SearchedAlike h o x y x' y' := by
  obtain ⟨u, hu, hnone⟩ := prepare_acyclic (o := o) hx hy
  obtain ⟨u', hu', hnone'⟩ := prepare_acyclic (o := o) hx' hy'
  refine ⟨u, u', hu, hu', fun t t' hold hnew hold' hnew' => ?_⟩
  rw [hnone t hold hnew, hnone' t' hold' hnew']
  exact forall_congr' fun hd => not_congr (hs hd)

/-- How a comparison ends whose walk does so from every state. -/
theorem diff_of_succeeds (hc : Comparable h x y) {u : State} {cs : List Change}
    (hu : (prepare h o x y).run .start = (.ok (), u))
    (hm : Succeeds [] (.plain "") cs (compare h o x y (.plain ""))) :
    ∃ t, t.old = u.old ∧ t.new = u.new ∧ (∀ p, (diff h o x y).1 = .ok p ↔ sharedIn o t = none ∧ p = t.patch) ∧
      Accumulates (recordsFrom 0 cs) t.patch ∧ t.patch.filters = filtersFrom 0 cs := by
  obtain ⟨hpatch, hlabels, hactive⟩ := prepare_start hu
  obtain ⟨t, hrun, ht⟩ := hm u hactive
  have hrecords := ht.records
  rw [Records, hpatch, hlabels] at hrecords
  refine ⟨t, ht.old, ht.new, fun p => ?_, accumulates_changes hrecords⟩
  rw [diff_of_run hc hu hrun]
  cases sharedIn o t with
  | some fault =>
    constructor
    · intro he
      cases he
    · rintro ⟨hn, -⟩
      cases hn
  | none => exact ⟨fun hp => ⟨rfl, (Except.ok.inj hp).symm⟩, fun hp => by rw [hp.2]⟩

theorem diff_of_fails {u : State} (hu : (prepare h o x y).run .start = (.ok (), u))
    (hm : Fails [] (compare h o x y (.plain ""))) (p : Patch) : (diff h o x y).1 ≠ .ok p := by
  intro hp
  obtain ⟨_, u', t, hu', ht, _⟩ := diff_eq_ok.mp hp
  obtain rfl : u = u' := congrArg Prod.snd (hu.symm.trans hu')
  obtain ⟨e, t', hrun⟩ := hm u (prepare_start hu).2.2
  rw [ht] at hrun
  cases hrun

/-- **Walks that tally make patches of changes that correspond**, or neither makes one. -/
theorem patches_of_tally (hs : SearchedAlike h o x y x' y')
    (hc : Comparable h x y ↔ Comparable h x' y')
    (ht : Tally R [] [] (.plain "") (.plain "") (compare h o x y (.plain ""))
      (compare h o x' y' (.plain ""))) :
    ((∃ p, (diff h o x y).1 = .ok p) ↔ ∃ q, (diff h o x' y').1 = .ok q) ∧
    ∀ p q, (diff h o x y).1 = .ok p → (diff h o x' y').1 = .ok q → ∃ cs ds, R cs ds ∧
      (Accumulates (recordsFrom 0 cs) p ∧ p.filters = filtersFrom 0 cs) ∧
      Accumulates (recordsFrom 0 ds) q ∧ q.filters = filtersFrom 0 ds := by
  by_cases hx : Comparable h x y
  swap
  · have hnone : ∀ p, (diff h o x y).1 ≠ .ok p := fun p hp => hx (diff_eq_ok.mp hp).1
    have hnone' : ∀ q, (diff h o x' y').1 ≠ .ok q := fun q hq => hx (hc.mpr (diff_eq_ok.mp hq).1)
    exact ⟨⟨fun ⟨p, hp⟩ => absurd hp (hnone p), fun ⟨q, hq⟩ => absurd hq (hnone' q)⟩,
      fun p _ hp => absurd hp (hnone p)⟩
  obtain ⟨u, u', hu, hu', hshared⟩ := hs
  rcases ht with ⟨hfails, hfails'⟩ | ⟨cs, ds, hsame, hm, hm'⟩
  · exact ⟨⟨fun ⟨p, hp⟩ => absurd hp (diff_of_fails hu hfails p),
      fun ⟨q, hq⟩ => absurd hq (diff_of_fails hu' hfails' q)⟩,
      fun p _ hp => absurd hp (diff_of_fails hu hfails p)⟩
  · obtain ⟨t, hold, hnew, hd, hrecords⟩ := diff_of_succeeds hx hu hm
    obtain ⟨t', hold', hnew', hd', hrecords'⟩ := diff_of_succeeds (hc.mp hx) hu' hm'
    have hnone := hshared t t' hold hnew hold' hnew'
    refine ⟨⟨fun ⟨p, hp⟩ => ⟨_, (hd' _).mpr ⟨hnone.mp ((hd p).mp hp).1, rfl⟩⟩,
      fun ⟨q, hq⟩ => ⟨_, (hd _).mpr ⟨hnone.mpr ((hd' q).mp hq).1, rfl⟩⟩⟩, fun p q hp hq => ?_⟩
    obtain rfl := ((hd p).mp hp).2
    obtain rfl := ((hd' q).mp hq).2
    exact ⟨cs, ds, hsame, hrecords, hrecords'⟩

end Patches

end DocDelta.Diff
