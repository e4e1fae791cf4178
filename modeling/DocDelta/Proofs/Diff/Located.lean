import DocDelta.Proofs.Diff.Positions
import DocDelta.Proofs.Diff.Recorded

/-! Findings that keep to themselves.

Zeros and changed items lie at compared positions, each where the values there say so, and every
scalar that became zero at a compared position is found. A finding of either sort has its path
to itself, but for the other items of its sequence. Names need to be distinct within one value
only: where two records of one class bring fields of one name together, nothing lies opposite to
either field, and neither a zero nor an item is found below it. -/
namespace DocDelta.Diff
open Heap

namespace Finding
variable {h : Heap} {x y : Value}

def path : Finding → List Label
  | .change c => c.path
  | .zero path _ => path

/-- A zero or an item. -/
def Sharp : Finding → Prop
  | .change (.whole ..) => False
  | .change (.item ..) => True
  | .zero .. => True

/-- What two values say of a finding at their place. -/
def Fits (h : Heap) (x y : Value) : Finding → Prop
  | .change (.whole ..) => True
  | .change (.item _ index _) =>
    (h.view x).kind = .sequence ∧ ∃ xs, itemsOf h x = .ok xs ∧ index < xs.length
  | .zero _ v => BecomesZero h x y ∧ v = y

/-- Two findings that do not meet: their paths lie apart, or they are two items of one sequence. -/
def Aside (f g : Finding) : Prop :=
  Apart (f.path.map (·.text)) (g.path.map (·.text)) ∨
    ∃ p i v q j w, f = .change (.item p i v) ∧ g = .change (.item q j w) ∧
      p.map (·.text) = q.map (·.text) ∧ i ≠ j

@[simp] theorem path_under (l : Label) (f : Finding) : (f.under l).path = l :: f.path := by
  cases f with
  | change c => exact Change.path_under l c
  | zero path v => rfl

@[simp] theorem sharp_under (l : Label) (f : Finding) : (f.under l).Sharp ↔ f.Sharp := by
  cases f with
  | change c => cases c <;> rfl
  | zero path v => rfl

theorem Fits.under {l : Label} {f : Finding} (hf : f.Fits h x y) : (f.under l).Fits h x y := by
  cases f with
  | change c => cases c <;> exact hf
  | zero path v => exact hf

theorem Aside.under {f g : Finding} (ha : f.Aside g) (l : Label) : (f.under l).Aside (g.under l) := by
  rcases ha with ha | ⟨p, i, v, q, j, w, rfl, rfl, hp, hij⟩
  · left
    simp only [path_under, List.map_cons]
    exact ha.under [l.text]
  · exact .inr ⟨l :: p, i, v, l :: q, j, w, rfl, rfl, by simp [hp], hij⟩

end Finding

variable {h : Heap} {K : ClassTable} {o : Options} {path place : Label} {task : Task}
  {old new x y : Value} {fs : List Finding}

/-! ### Nothing opposite -/

/-- An item changes only where two sequences meet, and it is one of the old one. -/
theorem item_settles {cs : List Change} (hs : Settles h o task cs) {p : List Label} {i : Nat}
    {v : Value} (hm : .item p i v ∈ cs) : ∃ x y xs, task = .compare x y ∧ h.view x ≠ .nil ∧
      h.view y ≠ .nil ∧ (h.view x).kind = .sequence ∧ itemsOf h x = .ok xs ∧ i < xs.length := by
  cases hs with
  | @sequence x y ho hn hc hk he cs hs =>
    cases placed_reconciles hs with
    | nothing => cases hm
    | one action => simp at hm
    | items hx hnodup hl =>
      obtain ⟨e, he, hitem⟩ := List.mem_map.mp hm
      cases hitem
      exact ⟨x, y, _, rfl, ho, hn, hk, hx, hl e he⟩
  | scalar ho hn hc hk he hz =>
    unfold scalarChanges at hm
    split at hm
    · split at hm <;> simp at hm
    · simp at hm
  | _ => simp at hm

theorem itemsOf_empty {z : Object Value} {v : Value} (hz : (h.view v).zero? = some z)
    (hk : z.kind = .sequence) : itemsOf h (.inline z) = .ok [] := by
  obtain ⟨xs, hxs⟩ := Object.items?_of_sequence hk
  have hempty : xs = [] := (items?_children hxs).symm.trans (Object.zero?_blank hz).children
  exact hempty ▸ itemsOf_items (h := h) (v := .inline z) hk hxs

/-- Where nothing lies opposite, no zero and no item is found. -/
theorem not_sharp_of_lone (hf : Finds h o task path fs) (hl : Lone h task) : ∀ f ∈ fs, ¬ f.Sharp := by
  induction hf with
  | settles hs hz hg =>
    intro f hm
    obtain ⟨c, hc, rfl⟩ := List.mem_map.mp hm
    cases c with
    | whole path action => exact id
    | item p i v =>
      obtain ⟨x, y, xs, rfl, hx, hy, hk, hxs, hi⟩ := item_settles hs hc
      cases hl with
      | nothing hn => exact (hn.elim hx hy).elim
      | zero hr hzero =>
        obtain rfl := Except.ok.inj ((itemsOf_empty hzero hk).symm.trans hxs)
        cases hi
  | zero hz =>
    cases hl with
    | nothing hn => exact (hn.elim hz.old hz.new).elim
    | zero hr hzero =>
      have hequal := deepEqual_of_isZero hzero hz.newLeaf hz.zero
      rw [hz.differs] at hequal
      cases hequal
  | becomes hb hf ih => exact ih (lone_becomes hb)
  | descends es hd hf ih =>
    intro f hm
    obtain ⟨e, he, hm⟩ := List.mem_flatMap.mp hm
    obtain ⟨g, hg, rfl⟩ := List.mem_map.mp hm
    rw [Finding.sharp_under]
    exact ih e he (lone_into (descends_into hd (List.mem_map_of_mem he)) hl) g hg

/-! ### Findings and positions -/

/-- **A zero or an item is found at a compared position**, where the values say so. -/
theorem finds_located (hf : Finds h o (.compare x y) path fs) (hc : Compared h o old new x y path)
    {f : Finding} (hm : f ∈ fs) (hsharp : f.Sharp) :
    ∃ x y, Compared h o old new x y (joinAll path f.path) ∧ f.Fits h x y := by
  generalize htask : Task.compare x y = task at hf
  induction hf generalizing x y f with
  | @settles task path cs hs hz hg =>
    obtain ⟨c, hcm, rfl⟩ := List.mem_map.mp hm
    cases c with
    | whole p action => exact hsharp.elim
    | item p i v =>
      obtain ⟨u, w, xs, htask', _, _, hk, hxs, hi⟩ := item_settles hs hcm
      cases htask.trans htask'
      obtain rfl : p = [] := (placed_settles hs).path_eq_nil hcm
      exact ⟨_, _, hc, hk, xs, hxs, hi⟩
  | zero hz =>
    cases htask
    obtain rfl := List.mem_singleton.mp hm
    exact ⟨_, _, hc, hz, rfl⟩
  | becomes hb hf ih => exact absurd hsharp (not_sharp_of_lone hf (lone_becomes hb) f hm)
  | descends es hd hf ih =>
    cases htask
    obtain ⟨e, he, hm⟩ := List.mem_flatMap.mp hm
    obtain ⟨g, hg, rfl⟩ := List.mem_map.mp hm
    rw [Finding.sharp_under] at hsharp
    have hi := descends_into hd (List.mem_map_of_mem he)
    obtain ⟨u, w, htask⟩ := into_compare hi
    obtain ⟨x', y', hc', hfits⟩ := ih e he (.into hc (htask ▸ hi)) hg hsharp htask.symm
    rw [Finding.path_under]
    exact ⟨x', y', hc', hfits.under⟩

/-- **A scalar that became zero at a compared position is found there.** -/
theorem finds_zero (hf : Finds h o (.compare old new) (.plain "") fs)
    (hc : Compared h o old new x y place) (hz : BecomesZero h x y) :
    ∃ ls, place = joinAll (.plain "") ls ∧ .zero ls y ∈ fs := by
  have htrace : ∃ ls gs, place = joinAll (.plain "") ls ∧ Finds h o (.compare x y) place gs ∧
      ∀ p v, .zero p v ∈ gs → .zero (ls ++ p) v ∈ fs := by
    clear hz
    induction hc with
    | root => exact ⟨[], fs, rfl, hf, fun _ _ hm => hm⟩
    | into hm hi ih =>
      obtain ⟨ls, gs, rfl, hgs, hall⟩ := ih
      have hgoes := goesOn_of_into hi
      cases hgs with
      | settles hs hz hg => exact absurd hgoes hg
      | zero hz => exact absurd hgoes (not_goesOn_of_leaf hz.oldLeaf)
      | becomes hb hf => exact absurd hb (not_becomes_of_goesOn hgoes)
      | descends es hd hfs =>
        obtain ⟨_, hstep, htask, rfl⟩ := into_descends hd hi
        obtain ⟨e, he, rfl⟩ := List.mem_map.mp hstep
        refine ⟨ls ++ [e.label], e.found, by simp [joinAll], htask ▸ hfs e he, fun p v hp => ?_⟩
        rw [List.append_assoc]
        exact hall (e.label :: p) v
          (List.mem_flatMap.mpr ⟨e, he, List.mem_map.mpr ⟨_, hp, rfl⟩⟩)
  obtain ⟨ls, gs, hplace, hgs, hall⟩ := htrace
  have hends := not_goesOn_of_leaf (y := y) hz.oldLeaf
  refine ⟨ls, hplace, List.append_nil ls ▸ hall [] y ?_⟩
  cases hgs with
  | settles hs hnot hg => exact absurd hz (hnot x y rfl)
  | zero _ => exact List.mem_singleton.mpr rfl
  | becomes hb hf =>
    cases hb with
    | added ho hr => exact absurd ho hz.old
    | removed hn hr => exact absurd hn hz.new
  | descends es hd hfs => exact absurd (goesOn_of_descends hd) hends

/-! ### Findings apart -/

/-- Findings at places with plain names, of which zeros and items meet no other finding. -/
structure Spread (fs : List Finding) : Prop where
  plain : ∀ f ∈ fs, ∀ l ∈ f.path, PlainName l.text
  aside : fs.Pairwise fun f g => f.Sharp ∨ g.Sharp → f.Aside g

theorem spread_under (hs : Spread fs) {l : Label} (hl : PlainName l.text) :
    Spread (fs.map (·.under l)) := by
  refine ⟨fun f hf k hk => ?_, List.pairwise_map.mpr (hs.aside.imp fun ha hsharp => ?_)⟩
  · obtain ⟨g, hg, rfl⟩ := List.mem_map.mp hf
    rw [Finding.path_under] at hk
    rcases List.mem_cons.mp hk with rfl | hk
    · exact hl
    · exact hs.plain g hg k hk
  · rw [Finding.sharp_under, Finding.sharp_under] at hsharp
    exact (ha hsharp).under l

/-- Changes at one place are spread: items of one sequence are different ones. -/
theorem spread_placed {v : Value} {cs : List Change} (hp : Placed h v cs) :
    Spread (cs.map .change) := by
  refine ⟨fun f hf l hl => ?_, ?_⟩
  · obtain ⟨c, hc, rfl⟩ := List.mem_map.mp hf
    have hl : l ∈ c.path := hl
    rw [hp.path_eq_nil hc] at hl
    cases hl
  · cases hp with
    | nothing => exact .nil
    | one action => exact List.pairwise_singleton ..
    | items hx hn hl =>
      rw [List.map_map]
      refine List.pairwise_map.mpr ((List.pairwise_map.mp hn).imp fun hne _ => .inr ?_)
      exact ⟨[], _, _, [], _, _, rfl, rfl, rfl, hne⟩

/-- **Zeros and items meet no other finding.** -/
theorem finds_spread (hf : Finds h o task path fs) (ht : Ordered h K task) : Spread fs := by
  induction hf with
  | settles hs hz hg => exact spread_placed (placed_settles hs)
  | zero hz => exact ⟨by simp [Finding.path], List.pairwise_singleton ..⟩
  | becomes hb hf ih => exact ih (ordered_becomes hb ht)
  | descends es hd hf ih =>
    obtain ⟨hplain, haside⟩ := descends_aside hd ht
    have hspread : ∀ e ∈ es, Spread e.all := fun e he =>
      spread_under (ih e he (ordered_into (descends_into hd (List.mem_map_of_mem he)) ht))
        (hplain _ (List.mem_map_of_mem he))
    refine ⟨fun f hm => ?_, List.pairwise_flatMap.mpr ⟨fun e he => (hspread e he).aside, ?_⟩⟩
    · obtain ⟨e, he, hm⟩ := List.mem_flatMap.mp hm
      exact (hspread e he).plain f hm
    · refine (List.pairwise_map.mp haside).imp_of_mem fun {a b} ha hb hab f hf' g hg' hsharp => ?_
      obtain ⟨f, hfa, rfl⟩ := List.mem_map.mp hf'
      obtain ⟨g, hgb, rfl⟩ := List.mem_map.mp hg'
      rw [Finding.sharp_under, Finding.sharp_under] at hsharp
      by_cases he : a.label.text = b.label.text
      · obtain ⟨hla, hlb⟩ := hab he
        exact (hsharp.elim (not_sharp_of_lone (hf a ha) hla f hfa)
          (not_sharp_of_lone (hf b hb) hlb g hgb)).elim
      · left
        simp only [Finding.path_under, List.map_cons]
        exact apart_cons he _ _

end DocDelta.Diff
