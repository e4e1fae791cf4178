import DocDelta.Proofs.Diff.Reordering

/-! The order of entries does not matter to a patch.

`diff_reordered` says so of whole comparisons: rearranging either value keeps the outcome, and the
patch up to the order of its entries. Where items of sequences change one by one, their
placeholders are numbered in the order in which they are met, so there it is kept up to these
numbers. -/
namespace DocDelta.Diff
open Heap Patch Relation
variable {h : Heap} {K : ClassTable} {o : Options} {v w old new old' new' : Value}

/-- A value of the heap ranks no higher than there are objects. -/
theorem rank_placed (hv : v = .nil ∨ ∃ a, v = .ref a) : rank h v ≤ h.size := by
  rcases hv with rfl | ⟨a, rfl⟩
  · exact rank_nil.trans_le (Nat.zero_le _)
  · exact rank_le (.ref a)

theorem comparable_rearranged (ho : h.Rearranged old old') (hn : h.Rearranged new new') :
    Comparable h old new ↔ Comparable h old' new' := by
  rw [Comparable, Comparable, ho.isNil, hn.isNil, ho.cls, hn.cls]

/-- Two depots with pens and inks, each also in another order, that hold one lot of each kind. -/
def depots : Heap :=
  ⟨#[.map none [(11, 5), (12, 5)], .map none [(12, 6), (11, 5)], .map none [(11, 7), (12, 7)],
    .map none [(12, 7), (11, 7)], .list none [8], .list none [9], .list none [10],
    .map none [(13, 15), (14, 16)], .map none [(14, 16), (13, 15)], .map none [(13, 15), (14, 17)],
    .text none "pens", .text none "inks", .text none "id", .text none "n", .int none 1, .int none 2,
    .int none 3]⟩

/-- Which depot, which list and which lot of them is which in another order. -/
def InOtherOrder (v w : Value) : Prop :=
  v = w ∨ (v = .ref 1 ∧ w = .ref 2) ∨ (v = .ref 3 ∧ w = .ref 4) ∨ (v = .ref 5 ∧ w = .ref 6) ∨
    (v = .ref 8 ∧ w = .ref 9)

theorem reorders_depots {v w : Value} (ho : InOtherOrder v w) : depots.Reorders InOtherOrder v w := by
  have hsame : ∀ v, InOtherOrder v v := fun v => .inl rfl
  have hlists : InOtherOrder (.ref 5) (.ref 6) := .inr (.inr (.inr (.inl ⟨rfl, rfl⟩)))
  have hlots : InOtherOrder (.ref 8) (.ref 9) := .inr (.inr (.inr (.inr ⟨rfl, rfl⟩)))
  rcases ho with rfl | ⟨rfl, rfl⟩ | ⟨rfl, rfl⟩ | ⟨rfl, rfl⟩ | ⟨rfl, rfl⟩
  · exact .same rfl
  · exact .map rfl rfl ⟨[(.ref 11, .ref 5), (.ref 12, .ref 6)],
      .cons ⟨rfl, hsame _⟩ (.cons ⟨rfl, hlists⟩ .nil), .swap ..⟩
  · exact .map rfl rfl ⟨_, .cons ⟨rfl, hsame _⟩ (.cons ⟨rfl, hsame _⟩ .nil), .swap ..⟩
  · exact .list rfl rfl (.cons hlots .nil)
  · exact .map rfl rfl ⟨_, .cons ⟨rfl, hsame _⟩ (.cons ⟨rfl, hsame _⟩ .nil), .swap ..⟩

/-- An object without cycles whose mappings have plain texts for keys, at any depth, and whose
records have fields of different names. -/
structure PlainlyKeyed (h : Heap) (K : ClassTable) (v : Value) : Prop where
  placed : v = .nil ∨ ∃ a, v = .ref a
  acyclic : h.Acyclic v
  regular : h.Everywhere h.Regular v
  follows : h.Everywhere (Object.Follows K) v
  keys : h.Everywhere (fun x => ∀ es ∈ h.entries? x, ∀ e ∈ es, ∃ s, (h.view e.1).text? = some s ∧
    PlainName s) v
  names : h.Everywhere (fun x => (x.fields.map (·.external)).Nodup) v

/-- In a heap whose objects keep these rules and rank above their parts, every object is so. -/
theorem plainlyKeyed_ref (r : Addr → Nat)
    (hr : ∀ a < h.size, ∀ b ∈ (h.object a).children, r b < r a)
    (hg : ∀ a < h.size, h.Regular (h.view (.ref a)))
    (hk : ∀ a < h.size, (h.view (.ref a)).Follows K)
    (ht : ∀ a < h.size, ∀ es ∈ h.entries? (h.view (.ref a)),
      (∀ e ∈ es, ((h.view e.1).text?).isSome = true) ∧
        ∀ s ∈ es.filterMap fun e => (h.view e.1).text?, PlainName s)
    (hn : ∀ a < h.size, ((h.view (.ref a)).fields.map (·.external)).Nodup) (a : Addr) :
    PlainlyKeyed h K (.ref a) where
  placed := .inr ⟨a, rfl⟩
  acyclic := acyclic_ref r hr a
  regular := everywhere_ref trivial hg a
  follows := everywhere_ref (Object.follows_nil K) hk a
  keys := by
    refine everywhere_ref (fun es hes => ?_) (fun a ha es hes e he => ?_) a
    · rw [entries?_nil] at hes
      cases hes
    · obtain ⟨s, hs⟩ := Option.isSome_iff_exists.mp ((ht a ha es hes).1 e he)
      exact ⟨s, hs, (ht a ha es hes).2 s (List.mem_filterMap.mpr ⟨e, he, hs⟩)⟩
  names := everywhere_ref List.nodup_nil hn a

/-- Two lists of one mapping with a signaling NaN and a number, each also with its entries in another
order. -/
def alarms : Heap :=
  ⟨#[.list none [5], .list none [6], .list none [7], .list none [8], .map none [(9, 11), (10, 13)],
    .map none [(10, 13), (9, 11)], .map none [(9, 12), (10, 14)], .map none [(10, 14), (9, 12)],
    .text none "a", .text none "b", .decimal (.nan false true 0), .decimal (.nan false true 0),
    .int none 1, .int none 2]⟩

/-- Which list and which mapping of the alarms is which in another order. -/
def AlarmOrder (v w : Value) : Prop :=
  v = w ∨ (v = .ref 1 ∧ w = .ref 2) ∨ (v = .ref 3 ∧ w = .ref 4) ∨ (v = .ref 5 ∧ w = .ref 6) ∨
    (v = .ref 7 ∧ w = .ref 8)

theorem reorders_alarms {v w : Value} (ho : AlarmOrder v w) : alarms.Reorders AlarmOrder v w := by
  have hsame : ∀ v, AlarmOrder v v := fun v => .inl rfl
  rcases ho with rfl | ⟨rfl, rfl⟩ | ⟨rfl, rfl⟩ | ⟨rfl, rfl⟩ | ⟨rfl, rfl⟩
  · exact .same rfl
  · exact .list rfl rfl (.cons (.inr (.inr (.inr (.inl ⟨rfl, rfl⟩)))) .nil)
  · exact .list rfl rfl (.cons (.inr (.inr (.inr (.inr ⟨rfl, rfl⟩)))) .nil)
  · exact .map rfl rfl ⟨_, .cons ⟨rfl, hsame _⟩ (.cons ⟨rfl, hsame _⟩ .nil), .swap ..⟩
  · exact .map rfl rfl ⟨_, .cons ⟨rfl, hsame _⟩ (.cons ⟨rfl, hsame _⟩ .nil), .swap ..⟩

/-- Two mappings with a list and a record of that list, which has a field named like an item of it,
each mapping also in another order. -/
def slots : Heap :=
  ⟨#[.map none [(11, 6), (12, 5)], .map none [(12, 5), (11, 6)], .map none [(11, 8), (12, 7)],
    .map none [(12, 7), (11, 8)], .record ⟨"Slot", .freeform⟩ [("xs", 6), ("xs.$[elem0]", 14)],
    .list none [9], .record ⟨"Slot", .freeform⟩ [("xs", 8), ("xs.$[elem0]", 15)], .list none [10],
    .map none [(13, 14)], .map none [(13, 15)], .text none "a", .text none "s", .text none "k",
    .int none 1, .int none 2]⟩

theorem rearranged_slots {a b : Addr} (ho : (a = 1 ∧ b = 2) ∨ (a = 3 ∧ b = 4)) :
    slots.Rearranged (.ref a) (.ref b) := by
  refine ⟨fun v w => v = w ∨ (v = .ref a ∧ w = .ref b), ?_, .inr ⟨rfl, rfl⟩⟩
  rintro v w (rfl | ⟨rfl, rfl⟩)
  · exact .same rfl
  · rcases ho with ⟨rfl, rfl⟩ | ⟨rfl, rfl⟩
    · exact .map rfl rfl ⟨_, .cons ⟨rfl, .inl rfl⟩ (.cons ⟨rfl, .inl rfl⟩ .nil), .swap ..⟩
    · exact .map rfl rfl ⟨_, .cons ⟨rfl, .inl rfl⟩ (.cons ⟨rfl, .inl rfl⟩ .nil), .swap ..⟩

end DocDelta.Diff
