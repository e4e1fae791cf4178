import DocDelta.Proofs.Diff.Alike
import DocDelta.Proofs.Diff.Positions
import DocDelta.Proofs.Diff.Taken
import DocDelta.Proofs.Diff.Whole

/-! One comparison in two heaps that differ out of sight.

Under a veil that hides only what is passed over anyway, a comparison goes the same way in both
heaps, as long as what it takes as a whole reads alike and sequences are told apart alike. Then
the patches are the same, and so are their documents. -/
namespace DocDelta
open Relation Diff

namespace Heap
variable {h h' : Heap} {V : Veil} {v : Value}

/-- An attribute that is lacking is so in both heaps. -/
theorem Congruent.lacks (hc : Congruent h h') {name : String}
    (hn : (h.view v).attribute? name = none) : (h'.view v).attribute? name = none := by
  have hsome : ((h'.view v).attribute? name).isSome = true ↔
      ((h.view v).attribute? name).isSome = true := by
    rw [Object.attribute?_isSome, Object.attribute?_isSome, hc.isRecord,
      ← Object.attributeNames?_outline, hc.outline, Object.attributeNames?_outline]
  rw [hn] at hsome
  exact Option.not_isSome_iff_eq_none.mp fun hs => absurd (hsome.mp hs) nofun

/-- A field of a record that is not veiled. -/
theorem Twins.fieldValue (ht : Twins V h h') {f : Field} (hf : f ∈ (h.view v).fields)
    (hv : ¬ V.field f) : h'.fieldValue v f.name = h.fieldValue v f.name := by
  rw [Heap.fieldValue, Heap.fieldValue, (ht.view v).attribute? fun hh => hv (hh f hf rfl)]

/-- A field that a record is gone through by. -/
theorem Twins.spanned (ht : Twins V h h') {fs : List Field} (hs : Spans h v fs) {f : Field}
    (hf : f ∈ fs) (hv : ¬ V.field f) : h'.fieldValue v f.name = h.fieldValue v f.name := by
  rcases hs.lacking f hf with hown | hnone
  · exact ht.fieldValue hown hv
  · rw [Heap.fieldValue, Heap.fieldValue, hnone, ht.congruent.lacks hnone]

end Heap

namespace Diff
open Heap
variable {h h' : Heap} {o : Options} {path : Label}

/-! ### Keys -/

section Keys
variable {as bs as' bs' : List (Value × Value)} {key : Value} {s : String}

theorem label?_eq_none {α : Type} {k : Object α} (hk : k.text? = none) : k.label? = none := by
  cases k <;> first | rfl | cases hk

/-- Keys with one text are passed over alike. -/
theorem ignoresKey_text (hk : (h.view key).text? = some s) :
    ignoresKey h o path key = o.ignores h [s, (joinPath path (.plain s)).text] := by
  unfold ignoresKey
  generalize h.view key = k at hk
  cases k <;> cases hk
  exact congrArg (fun t => o.ignores h [s, t]) (text_joinPath rfl rfl)

/-- Under a text that is not passed over there is the same. -/
theorem entry?_alike (hc : Congruent h h') (ha : EntriesAlike h o path as as') :
    (h'.entry? s as').isSome = (h.entry? s as).isSome ∧
      (o.ignores h [s, (joinPath path (.plain s)).text] = false →
        h'.entry? s as' = h.entry? s as) := by
  induction ha with
  | nil => exact ⟨rfl, fun _ => rfl⟩
  | @cons e e' as as' hd _ ih =>
    rw [entry?_cons, entry?_cons, hd.1, hc.isText]
    by_cases ht : h.isText s e.1 = true
    · rw [if_pos ht, if_pos ht]
      refine ⟨rfl, fun hi => ?_⟩
      rw [hd.2.resolve_left]
      rw [ignoresKey_text (isText_iff.mp ht), hi]
      decide
    · rw [if_neg ht, if_neg ht]
      exact ih

theorem EntriesAlike.keys (ha : EntriesAlike h o path as as') : as'.map (·.1) = as.map (·.1) := by
  induction ha with
  | nil => rfl
  | cons hd _ ih => rw [List.map_cons, List.map_cons, hd.1, ih]

/-- A key that is no text is among those of both mappings, as no text matches it. -/
theorem unnamed_of_union {keys : List Value} (hu : unionKeys h as bs = .ok keys)
    (hn : ¬ ∀ k ∈ as.map (·.1) ++ bs.map (·.1), ∃ t, (h.view k).text? = some t) :
    Unnamed h keys := by
  have hkeys : ¬ ∀ k ∈ keys, ∃ t, (h.view k).text? = some t := fun hall => hn fun k hk => by
    rw [← List.map_append] at hk
    obtain ⟨e, he, rfl⟩ := List.mem_map.mp hk
    exact (all_texts_union hu).mp hall e he
  obtain ⟨k, hk, ht⟩ := not_forall₂.mp hkeys
  refine ⟨k, hk, label?_eq_none (Option.not_isSome_iff_eq_none.mp fun hs => ht ?_)⟩
  exact Option.isSome_iff_exists.mp hs

theorem lacks_alike (hc : Congruent h h') (ha : EntriesAlike h o path as as')
    (hk : (h.view key).text? = some s) :
    lacks h' as' key = lacks h as key := by
  have hsome := (entry?_alike (s := s) hc ha).1
  rw [lacks_text hk, lacks_text ((hc.text? key).trans hk)]
  generalize h.entry? s as = x at hsome
  generalize h'.entry? s as' = y at hsome
  cases x <;> cases y <;> first | rfl | cases hsome

/-- The keys of both are those of the one, and those of the other that the one lacks. -/
theorem keys_of_union {keys : List Value} (hu : unionKeys h as bs = .ok keys) :
    keys = as.map (·.1) ++ (bs.map (·.1)).filter (lacks h as) := by
  rw [unionKeys_ok hu, List.filter_map]
  rfl

/-- **Entries that are alike have the same keys**, unless some key is no text. -/
theorem keysAlike_of_entries (hc : Congruent h h') (ha : EntriesAlike h o path as as')
    (hb : EntriesAlike h o path bs bs') : KeysAlike True h h' o path as bs as' bs' := by
  refine ⟨.inl trivial, fun keys keys' hu hu' => ?_⟩
  -- finding a text takes no equality of values, so the hidden ones are not looked into
  by_cases htexts : ∀ k ∈ as.map (·.1) ++ bs.map (·.1), ∃ t, (h.view k).text? = some t
  · have hlacks : ∀ k ∈ bs.map (·.1), lacks h' as' k = lacks h as k := by
      intro k hk
      obtain ⟨s, hs⟩ := htexts k (List.mem_append_right _ hk)
      exact lacks_alike hc ha hs
    have hsame : keys' = keys := by
      rw [keys_of_union hu, keys_of_union hu', ha.keys, hb.keys, List.filter_congr hlacks]
    refine .inl ⟨hsame, fun key hm hi => ?_⟩
    rw [keys_of_union hu] at hm
    have hsub : key ∈ as.map (·.1) ++ bs.map (·.1) :=
      List.mem_append.mpr ((List.mem_append.mp hm).imp_right fun hk => (List.mem_filter.mp hk).1)
    obtain ⟨s, hs⟩ := htexts key hsub
    rw [ignoresKey_text hs] at hi
    have hs' : (h'.view key).text? = some s := (hc.text? key).trans hs
    rw [valueUnder_text hs, valueUnder_text hs, valueUnder_text hs', valueUnder_text hs',
      (entry?_alike hc ha).2 hi, (entry?_alike hc hb).2 hi]
    exact ⟨rfl, rfl⟩
  · exact .inr ⟨trivial, .inl (unnamed_of_union hu htexts)⟩

end Keys

/-! ### Out of sight -/

/-- Everything that a veil hides is passed over. -/
structure PassesOver (V : Veil) (h : Heap) (o : Options) : Prop where
  field : ∀ {f : Field} (text : String), V.field f → o.ignores h [f.name, f.external, text] = true
  key : ∀ {s : String} (text : String), V.key s → o.ignores h [s, text] = true

/-- A field that is gone through is not hidden. -/
theorem PassesOver.seen {V : Veil} (hv : PassesOver V h o) {f : Field} {text : String}
    (hi : o.ignores h ((Hop.ofField f).aliases ++ [text]) = false) : ¬ V.field f :=
  fun hf => Bool.false_ne_true (hi.symm.trans (hv.field text hf))

/-- Entries of twin heaps are alike, as what the veil hides is passed over. -/
theorem entriesAlike_twins {V : Veil} (ht : Twins V h h') (hv : PassesOver V h o) (v : Value)
    (path : Label) :
    Option.Rel (EntriesAlike h o path) (h.entries? (h.view v)) (h'.entries? (h'.view v)) := by
  have halike : ∀ {es es' : List (Value × Value)}, V.SameEntries h es es' →
      EntriesAlike h o path es es' := by
    intro es es' hes
    refine hes.imp ?_
    rintro e e' ⟨hkey, hvalue⟩
    refine ⟨hkey, hvalue.symm.imp ?_ id⟩
    rintro ⟨s, hs, hk⟩
    rw [ignoresKey_text hs]
    exact hv.key _ hk
  have hrel := ht.entries? v
  generalize h.entries? (h.view v) = x at hrel
  generalize h'.entries? (h'.view v) = y at hrel
  cases hrel with
  | none => exact .none
  | some hes => exact .some (halike hes)

/-- A family of tasks on which two heaps differ out of sight only: what its tasks take as a whole
reads alike, and sequences are told apart alike. A task that removes a value whose zero differs
records nothing in either heap. -/
structure Unseen (K : ClassTable) (h h' : Heap) (o : Options) (P : Task → Label → Prop) : Prop where
  becomes : ∀ {task next path}, P task path → Becomes h task next → P next path
  into : ∀ {task path next place}, P task path → Into h o task path next place → P next place
  follows : ∀ {x y path}, P (.compare x y) path → (h.view x).Follows K ∧ (h.view y).Follows K
  takes : ∀ {task path v}, P task path → Takes h task v → ReadsAlike h h' v
  sequences : ∀ {x y path}, P (.compare x y) path → h.view x ≠ .nil → h.view y ≠ .nil →
    (h.view x).cls = (h.view y).cls → (h.view x).kind = .sequence →
    SequencesAlike h h' o.strategy x y
  removes : ∀ {v path}, P (.remove v) path → h'.isZero v = h.isZero v ∨ ∀ n,
    Abreast True path (fun cs ds => cs = [] ∧ ds = [])
      (diffRemoved h o n v path) (diffRemoved h' o n v path)

/-- The same changes, of values that read alike. -/
def SameChanges (h h' : Heap) (cs ds : List Change) : Prop :=
  ds = cs ∧ ∀ c ∈ cs, c.Carries (ReadsAlike h h')

section Twins
variable {K : ClassTable} {V : Veil} {P : Task → Label → Prop} {task : Task} {x y : Value}
  (hu : Unseen K h h' o P)
include hu

theorem Unseen.kind (hp : P (.compare x y) path) (hc : (h.view x).cls = (h.view y).cls) :
    (h.view y).kind = (h.view x).kind :=
  (Object.kind_eq (hu.follows hp).1 (hu.follows hp).2 hc).symm

/-- A task of the family that ends records values that read alike. -/
theorem Unseen.carries {cs : List Change} (hp : P task path) (hs : Settles h o task cs) :
    SameChanges h h' cs cs := by
  refine ⟨rfl, settles_carries (fun v hv => hu.takes hp hv) ?_ hs⟩
  rintro x y rfl hc hk ys hys v hv
  have hky := (hu.kind hp hc).trans hk
  obtain ⟨zs, hzs⟩ := Object.items?_of_sequence hky
  obtain rfl := Except.ok.inj ((itemsOf_items hky hzs).symm.trans hys)
  have hnotnil : ∀ {u : Value}, (h.view u).kind = .sequence → h.view u ≠ .nil := fun hk hn => by
    rw [hn] at hk
    cases hk
  have hy := hu.takes hp (.new (hnotnil hk) (hnotnil hky) hc (not_goesOn_of_kind hk nofun nofun))
  exact hy.of_tells (.item hky hzs hv)

/-- Two scalars that read alike are compared alike. -/
theorem Unseen.scalars (hc : Congruent h h') (hp : P (.compare x y) path) (hx : h.view x ≠ .nil)
    (hy : h.view y ≠ .nil) (hcls : (h.view x).cls = (h.view y).cls)
    (hk : (h.view x).kind.isLeaf = true) :
    diffScalars h' o x y path = diffScalars h o x y path := by
  have hg := not_goesOn_of_leaf (y := y) hk
  have hxr := (hu.takes hp (.old hx hy hcls hg)).here
  have hyr := (hu.takes hp (.new hx hy hcls hg)).here
  have hky : (h.view y).kind.isLeaf = true := by rw [hu.kind hp hcls, hk]
  have hs : SameOn h h' fun v => v = x ∨ v = y ∨ Agrees h h' v := by
    refine ⟨hc, ?_, ?_⟩
    · rintro v (rfl | rfl | hv)
      · exact hxr.leaf hk
      · exact hyr.leaf hky
      · exact hv.view
    · rintro v w (rfl | rfl | hv) hw
      · exact .inr (.inr (hxr.retained w (.content hk hw)))
      · exact .inr (.inr (hyr.retained w (.content hky hw)))
      · exact .inr (.inr ((sameOn_agrees hc).below hv hw))
  have hzero : h'.isZeroValue y = h.isZeroValue y := by
    rw [isZeroValue, isZeroValue, hyr.leaf hky, hc.isZeroScalar]
  rw [diffScalars, diffScalars, unlessEqual, unlessEqual,
    hs.deepEqual (.inl rfl) (.inr (.inl rfl)), hzero]

/-- **Comparisons in twin heaps are parallel** where the veil hides only what is passed over. -/
theorem parallel_twins (ht : Twins V h h') (hv : PassesOver V h o) :
    Parallel True h h' o o P (fun _ _ => SameChanges h h') where
  outline := ht.congruent.outline
  identity := ht.congruent.identity
  ignores names := by
    have htext : h'.isText = h.isText := funext₂ ht.congruent.isText
    rw [Options.ignores, Options.ignores, htext]
  becomes hp hb := hu.becomes hp hb
  into hp hi := hu.into hp hi
  field {x y path fs p} hp hc hk hfs hm := by
    obtain ⟨gs, hgs, hg, _, hi⟩ := mem_activeFields hfs hm
    have hform := Object.form_eq (hu.follows hp).1 (hu.follows hp).2 hc
    obtain ⟨hx, hy, _⟩ := spans_both hk hform hgs
    exact ⟨ht.spanned hx hg (hv.seen hi), ht.spanned hy hg (hv.seen hi)⟩
  own {v path fs p} hr hfs hm := by
    obtain ⟨gs, hgs, hg, _, hi⟩ := mem_activeFields hfs hm
    obtain rfl := Option.some.inj ((Object.fields?_nil hr).symm.trans hgs)
    exact ht.fieldValue hg (hv.seen hi)
  entries v path := entriesAlike_twins ht hv v path
  keys {x y path as bs as' bs'} _ ha hb ha' hb' := by
    have hrel : ∀ {v : Value} {es es' : List (Value × Value)}, h.entries? (h.view v) = some es →
        h'.entries? (h'.view v) = some es' → EntriesAlike h o path es es' := by
      intro v es es' he he'
      have hr := entriesAlike_twins ht hv v path
      rw [he, he'] at hr
      cases hr with
      | some hes => exact hes
    exact keysAlike_of_entries ht.congruent (hrel ha ha') (hrel hb hb')
  scalars hp hx hy hc hk := by
    rw [hu.scalars ht.congruent hp hx hy hc hk]
    refine (Abreast.loosen (does_diffScalars hx hy hc hk)).imp ?_
    rintro cs _ ⟨rfl, hs⟩
    exact hu.carries hp hs
  sequences hp hx hy hc hk := by
    rw [diffSequences_alike (hu.sequences hp hx hy hc hk)]
    refine (Abreast.loosen (does_diffSequences hx hy hc hk)).imp ?_
    rintro cs _ ⟨rfl, hs⟩
    exact hu.carries hp hs
  removes hp := by
    refine (hu.removes hp).imp_right fun hs n => (hs n).imp ?_
    rintro _ _ ⟨rfl, rfl⟩
    exact ⟨rfl, List.forall_mem_nil _⟩
  settled hp hs _ _ := hu.carries hp hs
  turned _ hs := hs
  descended es _ hs := by
    refine ⟨List.flatMap_congr fun e he => ?_, fun c hc => ?_⟩
    · rw [Counterpart.allAfter, Counterpart.allBefore, (hs e he).1]
    · obtain ⟨e, he, hc⟩ := List.mem_flatMap.mp hc
      obtain ⟨d, hd, rfl⟩ := List.mem_map.mp hc
      exact ((hs e he).2 d hd).under e.label

/-- **Twin heaps make one patch**, with one document, when both make any. -/
theorem diff_twins (ht : Twins V h h') (hv : PassesOver V h o) {old new : Value}
    (hroot : P (.compare old new) (.plain "")) {p p' : Patch}
    (hd : (diff h o old new).1 = .ok p) (hd' : (diff h' o old new).1 = .ok p') :
    p' = p ∧ AnswerAlike (Agrees h h') (p.document h) (p.document h') := by
  have hbound : stepBound h' old new = stepBound h old new := by
    rw [stepBound, stepBound, ht.congruent.pairBound, ht.congruent.size]
  have hcompare : Abreast True (.plain "") (SameChanges h h') (compare h o old new (.plain ""))
      (compare h' o old new (.plain "")) := by
    rw [compare, compare, hbound]
    exact ((parallel_twins hu ht hv).alongside _).values hroot
  obtain ⟨cs, _, n, n', ⟨rfl, hcarries⟩, hp, hp'⟩ := diff_abreast_ok hcompare hd hd'
  refine ⟨congrArg Prod.fst (hp'.trans hp.symm), ?_⟩
  exact document_alike ht.congruent ((builds_readsAlike ht.congruent).operations hcarries hp)

end Twins
end Diff
end DocDelta
