import DocDelta.Proofs.Diff.ConflictFree
import DocDelta.Proofs.Diff.Twinned

/-! What no exported field tells does not influence a patch.

Private attributes and excluded fields are passed over when records are compared, but not when
sequences are told apart: deep equality compares all attributes. And a document keeps the items of
sets and the keys of mappings as they are. Elsewhere, two heaps that differ in what no exported
field tells make one patch. -/
namespace DocDelta
open Relation Diff

/-! ### Unexported attributes -/

/-- A veil over what no exported field tells, and over nothing else. -/
def Veil.unexported : Veil := ⟨fun _ => False, fun _ => False⟩

theorem Field.public_of_fields {o : Object Value} {f : Field} (hf : f ∈ o.fields) :
    Field.isPrivate f.name = false := by
  cases hd : o.isDeclared with
  | true =>
    cases o with
    | record c as =>
      obtain ⟨_, shape⟩ := c
      cases shape with
      | declared fields frozen =>
        obtain ⟨d, hm, he⟩ := List.mem_filterMap.mp (show f ∈ Field.ofDeclared fields from hf)
        obtain ⟨_, hp⟩ := List.mem_filter.mp hm
        dsimp only at he
        split at he
        · cases he
        · cases he
          exact (Bool.not_eq_true' _).mp hp
      | _ => cases hd
    | _ => cases hd
  | false =>
    rw [Object.fields, Object.fields?_names hd] at hf
    cases hn : (o :: []).mapM Object.attributeNames? with
    | none =>
      rw [hn] at hf
      cases hf
    | some names =>
      rw [hn] at hf
      exact (Field.mem_ofNames.mp hf).2.1

namespace Veil
variable {o : Object Value} {name : String}

theorem hides_unexported : unexported.Hides o name ↔ ∀ f ∈ o.fields, f.name ≠ name :=
  ⟨fun hh f hf hn => hh f hf hn, fun hh f hf hn => hh f hf hn⟩

/-- Private attributes are hidden. -/
theorem hides_private (hp : Field.isPrivate name = true) : unexported.Hides o name := by
  refine hides_unexported.mpr fun f hf hn => ?_
  have hpublic := Field.public_of_fields hf
  rw [hn, hp] at hpublic
  cases hpublic

/-- Fields with the tag that excludes them are hidden. -/
theorem hides_excluded {cls : String} {fields : List (String × Option String)} {frozen : Bool}
    {as : List (String × Value)} (hd : (fields.map (·.1)).Nodup) (hm : (name, some "-") ∈ fields) :
    unexported.Hides (.record ⟨cls, .declared fields frozen⟩ as) name := by
  refine hides_unexported.mpr fun f hf hn => ?_
  obtain ⟨d, hd', he⟩ := List.mem_filterMap.mp (show f ∈ Field.ofDeclared fields from hf)
  dsimp only at he
  split at he
  · cases he
  · rename_i hkept
    cases he
    have hfield := List.inj_on_of_nodup_map hd (List.mem_filter.mp hd').1 hm hn
    exact hkept (by rw [hfield]; rfl)

end Veil

namespace Heap
variable {h h' : Heap} {v : Value}

/-- A value whose document keeps nothing as it is but what agrees in two heaps. -/
def RetainsAlike (h h' : Heap) (v : Value) : Prop :=
  ∀ w, ReflTransGen h.Tells v w → ∀ u, h.Retains w u → Agrees h h' u

/-- Where there are neither mappings nor sets nothing is kept as it is. -/
theorem retainsAlike_ref (hc : ∀ a < h.size, (h.entries? (h.view (.ref a))).isNone = true ∧
    ((h.view (.ref a)).kind.isLeaf = true → (h.view (.ref a)).contents.isEmpty = true)) (a : Addr) :
    RetainsAlike h h' (.ref a) := by
  have hnothing : ∀ w : Value, h.view w = .nil → ∀ u, ¬ h.Retains w u := by
    rintro w hw u (⟨he, _⟩ | ⟨_, hu⟩)
    · rw [hw] at he
      cases mapping_of_entries he
    · rw [hw] at hu
      cases hu
  intro w hw u hu
  rcases tells_within hw with rfl | hw
  · exact absurd hu (hnothing _ rfl u)
  obtain ⟨b, rfl⟩ := within_ref hw
  by_cases hb : b < h.size
  · cases hu with
    | key he hm =>
      have hnone := (hc b hb).1
      rw [he] at hnone
      cases hnone
    | content hl hu =>
      rw [List.isEmpty_iff.mp ((hc b hb).2 hl)] at hu
      cases hu
  · refine absurd hu (hnothing _ ?_ u)
    rw [Heap.view, object_of_size_le (Nat.le_of_not_lt hb)]
    rfl

/-- With nothing hidden but what no exported field tells, values read alike. -/
theorem Twins.readsAlike (ht : Twins .unexported h h') (hv : RetainsAlike h h' v) :
    ReadsAlike h h' v := by
  intro w hw
  have hplain : (h.view w).isRecord = false → (h.view w).kind ≠ .mapping → h'.view w = h.view w :=
    (ht.view w).eq
  have hrecord : (h.view w).kind ≠ .record → (h.view w).isRecord = false := fun hk =>
    Bool.eq_false_iff.mpr fun hr => hk (Object.isRecord_iff.mp hr)
  refine ⟨fun _ f hf => ht.fieldValue hf id, ?_, fun hk => ?_, fun hl => ?_, hv w hw⟩
  · have hrel := ht.entries? w
    generalize h.entries? (h.view w) = x at hrel
    generalize h'.entries? (h'.view w) = y at hrel
    cases hrel with
    | none => rfl
    | some he => rw [he.eq fun _ => id]
  · rw [hplain (hrecord (by rw [hk]; nofun)) (by rw [hk]; nofun)]
  · refine hplain (hrecord fun hk => ?_) fun hk => ?_
    all_goals
      rw [hk] at hl
      cases hl

end Heap

namespace Diff
open Heap
variable {h h' : Heap} {K : ClassTable} {o : Options} {old new : Value}

/-! ### Sequences -/

/-- Two sequences that two heaps tell apart alike: they are deeply equal in both heaps or in
neither, and, where a strategy goes by the items, so are their items at equal places. -/
def ToldApart (h h' : Heap) (strategy : Strategy) (x y : Value) : Prop :=
  h'.deepEqual x y = h.deepEqual x y ∧ (strategy ≠ .replace → ∀ xs ys,
    (h.view x).items? = some xs → (h.view y).items? = some ys → ItemsAlike h h' xs ys)

theorem sequencesAlike_told {strategy : Strategy} {x y : Value} (hc : Congruent h h')
    (hm : strategy ≠ .merge) (hx : ReadsAlike h h' x) (hy : ReadsAlike h h' y)
    (hkx : (h.view x).kind = .sequence) (hky : (h.view y).kind = .sequence)
    (ht : ToldApart h h' strategy x y) : SequencesAlike h h' strategy x y := by
  obtain ⟨xs, hxs⟩ := Object.items?_of_sequence hkx
  obtain ⟨ys, hys⟩ := Object.items?_of_sequence hky
  have hitems : ∀ {v : Value} {vs : List Value}, ReadsAlike h h' v → (h.view v).kind = .sequence →
      (h.view v).items? = some vs → itemsOf h v = .ok vs ∧ itemsOf h' v = .ok vs := by
    intro v vs hv hk hvs
    refine ⟨itemsOf_items hk hvs, itemsOf_items ((hc.kind v).trans hk) ?_⟩
    rw [hv.here.items hk, hvs]
  obtain ⟨hox, hox'⟩ := hitems hx hkx hxs
  obtain ⟨hoy, hoy'⟩ := hitems hy hky hys
  refine ⟨ht.1, hox'.trans hox.symm, hoy'.trans hoy.symm, startsPrimitive_congr hc, ?_, ?_,
    fun hmerge => absurd hmerge hm⟩
  all_goals
    intro hstrategy us ws hu hw
    obtain rfl := Except.ok.inj (hox.symm.trans hu)
    obtain rfl := Except.ok.inj (hoy.symm.trans hw)
    have halike := ht.2 (by rw [hstrategy]; nofun) _ _ hxs hys
  · exact firstChange_alike halike
  · exact changedPlaces_alike halike

/-- A sequence is told apart alike from the empty one of its class. -/
theorem toldApart_zero {strategy : Strategy} {v : Value} {z : Object Value} (hc : Congruent h h')
    (hz : (h.view v).zero? = some z) (hk : (h.view v).kind = .sequence) (hv : ReadsAlike h h' v) :
    ToldApart h h' strategy (.inline z) v := by
  have hzero : ∀ g : Heap, (g.view v).zero? = some z → (g.view v).kind = .sequence →
      g.deepEqual (.inline z) v = g.isZero v := by
    intro g hz hk
    refine deepEqual_zero hz (by rw [hk]; nofun) ?_ ?_
    · refine Bool.eq_false_iff.mpr fun hr => ?_
      rw [Object.isRecord_iff.mp hr] at hk
      cases hk
    · generalize g.view v = x at hk
      cases x <;> trivial
  refine ⟨?_, fun _ xs ys hxs _ => ?_⟩
  · rw [hzero h hz hk, hzero h' (by rw [← Object.zero?_outline, hc.outline, Object.zero?_outline, hz])
      ((hc.kind v).trans hk), isZero_alike hc hv]
  · obtain rfl : xs = [] := (items?_children hxs).symm.trans (Object.zero?_blank hz).children
    exact nofun

/-! ### The comparison -/

/-- A task about values that read alike, which either is met from the two roots or has nothing
opposite. -/
def Sighted (h h' : Heap) (K : ClassTable) (o : Options) (old new : Value) (task : Task)
    (path : Label) : Prop :=
  OnSides (fun v => h.Everywhere (Object.Follows K) v ∧ ReadsAlike h h' v) task ∧
    ((∃ x y, task = .compare x y ∧ Compared h o old new x y path) ∨ Lone h task)

theorem unseen_private (hc : Congruent h h') (hm : o.strategy ≠ .merge)
    (hs : ∀ x y place, Compared h o old new x y place → (h.view x).kind = .sequence →
      (h.view y).kind = .sequence → ToldApart h h' o.strategy x y) :
    Unseen K h h' o (Sighted h h' K o old new) where
  becomes hp hb := ⟨(passes_readsAlike hc K).becomes hb hp.1, .inr (lone_becomes hb)⟩
  into hp hi := by
    refine ⟨(passes_readsAlike hc K).into hi hp.1, ?_⟩
    rcases hp.2 with ⟨x, y, rfl, hm⟩ | hl
    · obtain ⟨u, w, rfl⟩ := into_compare hi
      exact .inl ⟨u, w, rfl, .into hm hi⟩
    · exact .inr (lone_into hi hl)
  follows hp := ⟨hp.1.1.1.here, hp.1.2.1.here⟩
  takes hp ht := by
    cases ht with
    | old => exact hp.1.1.2
    | new => exact hp.1.2.2
    | created => exact hp.1.2.2
    | whole => exact hp.1.2.2
  sequences {x y path} hp hx hy hcls hk := by
    obtain ⟨⟨⟨hfx, hx'⟩, hfy, hy'⟩, hmet⟩ := hp
    have hky := (Object.kind_eq hfx.here hfy.here hcls).symm.trans hk
    refine sequencesAlike_told hc hm hx' hy' hk hky ?_
    rcases hmet with ⟨u, w, he, hmet⟩ | hl
    · cases he
      exact hs x y path hmet hk hky
    · cases hl with
      | nothing hn => exact absurd hn (not_or.mpr ⟨hx, hy⟩)
      | zero hr hz => exact toldApart_zero hc hz hky hy'
  removes hp := .inl (isZero_alike hc hp.1.1.2)

variable {p p' : Patch} {messages messages' : List Message}

/-- **Private state does not influence the patch**, as long as sequences are told apart alike. Let
two heaps differ in attributes that no exported field tells, but not in the items of sets and the
keys of mappings. Where the comparison meets two sequences, let these be deeply equal in both heaps
or in neither, and their items too if the strategy goes by items. If the comparison makes a patch
in either heap and items are not paired, the patches are the same and have one document, in which
everything agrees. -/
theorem diff_private_state (ht : Twins .unexported h h')
    (hfo : h.Everywhere (Object.Follows K) old) (hfn : h.Everywhere (Object.Follows K) new)
    (hko : RetainsAlike h h' old) (hkn : RetainsAlike h h' new) (hm : o.strategy ≠ .merge)
    (hs : ∀ x y place, Compared h o old new x y place → (h.view x).kind = .sequence →
      (h.view y).kind = .sequence → ToldApart h h' o.strategy x y)
    (hd : diff h o old new = (.ok p, messages)) (hd' : diff h' o old new = (.ok p', messages')) :
    p' = p ∧ p.document h' = p.document h ∧ ∀ d, p.document h = .ok d → Agrees h h' d := by
  have hroot : Sighted h h' K o old new (.compare old new) (.plain "") :=
    ⟨⟨⟨hfo, ht.readsAlike hko⟩, hfn, ht.readsAlike hkn⟩, .inl ⟨old, new, rfl, .root⟩⟩
  obtain ⟨hpatch, hdocument, hagrees⟩ := diff_twins (unseen_private ht.congruent hm hs) ht
    ⟨nofun, nofun⟩ hroot (congrArg Prod.fst hd) (congrArg Prod.fst hd')
  exact ⟨hpatch, hdocument, hagrees⟩

/-! ### Marked parcels -/

/-- Two parcels that differ in weight and in an item; each of them bears a private mark. -/
def parcels (mark : Addr) : Heap :=
  ⟨#[.record ⟨"Parcel", .freeform⟩ [("weight", 3), ("items", 4), ("_mark", mark)],
    .record ⟨"Parcel", .freeform⟩ [("weight", 5), ("items", 6), ("_mark", mark)],
    .int none 1, .list none [7], .int none 2, .list none [8],
    .record ⟨"Item", .freeform⟩ [("size", 3), ("_mark", mark)],
    .record ⟨"Item", .freeform⟩ [("size", 5), ("_mark", mark)]]⟩

theorem hides_mark (o : Object Value) : Veil.unexported.Hides o "_mark" :=
  Veil.hides_private (by simp [Field.isPrivate])

theorem twins_parcels : Twins .unexported (parcels 3) (parcels 5) := by
  refine twins_of_cells rfl fun a ha => ?_
  change a < 9 at ha
  interval_cases a
  case «1» | «2» =>
    exact .record
      (.cons ⟨rfl, .inl rfl⟩ (.cons ⟨rfl, .inl rfl⟩ (.cons ⟨rfl, .inr (hides_mark _)⟩ .nil)))
  case «7» | «8» => exact .record (.cons ⟨rfl, .inl rfl⟩ (.cons ⟨rfl, .inr (hides_mark _)⟩ .nil))
  all_goals exact .same _

theorem eq_of_toOption {α : Type} {x y : Except Fault α} (he : x.toOption = y.toOption)
    (hs : y.toOption.isSome = true) : x = y := by
  obtain ⟨a, ha⟩ := Option.isSome_iff_exists.mp hs
  rw [ok_of_toOption ha, ok_of_toOption (he.trans ha)]

/-- The items of parcels are told apart by their sizes. -/
theorem toldApart_parcels {x y : Value} {place : Label}
    (hm : Compared (parcels 3) o (.ref 1) (.ref 2) x y place)
    (hkx : ((parcels 3).view x).kind = .sequence) (hky : ((parcels 3).view y).kind = .sequence) :
    ToldApart (parcels 3) (parcels 5) .smart x y := by
  have hsequence : ∀ {a : Addr} {v : Value}, (v = .nil ∨ (parcels 3).Within (.ref a) v) →
      ((parcels 3).view v).kind = .sequence → ∃ b ∈ [4, 6], v = .ref b := by
    rintro a v (rfl | hw) hk
    · cases hk
    obtain ⟨b, rfl⟩ := within_ref hw
    by_cases hb : b < (parcels 3).size
    · change b < 9 at hb
      interval_cases b
      case «4» => exact ⟨4, by decide, rfl⟩
      case «6» => exact ⟨6, by decide, rfl⟩
      all_goals cases hk
    · rw [Heap.view, object_of_size_le (Nat.le_of_not_lt hb)] at hk
      cases hk
  have hequal : ∀ a ∈ [4, 6, 7, 8], ∀ b ∈ [4, 6, 7, 8],
      ((parcels 5).deepEqual (.ref a) (.ref b)).toOption =
        ((parcels 3).deepEqual (.ref a) (.ref b)).toOption ∧
      ((parcels 3).deepEqual (.ref a) (.ref b)).toOption.isSome = true := by decide +kernel
  have hitems : ∀ b ∈ [4, 6], ∃ c ∈ [4, 6, 7, 8], ((parcels 3).view (.ref b)).items? = some [.ref c] := by
    intro b hb
    rcases List.mem_pair.mp hb with rfl | rfl
    · exact ⟨7, by decide, rfl⟩
    · exact ⟨8, by decide, rfl⟩
  obtain ⟨hx, hy⟩ := faces_within hm.faces
  obtain ⟨a, ha, rfl⟩ := hsequence hx hkx
  obtain ⟨b, hb, rfl⟩ := hsequence hy hky
  have hlarger : ∀ a ∈ [4, 6], a ∈ [4, 6, 7, 8] := by decide
  refine ⟨eq_of_toOption (hequal a (hlarger a ha) b (hlarger b hb)).1
    (hequal a (hlarger a ha) b (hlarger b hb)).2, fun _ xs ys hxs hys p hp => ?_⟩
  obtain ⟨c, hc, hxc⟩ := hitems a ha
  obtain ⟨d, hd, hyd⟩ := hitems b hb
  obtain rfl := Option.some.inj (hxc.symm.trans hxs)
  obtain rfl := Option.some.inj (hyd.symm.trans hys)
  rw [List.mem_singleton.mp hp]
  exact eq_of_toOption (hequal c hc d hd).1 (hequal c hc d hd).2

theorem diff_private_state_parcels :
    Twins .unexported (parcels 3) (parcels 5) ∧
    (parcels 3).Everywhere (Object.Follows freeforms) (.ref 1) ∧
    (parcels 3).Everywhere (Object.Follows freeforms) (.ref 2) ∧
    RetainsAlike (parcels 3) (parcels 5) (.ref 1) ∧ RetainsAlike (parcels 3) (parcels 5) (.ref 2) ∧
    (∀ x y place, Compared (parcels 3) ⟨[], .smart, .set, false, []⟩ (.ref 1) (.ref 2) x y place →
      ((parcels 3).view x).kind = .sequence → ((parcels 3).view y).kind = .sequence →
      ToldApart (parcels 3) (parcels 5) .smart x y) ∧
    ∃ p messages messages',
      diff (parcels 3) ⟨[], .smart, .set, false, []⟩ (.ref 1) (.ref 2) = (.ok p, messages) ∧
      diff (parcels 5) ⟨[], .smart, .set, false, []⟩ (.ref 1) (.ref 2) = (.ok p, messages') ∧
      p.paths = ["weight", "items.$[elem0]"] ∧
      p.document (parcels 5) = p.document (parcels 3) := by
  have hfollows : ∀ a < (parcels 3).size, ((parcels 3).view (.ref a)).Follows freeforms := by decide
  have hclasses := everywhere_ref (Object.follows_nil freeforms) hfollows
  have hretains : ∀ a, RetainsAlike (parcels 3) (parcels 5) (.ref a) :=
    retainsAlike_ref (by decide +kernel)
  have hruns : ((diff (parcels 3) ⟨[], .smart, .set, false, []⟩ (.ref 1) (.ref 2)).1.toOption.map
      (·.paths) = some ["weight", "items.$[elem0]"]) ∧
      (diff (parcels 5) ⟨[], .smart, .set, false, []⟩ (.ref 1) (.ref 2)).1.toOption.isSome = true := by
    decide +kernel
  obtain ⟨p, hp, hpaths⟩ := Option.map_eq_some_iff.mp hruns.1
  obtain ⟨p', hp'⟩ := Option.isSome_iff_exists.mp hruns.2
  obtain ⟨messages, hd⟩ := diff_of_toOption hp
  obtain ⟨messages', hd'⟩ := diff_of_toOption hp'
  obtain ⟨rfl, hdocument, _⟩ := diff_private_state twins_parcels (hclasses 1)
    (hclasses 2) (hretains 1) (hretains 2) (by decide) (fun _ _ _ => toldApart_parcels) hd hd'
  exact ⟨twins_parcels, hclasses 1, hclasses 2, hretains 1, hretains 2,
    fun _ _ _ => toldApart_parcels, p', messages, messages', hd, hd', hpaths, hdocument⟩

/-! ### What shows all the same -/

/-- Two lists of one item each, of which the second bears a private mark. -/
def marked (mark : Addr) : Heap :=
  ⟨#[.list none [3], .list none [4], .record ⟨"Item", .freeform⟩ [("_mark", 5)],
    .record ⟨"Item", .freeform⟩ [("_mark", mark)], .int none 1, .int none 2]⟩

/-- A set of one item that bears a private mark. -/
def enclosed (mark : Addr) : Heap :=
  ⟨#[.set none [2], .record ⟨"Item", .freeform⟩ [("_mark", mark)], .int none 1, .int none 2]⟩

theorem follows_marked : ∀ a, (marked 6).Everywhere (Object.Follows freeforms) (.ref a) :=
  everywhere_ref (Object.follows_nil freeforms) (by decide)

theorem follows_enclosed : ∀ a, (enclosed 3).Everywhere (Object.Follows freeforms) (.ref a) :=
  everywhere_ref (Object.follows_nil freeforms) (by decide)

theorem twins_marked : Twins .unexported (marked 6) (marked 5) := by
  refine twins_of_cells rfl fun a ha => ?_
  change a < 7 at ha
  interval_cases a
  case «4» => exact .record (.cons ⟨rfl, .inr (hides_mark _)⟩ .nil)
  all_goals exact .same _

theorem twins_enclosed : Twins .unexported (enclosed 3) (enclosed 4) := by
  refine twins_of_cells rfl fun a ha => ?_
  change a < 5 at ha
  interval_cases a
  case «2» => exact .record (.cons ⟨rfl, .inr (hides_mark _)⟩ .nil)
  all_goals exact .same _

theorem diff_enclosed (mark : Addr) : ∃ messages,
    diff (enclosed mark) .default .nil (.ref 1) =
      (.ok (Patch.empty.set (.plain "") (.ref 1)), messages) := ⟨_, rfl⟩

theorem document_enclosed : (Patch.empty.set (.plain "") (.ref 1)).document (enclosed 3) =
    .ok (.map [(.text "$set", .map [(.text "", .ref 1)])]) := rfl

/-- Private state does influence a patch where sequences are not told apart alike, and a document
where what is kept as it is does not agree. -/
theorem diff_shows_private_state :
    (¬ ∀ (h h' : Heap) (K : ClassTable) (o : Options) (old new : Value) (p p' : Patch)
      (messages messages' : List Message), Twins .unexported h h' →
        h.Everywhere (Object.Follows K) old → h.Everywhere (Object.Follows K) new →
        RetainsAlike h h' old → RetainsAlike h h' new → o.strategy ≠ .merge →
        diff h o old new = (.ok p, messages) → diff h' o old new = (.ok p', messages') →
          p'.paths = p.paths) ∧
    ¬ ∀ (h h' : Heap) (K : ClassTable) (o : Options) (old new : Value) (p p' : Patch)
      (messages messages' : List Message), Twins .unexported h h' →
        h.Everywhere (Object.Follows K) old → h.Everywhere (Object.Follows K) new →
        o.strategy ≠ .merge →
        (∀ x y place, Compared h o old new x y place → (h.view x).kind = .sequence →
          (h.view y).kind = .sequence → ToldApart h h' o.strategy x y) →
        diff h o old new = (.ok p, messages) → diff h' o old new = (.ok p', messages') →
          ∀ d, p.document h = .ok d → Agrees h h' d := by
  constructor
  · intro hall
    have hruns : (diff (marked 6) .default (.ref 1) (.ref 2)).1.toOption.map (·.paths) = some [""] ∧
        (diff (marked 5) .default (.ref 1) (.ref 2)).1.toOption.map (·.paths) = some [] := by
      decide +kernel
    have hretains : ∀ a, RetainsAlike (marked 6) (marked 5) (.ref a) :=
      retainsAlike_ref (by decide +kernel)
    obtain ⟨p, hp, hpaths⟩ := Option.map_eq_some_iff.mp hruns.1
    obtain ⟨p', hp', hpaths'⟩ := Option.map_eq_some_iff.mp hruns.2
    obtain ⟨messages, hd⟩ := diff_of_toOption hp
    obtain ⟨messages', hd'⟩ := diff_of_toOption hp'
    have hsame := hall _ _ freeforms _ _ _ p p' messages messages' twins_marked (follows_marked 1)
      (follows_marked 2) (hretains 1) (hretains 2) (by decide) hd hd'
    rw [hpaths, hpaths'] at hsame
    cases hsame
  · intro hall
    obtain ⟨messages, hd⟩ := diff_enclosed 3
    obtain ⟨messages', hd'⟩ := diff_enclosed 4
    have hnone : ∀ x y place, Compared (enclosed 3) .default .nil (.ref 1) x y place →
        ((enclosed 3).view x).kind ≠ .sequence := by
      intro x y place hm hk
      obtain rfl := hm.of_nil
      cases hk
    have hsame := hall _ _ freeforms _ _ _ _ _ messages messages' twins_enclosed
      (everywhere_nil (Object.follows_nil freeforms)) (follows_enclosed 1) (by decide)
      (fun x y place hm hk => absurd hk (hnone x y place hm)) hd hd' _ document_enclosed
    have hsecond : ∀ {v w : Value}, w ∈ [v, w] := List.mem_cons_of_mem _ (List.mem_cons_self ..)
    have hwithin : (enclosed 3).Within (.map [(.text "$set", .map [(.text "", .ref 1)])]) (.ref 2) :=
      .head hsecond (.head hsecond (.single (List.mem_cons_self ..)))
    have hmarks : (Object.record ⟨"Item", .freeform⟩ [("_mark", Value.ref 4)]) =
        .record ⟨"Item", .freeform⟩ [("_mark", .ref 3)] := hsame _ hwithin
    cases hmarks

end Diff
end DocDelta
