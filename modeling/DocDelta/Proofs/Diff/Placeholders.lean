import DocDelta.Proofs.Diff.ConflictFree
import DocDelta.Proofs.Diff.Located

/-! Placeholders and filters.

Every item that a patch changes is recorded under a placeholder, and a filter says which item the
placeholder stands for. Both come from one change, so they match: the placeholder of the filter
that was added as number `n` is the last name of one recorded path and of no other, and every
placeholder on a path has its filter. -/
namespace DocDelta.Diff
open Heap Patch
variable {h : Heap} {K : ClassTable} {o : Options} {old new : Value} {fs : List Finding}
  {cs : List Change}

/-! ### Sites -/

/-- The items that change, each with the path of its sequence, in the order of their filters. -/
def sites (cs : List Change) : List (Label × Nat) :=
  cs.filterMap fun
    | .whole .. => none
    | .item path index _ => some (joinAll (.plain "") path, index)

theorem mem_sites {site : Label × Nat} (hm : site ∈ sites cs) :
    ∃ path v, .item path site.2 v ∈ cs ∧ site.1 = joinAll (.plain "") path := by
  obtain ⟨c, hc, hs⟩ := List.mem_filterMap.mp hm
  cases c with
  | whole path action => cases hs
  | item path index v =>
    cases hs
    exact ⟨path, v, hc, rfl⟩

/-- Filters are those of the sites, numbered. -/
theorem filtersFrom_sites (n : Nat) (cs : List Change) :
    filtersFrom n cs = ((sites cs).zipIdx n).map fun site => placeFilter site.2 site.1.2 := by
  induction cs generalizing n with
  | nil => rfl
  | cons c cs ih =>
    cases c with
    | whole path action => exact ih n
    | item path index v => exact congrArg (placeFilter n index :: ·) (ih (n + 1))

/-- A site is recorded under its placeholder. -/
theorem recordsFrom_site {n k : Nat} {place : Label} {index : Nat}
    (hs : (sites cs)[k]? = some (place, index)) :
    ∃ v, ⟨.set, joinPath place (placeName (n + k)), v⟩ ∈ recordsFrom n cs := by
  induction cs generalizing n k with
  | nil => cases hs
  | cons c cs ih =>
    cases c with
    | whole path action =>
      obtain ⟨v, hv⟩ := ih (n := n) hs
      exact ⟨v, List.mem_append_right _ hv⟩
    | item path i v =>
      cases k with
      | zero =>
        cases hs
        exact ⟨v, List.mem_append_left _ (List.mem_singleton.mpr rfl)⟩
      | succ k =>
        obtain ⟨w, hw⟩ := ih (n := n + 1) hs
        refine ⟨w, List.mem_append_right _ ?_⟩
        rwa [Nat.add_right_comm] at hw

/-- A name on a recorded path that is not plain is the placeholder of a site. -/
theorem site_recordsFrom (hp : ∀ c ∈ cs, ∀ l ∈ c.path, PlainName l.text) {n : Nat} {r : Record}
    (hr : r ∈ recordsFrom n cs) {s : String} (hs : s ∈ names r.path.text) (hn : ¬ PlainName s) :
    ∃ k place index, (sites cs)[k]? = some (place, index) ∧ s = (placeName (n + k)).text ∧
      r.operator = .set ∧ r.path = joinPath place (placeName (n + k)) := by
  induction cs generalizing n with
  | nil => cases hr
  | cons c cs ih =>
    have hplain := hp c (List.mem_cons_self ..)
    rcases List.mem_append.mp hr with hr | hr
    · have hr := Option.mem_toList.mp hr
      rw [names_record hr fun l hl => (hplain l hl).1] at hs
      have hpath : s ∉ c.path.map (·.text) := fun hs => by
        obtain ⟨l, hl, rfl⟩ := List.mem_map.mp hs
        exact hn (hplain l hl)
      cases c with
      | whole path action => exact absurd hs hpath
      | item path index v =>
        cases hr
        rcases List.mem_append.mp hs with hs | hs
        · exact absurd hs hpath
        · exact ⟨0, _, index, rfl, List.mem_singleton.mp hs, rfl, rfl⟩
    · obtain ⟨k, place, index, hk, hs, hop, hpath⟩ :=
        ih (fun c hc => hp c (List.mem_cons_of_mem _ hc)) hr
      cases c with
      | whole path action => exact ⟨k, place, index, hk, hs, hop, hpath⟩
      | item path i v =>
        rw [Change.takes, Nat.add_assoc, Nat.add_comm 1] at hs hpath
        exact ⟨k + 1, place, index, hk, hs, hop, hpath⟩

/-! ### Entries -/

section Entries
variable {p : Patch} {k : Nat} {place : Label} {index : Nat}

/-- An entry with a name on its path that is not plain is that of a site. -/
theorem site_entry (ha : Accumulates (recordsFrom 0 cs) p)
    (hp : ∀ c ∈ cs, ∀ l ∈ c.path, PlainName l.text) {e : Operator × String × Value}
    (he : e ∈ p.entries) {s : String} (hs : s ∈ names e.2.1) (hn : ¬ PlainName s) :
    ∃ k place index, (sites cs)[k]? = some (place, index) ∧ s = (placeName k).text ∧
      e.1 = .set ∧ e.2.1 = (joinPath place (placeName k)).text := by
  obtain ⟨r, hr, hop, -⟩ := (mem_entries ha).mp he
  have htext := lastOn_text hr
  obtain ⟨k, place, index, hk, hs, hset, hpath⟩ :=
    site_recordsFrom hp (lastOn_mem hr) (htext ▸ hs) hn
  rw [Nat.zero_add] at hs hpath
  rw [← hop, ← htext, hpath]
  exact ⟨k, place, index, hk, hs, hset, rfl⟩

/-- Just one entry has the placeholder of a site. -/
theorem entry_site (ha : Accumulates (recordsFrom 0 cs) p)
    (hp : ∀ c ∈ cs, ∀ l ∈ c.path, PlainName l.text) (hk : (sites cs)[k]? = some (place, index)) :
    ∃ v, ∀ e, e ∈ p.entries ∧ (placeName k).text ∈ names e.2.1 ↔
      e = (.set, (joinPath place (placeName k)).text, v) := by
  have honly : ∀ {e}, e ∈ p.entries → (placeName k).text ∈ names e.2.1 →
      e.1 = .set ∧ e.2.1 = (joinPath place (placeName k)).text := by
    intro e he hs
    obtain ⟨k', place', index', hk', hs', hset, hpath⟩ :=
      site_entry ha hp he hs (not_plainName_placeName k)
    cases placeName_inj hs'
    cases hk.symm.trans hk'
    exact ⟨hset, hpath⟩
  obtain ⟨v, hv⟩ := recordsFrom_site (n := 0) hk
  rw [Nat.zero_add] at hv
  obtain ⟨e, he, htext⟩ := List.mem_map.mp
    ((mem_paths_iff ha).mpr (List.mem_map.mpr ⟨_, hv, rfl⟩))
  have hnames : (placeName k).text ∈ names (joinPath place (placeName k)).text := by
    rw [names_joinPath place (segment_placeName k)]
    simp
  have hself : e = (.set, (joinPath place (placeName k)).text, e.2.2) :=
    Prod.ext (honly he (htext ▸ hnames)).1 (Prod.ext htext rfl)
  refine ⟨e.2.2, fun e' => ⟨fun ⟨he', hs⟩ => ?_, fun he' => ?_⟩⟩
  · rw [← hself]
    exact List.inj_on_of_nodup_map (paths_nodup ha) he' he ((honly he' hs).2.trans htext.symm)
  · rw [he', ← hself]
    exact ⟨he, htext ▸ hnames⟩

end Entries

/-! ### Findings -/

/-- A finding comes to one change at its path, or to none; an item is the item that was found. -/
theorem settle_path {policy : ZeroPolicy} {f : Finding} {c : Change} (hc : c ∈ f.settle policy) :
    c.path = f.path ∧ ∀ path i v, c = .item path i v → f = .change c := by
  cases f with
  | change d =>
    obtain rfl := List.mem_singleton.mp hc
    exact ⟨rfl, fun _ _ _ _ => rfl⟩
  | zero p w =>
    cases policy with
    | ignore => cases hc
    | set =>
      obtain rfl := List.mem_singleton.mp hc
      exact ⟨rfl, nofun⟩
    | unset =>
      obtain rfl := List.mem_singleton.mp hc
      exact ⟨rfl, nofun⟩

theorem settle_pairwise {R : Change → Change → Prop} (policy : ZeroPolicy) (f : Finding) :
    (f.settle policy).Pairwise R := by
  cases f with
  | change c => exact List.pairwise_singleton ..
  | zero p w =>
    cases policy with
    | ignore => exact .nil
    | _ => exact List.pairwise_singleton ..

/-- The site of a finding. -/
theorem mem_sites_settleAll {policy : ZeroPolicy} {site : Label × Nat}
    (hm : site ∈ sites (settleAll policy fs)) :
    ∃ path v, .change (.item path site.2 v) ∈ fs ∧ site.1 = joinAll (.plain "") path := by
  obtain ⟨path, v, hc, hsite⟩ := mem_sites hm
  obtain ⟨f, hf, hc⟩ := List.mem_flatMap.mp hc
  obtain rfl := (settle_path hc).2 _ _ _ rfl
  exact ⟨path, v, hf, hsite⟩

theorem plain_settleAll {policy : ZeroPolicy} (hs : Spread fs) :
    ∀ c ∈ settleAll policy fs, ∀ l ∈ c.path, PlainName l.text := by
  intro c hc
  obtain ⟨f, hf, hc⟩ := List.mem_flatMap.mp hc
  rw [(settle_path hc).1]
  exact hs.plain f hf

/-- Two sites under one path are of different items. -/
theorem sites_pairwise {policy : ZeroPolicy} (hs : Spread fs) :
    (sites (settleAll policy fs)).Pairwise fun a b => a.1.text = b.1.text → a.2 ≠ b.2 := by
  refine List.pairwise_filterMap.mpr
    (List.pairwise_flatMap.mpr ⟨fun f _ => settle_pairwise policy f, hs.aside.imp_of_mem ?_⟩)
  intro f g hf hg ha c hc d hd a hca b hdb htext
  cases c with
  | whole p action => cases hca
  | item p i v =>
    cases d with
    | whole q action => cases hdb
    | item q j w =>
      cases hca
      cases hdb
      obtain rfl := (settle_path hc).2 _ _ _ rfl
      obtain rfl := (settle_path hd).2 _ _ _ rfl
      rcases ha (.inl trivial) with hapart | ⟨_, _, _, _, _, _, hf, hg, _, hij⟩
      · have hp : ∀ l ∈ p, Segment l.text := fun l hl => (hs.plain _ hf l hl).1
        have hq : ∀ l ∈ q, Segment l.text := fun l hl => (hs.plain _ hg l hl).1
        have hnames : names (joinAll (.plain "") p).text = names (joinAll (.plain "") q).text :=
          congrArg names htext
        rw [names_joinAll _ hp, names_joinAll _ hq] at hnames
        exact absurd (List.append_cancel_left hnames ▸ List.prefix_rfl) hapart.1
      · cases hf
        cases hg
        exact hij

/-! ### The patch -/

/-- **Placeholders and filters match.** -/
theorem diff_placeholders (hno : h.Everywhere h.WellNamed old) (hnn : h.Everywhere h.WellNamed new)
    (hfo : h.Everywhere (Object.Follows K) old) (hfn : h.Everywhere (Object.Follows K) new)
    {p : Patch} {messages : List Message} (hd : diff h o old new = (.ok p, messages)) :
    ∃ sites : List (Label × Nat),
      p.filters = sites.zipIdx.map (fun site => placeFilter site.2 site.1.2) ∧
      (∀ (n : Nat) (place : Label) (index : Nat), sites[n]? = some (place, index) →
        (∃ v, ∀ e, e ∈ p.entries ∧ (placeName n).text ∈ names e.2.1 ↔
          e = (.set, (joinPath place (placeName n)).text, v)) ∧
        ∃ x y xs, Compared h o old new x y place ∧ (h.view x).kind = .sequence ∧
          itemsOf h x = .ok xs ∧ index < xs.length) ∧
      (∀ path ∈ p.paths, ∀ s ∈ names path, s.toList.head? = some '$' →
        ∃ n < sites.length, s = (placeName n).text) ∧
      sites.Pairwise fun a b => a.1.text = b.1.text → a.2 ≠ b.2 := by
  have ho := everywhere_orderly hno hfo
  have hn := everywhere_orderly hnn hfn
  obtain ⟨fs, n, hf, hp⟩ : ∃ fs n, Finds h o (.compare old new) (.plain "") fs ∧
      (p, n) = replayAll (.plain "") (settleAll o.zeros fs) (.empty, 0) := by
    rcases diff_abreast (finds_compare o.zeros ho hn) rfl with
      ⟨e, he, _⟩ | ⟨p', _, cs, _, n, _, hp, _, ⟨fs, hf, rfl, _⟩, hreplay, _⟩
    · cases (congrArg Prod.fst hd).symm.trans he
    · cases (congrArg Prod.fst hd).symm.trans hp
      exact ⟨fs, n, hf, hreplay⟩
  have hspread := finds_spread hf ⟨ho, hn⟩
  obtain ⟨hrecords, hfilters⟩ := accumulates_changes hp
  have hplain : ∀ c ∈ settleAll o.zeros fs, ∀ l ∈ c.path, PlainName l.text :=
    plain_settleAll hspread
  refine ⟨sites (settleAll o.zeros fs), hfilters.trans (filtersFrom_sites 0 _),
    fun k place index hk => ⟨entry_site hrecords hplain hk, ?_⟩, fun path hpath s hs hdollar => ?_,
    sites_pairwise hspread⟩
  · obtain ⟨path, v, hm, hsite⟩ := mem_sites_settleAll (List.mem_of_getElem? hk)
    obtain rfl : place = joinAll (.plain "") path := hsite
    obtain ⟨x, y, hc, hkind, xs, hxs, hi⟩ := finds_located hf .root hm trivial
    exact ⟨x, y, xs, hc, hkind, hxs, hi⟩
  · obtain ⟨e, he, rfl⟩ := List.mem_map.mp hpath
    obtain ⟨k, place, index, hk, hs, -⟩ :=
      site_entry hrecords hplain he hs fun hplain => hplain.2 hdollar
    exact ⟨k, (List.getElem?_eq_some_iff.mp hk).1, hs⟩

theorem diff_placeholders_boxes :
    boxes.Everywhere boxes.WellNamed (.ref 1) ∧ boxes.Everywhere boxes.WellNamed (.ref 2) ∧
    boxes.Everywhere (Object.Follows freeforms) (.ref 1) ∧
    boxes.Everywhere (Object.Follows freeforms) (.ref 2) ∧
    ∃ p messages sites, diff boxes ⟨[], .smart, .set, false, []⟩ (.ref 1) (.ref 2) = (.ok p, messages) ∧
      p.paths = ["x", "xs.$[elem0]", "xs.$[elem1]"] ∧
      p.filters = (sites : List (Label × Nat)).zipIdx.map (fun site => placeFilter site.2 site.1.2) ∧
      1 < sites.length ∧
      sites.Pairwise fun a b => a.1.text = b.1.text → a.2 ≠ b.2 := by
  have hnamed := everywhere_ref wellNamed_nil boxes_named.1
  obtain ⟨p, messages, hd, hpaths⟩ := diff_boxes
  obtain ⟨sites, hfilters, _, hplaces, hdistinct⟩ :=
    diff_placeholders (hnamed 1) (hnamed 2) (follows_boxes 1) (follows_boxes 2) hd
  obtain ⟨n, hn, hname⟩ := hplaces "xs.$[elem1]" (by simp [hpaths]) "$[elem1]" (by decide) (by decide)
  obtain rfl : 1 = n := placeName_inj hname
  exact ⟨hnamed 1, hnamed 2, follows_boxes 1, follows_boxes 2, p, messages, sites, hd, hpaths, hfilters,
    hn, hdistinct⟩

end DocDelta.Diff
