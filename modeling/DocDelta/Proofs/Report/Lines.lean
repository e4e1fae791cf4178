import DocDelta.Proofs.Report.Breaking

/-! Lines and their leads.

What is written of a value is rows, each behind the lead and with a line feed at its end, so no line
of a value can be taken for one that separates values (`writeValue_led`). Two slips are told apart:
the empty text alone leaves a bare line, and a list whose layout is short and yet broken is written
as if it were one line. A layout is that only where a text or a byte string holds both kinds of
quotes. -/
namespace DocDelta.Report
open Relation Heap Number Text

/-! ### Rows -/

/-- Rows behind a lead, each with a line feed at its end. -/
inductive Rows (lead : List Char) : List Char → Prop
  | nil : Rows lead []
  | cons {row rest : List Char} (hrow : '\n' ∉ row) (hrest : Rows lead rest) :
    Rows lead (lead ++ row ++ '\n' :: rest)

namespace Rows
variable {lead row cs ds : List Char}

theorem single (hrow : '\n' ∉ row) : Rows lead (lead ++ row ++ ['\n']) := .cons hrow .nil

theorem append (hc : Rows lead cs) (hd : Rows lead ds) : Rows lead (cs ++ ds) := by
  induction hc with
  | nil => exact hd
  | cons hrow _ ih =>
    rw [List.append_assoc, List.cons_append]
    exact .cons hrow ih

/-- Rows behind a longer lead are rows behind a part of it. -/
theorem shorten {more : List Char} (hmore : '\n' ∉ more) (hc : Rows (lead ++ more) cs) :
    Rows lead cs := by
  induction hc with
  | nil => exact .nil
  | @cons row rest hrow _ ih =>
    rw [List.append_assoc lead]
    exact .cons (List.mem_append.not.mpr (not_or.mpr ⟨hmore, hrow⟩)) ih

/-- What is put before rows without a line feed belongs to the first of them. -/
theorem before (hlead : '\n' ∉ lead) (hrow : '\n' ∉ row) (hc : Rows lead cs) (hne : cs ≠ []) :
    Rows lead (lead ++ row ++ cs) := by
  cases hc with
  | nil => exact absurd rfl hne
  | @cons first rest hfirst hrest =>
    have hjoined : '\n' ∉ row ++ (lead ++ first) := by
      simp only [List.mem_append, not_or]
      exact ⟨hrow, hlead, hfirst⟩
    have hcons : Rows lead (lead ++ (row ++ (lead ++ first)) ++ '\n' :: rest) :=
      .cons hjoined hrest
    simpa only [List.append_assoc] using hcons

/-- A line in front of rows is one more row, or the start of the first of them. -/
theorem line (hlead : '\n' ∉ lead) {l : List Char} (hl : IsLine l) (hc : Rows lead cs)
    (hne : l.getLast? = some '\n' ∨ cs ≠ []) : Rows lead (lead ++ l ++ cs) := by
  obtain ⟨front, c, rfl, hfront⟩ := hl
  by_cases hcn : c = '\n'
  · subst hcn
    have hcons := Rows.cons hfront hc
    simpa only [List.append_assoc, List.singleton_append] using hcons
  · refine hc.before hlead ?_ (hne.resolve_left ?_)
    · simpa [Ne.symm hcn] using hfront
    · simpa using hcn

/-- Lines, and a line feed where the last one lacks it. -/
theorem lines (hlead : '\n' ∉ lead) {ls : List (List Char)} (hls : ∀ l ∈ ls, IsLine l)
    (hne : ls ≠ []) : Rows lead (ls.flatMap (lead ++ ·) ++
      if ls.flatten.getLast? = some '\n' then [] else ['\n']) := by
  induction ls with
  | nil => exact absurd rfl hne
  | cons l ls ih =>
    have hl := hls l (List.mem_cons_self ..)
    rw [List.flatMap_cons, List.flatten_cons, List.append_assoc]
    cases ls with
    | nil =>
      rw [List.flatten_nil, List.append_nil]
      split
      · rename_i hended
        exact Rows.nil.line hlead hl (.inl hended)
      · rename_i hopen
        obtain ⟨front, c, rfl, hfront⟩ := hl
        exact Rows.single (by simpa [hfront, Eq.comm] using hopen)
    | cons k ls =>
      have hrest := ih (fun x hx => hls x (List.mem_cons_of_mem l hx)) (List.cons_ne_nil k ls)
      obtain ⟨front, c, rfl, -⟩ := hls k (List.mem_cons_of_mem l (List.mem_cons_self ..))
      rw [List.getLast?_append_of_ne_nil _ (by simp)]
      exact hrest.line hlead hl (.inr (by simp))

theorem ended (hc : Rows lead cs) : cs = [] ∨ cs.getLast? = some '\n' := by
  induction hc with
  | nil => exact .inl rfl
  | @cons row rest _ _ ih =>
    refine .inr ?_
    rcases ih with rfl | ih
    · simp
    · rw [List.getLast?_append, List.getLast?_cons, ih]
      rfl

/-- Cut at its line feeds, a text of rows is the rows with their leads. -/
theorem prefix_of_mem_splitOn (hlead : '\n' ∉ lead) (hc : Rows lead cs) :
    ∀ line ∈ (cs.splitOn '\n').dropLast, lead <+: line := by
  induction hc with
  | nil => exact nofun
  | @cons row rest hrow _ ih =>
    have hfirst : ∀ c ∈ lead ++ row, (c == '\n') = false := by
      intro c hc
      refine beq_eq_false_iff_ne.mpr ?_
      rintro rfl
      exact (List.mem_append.mp hc).elim hlead hrow
    rw [List.splitOn, List.splitOnP_append_cons_of_forall_mem hfirst '\n' rfl,
      List.dropLast_cons_of_ne_nil (List.splitOnP_ne_nil _ rest)]
    exact List.forall_mem_cons.mpr ⟨List.prefix_append lead row, ih⟩

end Rows

/-- A text whose lines all stand behind a lead, and whose last line is ended, too. -/
structure Led (lead t : String) : Prop where
  ended : t = "" ∨ t.endsWith "\n" = true
  led : ∀ line ∈ (t.toList.splitOn '\n').dropLast, lead.toList <+: line

/-- Rows are the lines of a text where the lead is within one line. -/
theorem Rows.toLed {lead t : String} (hlead : '\n' ∉ lead.toList)
    (hc : Rows lead.toList t.toList) : Led lead t where
  ended := hc.ended.imp String.toList_eq_nil_iff.mp endsWith_newline.mpr
  led := hc.prefix_of_mem_splitOn hlead

/-! ### Writing rows -/

/-- Writing that comes to its end with some characters more on the page. -/
def Writes (m : Page Unit) (cs : List Char) : Prop :=
  ∀ s, m.run s = (.ok (), s ++ String.ofList cs)

section Writes
variable {m k : Page Unit} {cs ds : List Char}

theorem writes_pure : Writes (pure ()) [] := fun s => by
  show (Except.ok (), s) = _
  rw [String.ofList_nil, String.append_empty]

theorem writes_write (t : String) : Writes (write t) t.toList := fun s => by
  rw [String.ofList_toList]
  rfl

theorem writes_bind (hm : Writes m cs) (hk : Writes k ds) :
    Writes (m >>= fun _ => k) (cs ++ ds) := by
  intro s
  rw [run_bind, hm s, String.ofList_append, ← String.append_assoc]
  exact hk _

theorem writes_forM {α : Type} {f : α → Page Unit} {g : α → List Char}
    (hf : ∀ x, Writes (f x) (g x)) (xs : List α) : Writes (xs.forM f) (xs.flatMap g) := by
  induction xs with
  | nil => exact writes_pure
  | cons x xs ih => exact writes_bind (hf x) ih

end Writes

/-- Writing of rows behind a lead. -/
def Leads (lead : String) (m : Page Unit) : Prop := ∃ cs, Writes m cs ∧ Rows lead.toList cs

section Leads
variable {lead : String} {m k : Page Unit}

theorem leads_bind (hm : Leads lead m) (hk : Leads lead k) : Leads lead (m >>= fun _ => k) := by
  obtain ⟨cs, hwm, hrm⟩ := hm
  obtain ⟨ds, hwk, hrk⟩ := hk
  exact ⟨cs ++ ds, writes_bind hwm hwk, hrm.append hrk⟩

theorem leads_forM {α : Type} {f : α → Page Unit} {xs : List α}
    (hf : ∀ x ∈ xs, Leads lead (f x)) : Leads lead (xs.forM f) := by
  induction xs with
  | nil => exact ⟨[], writes_pure, .nil⟩
  | cons x xs ih =>
    have hrest := ih fun y hy => hf y (List.mem_cons_of_mem x hy)
    exact leads_bind (hf x (List.mem_cons_self ..)) hrest

theorem leads_shorten {more : String} (hmore : '\n' ∉ more.toList) (hm : Leads (lead ++ more) m) :
    Leads lead m := by
  obtain ⟨cs, hw, hr⟩ := hm
  rw [String.toList_append] at hr
  exact ⟨cs, hw, hr.shorten hmore⟩

theorem leads_write {t row : String} (ht : t = lead ++ row ++ "\n") (hrow : '\n' ∉ row.toList) :
    Leads lead (write t) := by
  refine ⟨t.toList, writes_write t, ?_⟩
  rw [ht, String.toList_append, String.toList_append]
  exact .single hrow

end Leads

/-! ### Values in rows -/

section Values
variable {h : Heap} {v key : Value} {lead : String}

/-- A text that is not empty is written in rows. -/
theorem leads_writeLines (hlead : '\n' ∉ lead.toList) {s : String} (hs : s ≠ "") :
    Leads lead (writeLines s lead) := by
  have hloop : writeLines s lead =
      (linesKeeping s.toList).forM (fun line => write (lead ++ String.ofList line)) >>= fun _ =>
        if !s.endsWith "\n" then write "\n" else pure () :=
    congrArg (· >>= _) (forIn_eq_forM fun _ _ _ => rfl)
  have hlines := writes_forM (fun line => writes_write (lead ++ String.ofList line))
    (linesKeeping s.toList)
  have hend : Writes (if !s.endsWith "\n" then write "\n" else pure ())
      (if s.toList.getLast? = some '\n' then [] else ['\n']) := by
    cases hc : s.endsWith "\n" with
    | true =>
      rw [if_pos (endsWith_newline.mp hc)]
      exact writes_pure
    | false =>
      rw [if_neg fun hl => Bool.false_ne_true (hc.symm.trans (endsWith_newline.mpr hl))]
      exact writes_write "\n"
  have hne : linesKeeping s.toList ≠ [] := by
    intro hnil
    have hflat := flatten_linesKeeping s.toList
    rw [hnil] at hflat
    exact hs (String.toList_eq_nil_iff.mp hflat.symm)
  have hrows := Rows.lines hlead (fun l hl => isLine_linesKeeping hl) hne
  rw [flatten_linesKeeping] at hrows
  rw [hloop]
  refine ⟨_, writes_bind hlines hend, ?_⟩
  simpa only [String.toList_append, String.toList_ofList] using hrows

theorem newline_step : '\n' ∉ step.toList := by decide

theorem newline_item (i : Nat) :
    '\n' ∉ (h.display (.text ("item[" ++ decimalText i ++ "]"))).toList := by
  rw [display_text rfl]
  simp [notMem_decimalText]

theorem leads_writeKey (hkey : '\n' ∉ (h.display key).toList) (lead : String) :
    Leads lead (writeKey h key lead) := by
  have hrow : lead ++ h.display key ++ ":\n" = lead ++ (h.display key ++ ":") ++ "\n" := by
    simp only [String.append_assoc]
    rfl
  exact leads_write hrow (by simpa using hkey)

theorem leads_writeKeyValue (hkey : '\n' ∉ (h.display key).toList)
    (hv : '\n' ∉ (h.display v).toList) (lead : String) :
    Leads lead (writeKeyValue h key v lead) := by
  have hrow : lead ++ h.display key ++ ": " ++ h.display v ++ "\n" =
      lead ++ (h.display key ++ (": " ++ h.display v)) ++ "\n" := by
    simp only [String.append_assoc]
  exact leads_write hrow (by simpa using ⟨hkey, hv⟩)

/-- A short value is written behind its key or line by line below it. -/
theorem leads_writeItem_leaf (hkey : '\n' ∉ (h.display key).toList) (hmap : h.mapEntries? v = none)
    (hlist : h.listItems? v = none) (hv : Answers (formatted h v)) (n : Nat) (lead : String) :
    Leads lead (writeItemWithin h (n + 1) key v lead) := by
  rw [writeItemWithin]
  split
  · rename_i hview
    rw [mapEntries?, hview] at hmap
    cases hmap
  · rename_i hview
    rw [listItems?, hview] at hlist
    cases hlist
  · obtain ⟨s, hs⟩ := hv
    rw [hs]
    show Leads lead (if s.toList.contains '\n' then
      writeKey h key lead >>= fun _ => forIn (lines s.toList) PUnit.unit _ >>= fun _ =>
        (pure () : Page Unit) else writeKeyValue h key (.text s) lead)
    split
    · refine leads_bind (leads_writeKey hkey lead) ?_
      rw [bind_pure_unit, forIn_eq_forM fun _ _ _ => rfl]
      refine leads_forM fun line hl => leads_shorten newline_step ?_
      exact leads_write rfl (by simpa using newline_lines hl)
    · rename_i hone
      refine leads_writeKeyValue hkey ?_ lead
      rw [display_text (v := .text s) rfl]
      simpa using hone

/-- A document that can be shown: it does not contain itself, the keys of its maps are texts of one
line, and whatever is neither a map nor a text has a layout. -/
structure Legible (h : Heap) (v : Value) : Prop where
  acyclic : h.Acyclic v
  keyed : ∀ w es, h.Within v w → h.mapEntries? w = some es →
    ∀ e ∈ es, ∃ s, (h.view e.1).text? = some s ∧ '\n' ∉ s.toList
  laid : ∀ w, h.Within v w → h.mapEntries? w = none → (h.view w).text? = none →
    ∃ s, h.layout w = .ok s ∧ s ≠ ""

/-- A list that is short when it is laid out is on one line. -/
def Unbroken (h : Heap) (v : Value) : Prop :=
  ∀ xs s, h.listItems? v = some xs → h.layout v = .ok s → s.length < lineWidth → '\n' ∉ s.toList

theorem Legible.of_within {w : Value} (hv : Legible h v) (hw : h.Within v w) : Legible h w :=
  ⟨hv.acyclic.of_within hw, fun u es hu => hv.keyed u es (hw.trans hu),
    fun u hu => hv.laid u (hw.trans hu)⟩

/-- A value is legible where its layer and its parts are. -/
theorem Legible.of_parts (hp : ∀ w, h.Part v w → Legible h w)
    (hk : ∀ es, h.mapEntries? v = some es →
      ∀ e ∈ es, ∃ s, (h.view e.1).text? = some s ∧ '\n' ∉ s.toList)
    (hl : h.mapEntries? v = none → (h.view v).text? = none → ∃ s, h.layout v = .ok s ∧ s ≠ "") :
    Legible h v where
  acyclic := acyclic_of_parts fun w hw => (hp w hw).acyclic
  keyed w es hw := by
    rcases hw.cases_head with rfl | ⟨u, hu, huw⟩
    · exact hk es
    · exact (hp u hu).keyed w es huw
  laid w hw := by
    rcases hw.cases_head with rfl | ⟨u, hu, huw⟩
    · exact hl
    · exact (hp u hu).laid w huw

/-- Whatever is not a map has a simple form, and only the empty text has an empty one. -/
theorem Legible.formatted (hv : Legible h v) (hmap : h.mapEntries? v = none) :
    ∃ s, formatted h v = .ok s ∧ ((h.view v).text? ≠ some "" → s ≠ "") := by
  unfold Report.formatted
  cases ht : (h.view v).text? with
  | some s => exact ⟨s, rfl, fun hne he => hne (congrArg some he)⟩
  | none =>
    obtain ⟨s, hs, hne⟩ := hv.laid v .refl hmap ht
    exact ⟨s, hs, fun _ => hne⟩

/-- A list is written in one line that has no line feed, or item by item. -/
theorem leads_writeList {c : Option Subclass} {xs : List Value} (hview : h.view v = .list c xs)
    (hv : Legible h v) (hu : Unbroken h v) {n : Nat}
    (hx : ∀ x, h.Part v x → ∀ key, '\n' ∉ (h.display key).toList →
      Leads lead (writeItemWithin h n key x lead)) :
    Leads lead (writeListWithin h (n + 1) v lead) := by
  have hmap : h.mapEntries? v = none := by rw [mapEntries?, hview]
  have hlist : h.listItems? v = some xs := by rw [listItems?, hview]
  have hiterate : h.iterate v = .ok xs := by
    simp only [iterate, hview]
    rfl
  obtain ⟨s, hs, -⟩ := hv.laid v .refl hmap (by rw [hview]; rfl)
  rw [writeListWithin, inlineList?, hs, hiterate]
  show Leads lead (ask (.ok (if _ then some s else none)) >>= _)
  split
  · rename_i hfits
    have hshort : s.length + lead.length < lineWidth :=
      of_decide_eq_true (Bool.and_eq_true_iff.mp hfits).1
    exact leads_write rfl (hu xs s hlist hs (by omega))
  · show Leads lead (forIn xs.zipIdx PUnit.unit _ >>= fun _ => (pure () : Page Unit))
    rw [bind_pure_unit, forIn_eq_forM fun _ _ _ => rfl]
    refine leads_forM fun p hp => hx p.1 ?_ _ (newline_item p.2)
    exact item_part hview (List.fst_mem_of_mem_zipIdx hp)

/-- A map is written entry by entry. -/
theorem leads_writeMap {c : Option Subclass} {es : List (Value × Value)}
    (hview : h.view v = .map c es) (hv : Legible h v) {n : Nat}
    (hx : ∀ x, h.Part v x → ∀ key, '\n' ∉ (h.display key).toList →
      Leads lead (writeItemWithin h n key x lead)) :
    Leads lead (writeMapWithin h (n + 1) v [] lead) := by
  have he := hv.keyed v es .refl (by rw [mapEntries?, hview])
  have htexts : ∀ e ∈ es, ∃ s, (h.view e.1).text? = some s := fun e hm =>
    (he e hm).imp fun s hs => hs.1
  obtain ⟨keys, hperm, hwrite⟩ := writeMapWithin_texts hview htexts n lead
  rw [hwrite]
  refine leads_forM fun k hk => ?_
  obtain ⟨d, hd, rfl⟩ := List.mem_map.mp (hperm.subset hk)
  obtain ⟨s, hs, hone⟩ := he d hd
  obtain ⟨e, hm, hentry⟩ := entry?_of_key htexts (hperm.subset hk)
  rw [hentry]
  exact hx e.2 (entry_parts hview hm).2 d.1 (by rwa [display_text hs])

/-- **A value is written in rows below its key.** -/
theorem leads_writeItem (hv : Legible h v) (hu : ∀ w, h.Within v w → Unbroken h w) {n : Nat}
    (hn : 2 * rank h v + 2 ≤ n) (hkey : '\n' ∉ (h.display key).toList) (lead : String) :
    Leads lead (writeItemWithin h n key v lead) := by
  induction hr : rank h v using Nat.strong_induction_on generalizing v n key lead with
  | _ r ih =>
    obtain ⟨n, rfl⟩ : ∃ k, n = k + 2 := ⟨n - 2, by omega⟩
    have hpart : ∀ w, h.Part v w → ∀ key, '\n' ∉ (h.display key).toList → ∀ lead,
        Leads lead (writeItemWithin h n key w lead) := by
      intro w hp key hkey lead
      have hlt := hv.acyclic.rank_below (.single hp)
      exact ih (rank h w) (hr ▸ hlt) (hv.of_within (.single hp))
        (fun u hw => hu u (.head hp hw)) (by omega) hkey lead rfl
    cases hview : h.view v with
    | map c es =>
      rw [writeItemWithin, hview]
      refine leads_bind (leads_writeKey hkey lead) (leads_shorten newline_step ?_)
      exact leads_writeMap hview hv fun x hp key hkey => hpart x hp key hkey _
    | list c xs =>
      rw [writeItemWithin, hview]
      refine leads_bind (leads_writeKey hkey lead) (leads_shorten newline_step ?_)
      exact leads_writeList hview hv (hu v .refl) fun x hp key hkey => hpart x hp key hkey _
    | _ =>
      have hmap : h.mapEntries? v = none := by rw [mapEntries?, hview]
      have hlist : h.listItems? v = none := by rw [listItems?, hview]
      obtain ⟨s, hs, -⟩ := hv.formatted hmap
      exact leads_writeItem_leaf hkey hmap hlist ⟨s, hs⟩ (n + 1) lead

theorem leads_writeValue (hv : Legible h v) (hu : ∀ w, h.Within v w → Unbroken h w)
    (hne : (h.view v).text? ≠ some "") (hlead : '\n' ∉ lead.toList) :
    Leads lead (writeValue h v lead) := by
  have hpart : ∀ x, h.Part v x → ∀ key, '\n' ∉ (h.display key).toList →
      Leads lead (writeItemWithin h (2 * h.layerBound v + 1) key x lead) := by
    intro x hp key hkey
    have hlt := (hv.acyclic.rank_below (.single hp)).trans (rank_lt_layerBound v)
    exact leads_writeItem (hv.of_within (.single hp)) (fun w hw => hu w (.head hp hw))
      (by omega) hkey lead
  have hsimple : h.mapEntries? v = none →
      Leads lead (ask (formatted h v) >>= fun s => writeLines s lead) := by
    intro hmap
    obtain ⟨s, hs, hfilled⟩ := hv.formatted hmap
    rw [hs]
    exact leads_writeLines hlead (hfilled hne)
  cases hview : h.view v with
  | map c es =>
    rw [writeValue, hview]
    exact leads_writeMap hview hv hpart
  | list c xs =>
    rw [writeValue, hview]
    cases xs with
    | nil => exact hsimple (by rw [mapEntries?, hview])
    | cons x xs => exact leads_writeList hview hv (hu v .refl) hpart
  | _ =>
    rw [writeValue, hview]
    exact hsimple (by rw [mapEntries?, hview])

end Values

/-! ### Values behind a lead -/

section Led
variable {h : Heap} {v : Value}

/-- Where no text or byte string holds both kinds of quotes, no short list is broken. -/
theorem unbroken_of_even (hv : h.Acyclic v) (he : h.Everywhere (Layout.Even h) v) :
    Unbroken h v := by
  intro xs s _ hs hn
  refine newline_layout hv he hs ?_
  have hwidth : (lineWidth : Int) ≤ Layout.pageWidth := by decide
  omega

/-- **Each line of a value stands behind the lead, and the last one is ended, too**, but for the
empty text, of which a bare line is written. This asks that a list is on one line when its layout is
short, as it is where no text or byte string holds both kinds of quotes. -/
theorem writeValue_led (h : Heap) (v : Value) (lead : String) (hv : Legible h v)
    (hlead : '\n' ∉ lead.toList) :
    ((h.view v).text? = some "" → (writeValue h v lead).run "" = (.ok (), "\n")) ∧
    ((h.view v).text? ≠ some "" → (∀ w, h.Within v w → Unbroken h w) →
      ∃ t, (writeValue h v lead).run "" = (.ok (), t) ∧ Led lead t) ∧
    (h.Everywhere (Layout.Even h) v → ∀ w, h.Within v w → Unbroken h w) := by
  refine ⟨fun hempty => ?_, fun hne hu => ?_, fun he w hw => ?_⟩
  · obtain ⟨c, hc⟩ := text_of_text? hempty
    rw [writeValue, hc, formatted, hempty]
    rfl
  · obtain ⟨cs, hwrites, hrows⟩ := leads_writeValue hv hu hne hlead
    refine ⟨String.ofList cs, ?_, Rows.toLed hlead (by rwa [String.toList_ofList])⟩
    rw [hwrites "", String.empty_append]
  · exact unbroken_of_even (hv.acyclic.of_within hw) (he.of_within hw)

/-- A document with a text of two lines and a list. -/
def letter : Value := .table [("to", .text "Ann\nBob"), ("tags", .list [.text "it's", .int 3])]

theorem writeValue_led_letter : Legible .empty letter ∧ '\n' ∉ "+  ".toList ∧
    (Heap.empty.view letter).text? ≠ some "" ∧ Heap.empty.Everywhere (Layout.Even .empty) letter ∧
      ∃ t, (writeValue .empty letter "+  ").run "" = (.ok (), t) ∧ Led "+  " t := by
  have htext : ∀ s : String, OneQuote s.toList → Legible .empty (.text s) ∧
      Heap.empty.Everywhere (Layout.Even .empty) (.text s) := fun s hs =>
    ⟨.of_parts nofun nofun fun _ => nofun, everywhere_of_parts hs nofun⟩
  have hthree : Legible .empty (.int 3) ∧ Heap.empty.Everywhere (Layout.Even .empty) (.int 3) :=
    ⟨.of_parts nofun nofun fun _ _ => ⟨"3", ok_of_toOption (by decide +kernel), by decide⟩,
      everywhere_of_parts trivial nofun⟩
  have htags : ∀ w, Heap.empty.Part (.list [.text "it's", .int 3]) w →
      Legible .empty w ∧ Heap.empty.Everywhere (Layout.Even .empty) w := by
    intro w hw
    rcases List.mem_pair.mp hw with rfl | rfl
    · exact htext "it's" (by decide)
    · exact hthree
  have hparts : ∀ w, Heap.empty.Part letter w →
      Legible .empty w ∧ Heap.empty.Everywhere (Layout.Even .empty) w := by
    intro w hw
    have hw : w ∈ [.text "to", .text "Ann\nBob", .text "tags", .list [.text "it's", .int 3]] := hw
    simp only [List.mem_cons, List.not_mem_nil, or_false] at hw
    rcases hw with rfl | rfl | rfl | rfl
    · exact htext "to" (by decide)
    · exact htext "Ann\nBob" (by decide)
    · exact htext "tags" (by decide)
    · refine ⟨.of_parts (fun w hw => (htags w hw).1) nofun fun _ _ => ?_,
        everywhere_of_parts trivial fun w hw => (htags w hw).2⟩
      exact ⟨"[\"it's\", 3]", ok_of_toOption (by decide +kernel), by decide⟩
  have hkeys : ∀ e ∈ namedEntries [("to", Value.text "Ann\nBob"),
      ("tags", .list [.text "it's", .int 3])],
        ∃ s, (Heap.empty.view e.1).text? = some s ∧ '\n' ∉ s.toList := by
    intro e he
    rcases List.mem_pair.mp he with rfl | rfl
    · exact ⟨"to", rfl, by decide⟩
    · exact ⟨"tags", rfl, by decide⟩
  have hletter : Legible .empty letter :=
    .of_parts (fun w hw => (hparts w hw).1) (by rintro _ ⟨⟩; exact hkeys) nofun
  have heven : Heap.empty.Everywhere (Layout.Even .empty) letter :=
    everywhere_of_parts (fun e he => (hkeys e he).imp fun _ hs => hs.1) fun w hw => (hparts w hw).2
  have hlead : '\n' ∉ "+  ".toList := by decide
  obtain ⟨-, hled, hunbroken⟩ := writeValue_led .empty letter "+  " hletter hlead
  exact ⟨hletter, hlead, nofun, heven, hled nofun (hunbroken heven)⟩

/-- A text of one kind of quote, to be followed by one of the other. -/
def quotes : String := String.ofList (List.replicate 41 '\x27')

/-- **A line may lack its lead**: the one of the empty text, and the second one of a list that is
short when it is laid out and yet broken, for what its text is in two pieces is shorter. -/
theorem writeValue_torn :
    (text (writeValue .empty (.text "") "+  ") = .ok "\n" ∧ ¬ Led "+  " "\n") ∧
    (text (writeValue .empty (.list [.text (quotes ++ " \"")]) "+  ") =
        .ok ("+  [\"" ++ quotes ++ " \"\n '\"']\n") ∧
      ¬ Led "+  " ("+  [\"" ++ quotes ++ " \"\n '\"']\n")) := by
  have hlayout : Heap.empty.layout (.list [.text (quotes ++ " \"")]) =
      .ok ("[\"" ++ quotes ++ " \"\n '\"']") := ok_of_toOption (by decide +kernel)
  have hinline : inlineList? .empty (.list [.text (quotes ++ " \"")]) "+  " =
      .ok (some ("[\"" ++ quotes ++ " \"\n '\"']")) := by
    have hwhole : ("[\"" ++ quotes ++ " \"\n '\"']").splitOn "\\n" = _ :=
      splitOn_lacks (c := '\\') (by decide)
    rw [inlineList?, hlayout]
    show Except.ok (if _ && !decide (1 < (("[\"" ++ quotes ++ " \"\n '\"']").splitOn "\\n").length)
      then _ else _) = _
    rw [hwhole]
    rfl
  refine ⟨⟨rfl, fun hled => ?_⟩, ?_, fun hled => ?_⟩
  · exact absurd (hled.led [] (by decide)) (by decide)
  · show text (writeListWithin _ (bound .empty (.list [.text (quotes ++ " \"")])) _ _) = _
    rw [bound, writeListWithin, hinline]
    rfl
  · exact absurd (hled.led " '\"']".toList (by decide +kernel)) (by decide)

end Led

end DocDelta.Report
