import DocDelta.Proofs.Patch.Rebuilt

/-! Patches from values of any shape.

`check` says whether a value describes a patch. What it accepts is rebuilt as it is described
(`ofMap_checked`), into a patch that any further calls may go on with; what it refuses is refused
with a flaw, and nothing else can go wrong (`ofMap_settles`). The value has to keep the rules of
its language only: its parts are objects, and a map tells its keys apart. -/
namespace DocDelta.Patch
open Heap
variable {h : Heap}

/-! ### What is accepted -/

/-- A key and a value as a label and the same value. -/
def Reads (h : Heap) (e : Value × Value) (f : Label × Value) : Prop :=
  (h.view e.1).label? = some f.1 ∧ e.2 = f.2

/-- An operator and its paths as a group. -/
def Describes (h : Heap) (e : Value × Value) (g : Group) : Prop :=
  (h.view e.1).label? = some g.label ∧
    ∃ fields, h.mapEntries? e.2 = some fields ∧ List.Forall₂ (Reads h) fields g.fields

theorem label_of_text {o : Object Value} {s : String} (ho : o.text? = some s) :
    ∃ c, o.label? = some ⟨s, c⟩ := by
  cases o with
  | text c t =>
    cases ho
    exact ⟨c, rfl⟩
  | _ => cases ho

theorem text_of_label {o : Object Value} {l : Label} (ho : o.label? = some l) :
    o.text? = some l.text := by
  cases o with
  | text c t =>
    cases ho
    rfl
  | _ => cases ho

/-- Accepted paths are texts, and new ones. -/
theorem checkPaths_sound {operator : Value} {fields : List (Value × Value)}
    {seen seen' : List (String × Value)} (hc : checkPaths h operator seen fields = .ok seen')
    (hs : (seen.map (·.1)).Nodup) :
    ∃ fs, List.Forall₂ (Reads h) fields fs ∧
      seen'.map (·.1) = seen.map (·.1) ++ fs.map (·.1.text) ∧ (seen'.map (·.1)).Nodup := by
  induction fields generalizing seen with
  | nil =>
    cases hc
    exact ⟨[], .nil, by simp, hs⟩
  | cons e fields ih =>
    obtain ⟨path, v⟩ := e
    rw [checkPaths] at hc
    cases ht : (h.view path).text? with
    | none => simp [ht] at hc
    | some s =>
      obtain ⟨c, hl⟩ := label_of_text ht
      cases hf : seen.find? fun e => e.1 == s with
      | some e => simp [ht, hf] at hc
      | none =>
        simp only [ht, hf] at hc
        have hfresh : ∀ e ∈ seen, e.1 ≠ s := by simpa using hf
        have hs' : ((seen ++ [(s, operator)]).map (·.1)).Nodup := by
          rw [List.map_append, List.nodup_append]
          refine ⟨hs, List.nodup_singleton _, ?_⟩
          rintro a ha b hb rfl
          obtain ⟨e, he, rfl⟩ := List.mem_map.mp ha
          exact hfresh e he (List.mem_singleton.mp hb)
        obtain ⟨fs, hr, hnames, hd⟩ := ih hc hs'
        refine ⟨(⟨s, c⟩, v) :: fs, .cons ⟨hl, rfl⟩ hr, ?_, hd⟩
        simpa using hnames

/-- Accepted operations are groups that hold something, with no path twice. -/
theorem checkGroups_sound {groups : List (Value × Value)} {seen : List (String × Value)}
    (hc : checkGroups h seen groups = .ok ()) (hs : (seen.map (·.1)).Nodup) :
    ∃ gs, List.Forall₂ (Describes h) groups gs ∧ (∀ g ∈ gs, g.fields ≠ []) ∧
      (seen.map (·.1) ++ gs.flatMap Group.paths).Nodup := by
  induction groups generalizing seen with
  | nil => exact ⟨[], .nil, nofun, by simpa using hs⟩
  | cons e groups ih =>
    obtain ⟨operator, fields⟩ := e
    rw [checkGroups] at hc
    obtain ⟨_, hneed, hc⟩ := bind_eq_ok.mp hc
    cases ho : operatorOf? h operator with
    | none => simp [need, ho] at hneed
    | some o =>
      obtain ⟨t, ht, hot⟩ := Option.bind_eq_some_iff.mp ho
      obtain ⟨c, hl⟩ := label_of_text ht
      have htext : o.text = t := by
        have := List.find?_some hot
        simpa using this
      cases hm : h.mapEntries? fields with
      | none => simp [hm] at hc
      | some es =>
        cases es with
        | nil => simp [hm] at hc
        | cons d es =>
          simp only [hm] at hc
          obtain ⟨seen', hpaths, hc⟩ := bind_eq_ok.mp hc
          obtain ⟨fs, hr, hnames, hd⟩ := checkPaths_sound hpaths hs
          obtain ⟨gs, hgs, hfilled, hall⟩ := ih hc hd
          have hne : fs ≠ [] := by
            rintro rfl
            cases hr
          refine ⟨⟨o, c, fs⟩ :: gs, .cons ⟨by rw [hl, ← htext]; rfl, d :: es, hm, hr⟩ hgs, ?_, ?_⟩
          · exact List.forall_mem_cons.mpr ⟨hne, hfilled⟩
          · rw [hnames] at hall
            rw [List.flatMap_cons, ← List.append_assoc]
            exact hall

theorem groupOf?_of_describes {e : Value × Value} {g : Group} (hg : Describes h e g) :
    groupOf? h e.1 ((h.mapEntries? e.2).getD []) = some g := by
  obtain ⟨hl, fields, hm, hr⟩ := hg
  have hop : Operator.ofText? g.label.text = some g.operator := operatorOf?_label (h := h) g
  have hfields : fields.mapM (fun e => ((h.view e.1).label?).map fun l => (l, e.2)) =
      some g.fields := by
    clear hm hop
    generalize g.fields = fs at hr ⊢
    induction hr with
    | nil => rfl
    | @cons d f _ _ hd _ ih =>
      obtain ⟨hlabel, hvalue⟩ := hd
      rw [List.mapM_cons, ih, hlabel, hvalue]
      rfl
  rw [groupOf?, hl, hm]
  show (Operator.ofText? g.label.text).bind (fun op => (fields.mapM
    (fun e => ((h.view e.1).label?).map fun l => (l, e.2))).bind
      fun fields => some (Group.mk op g.label.cls fields)) = _
  rw [hop, hfields]
  rfl

/-- A value that is a patch, with the entries that say so. -/
structure Checked (h : Heap) (v : Value) (es groups ms : List (Value × Value)) : Prop where
  entries : h.mapEntries? v = some es
  operations : ∃ operations, h.entry? "operations" es = some operations ∧
    h.mapEntries? operations = some groups
  metadata : ∃ metadata, h.entry? "metadata" es = some metadata ∧ h.mapEntries? metadata = some ms
  grouped : checkGroups h [] groups = .ok ()
  filters : checkFilters h (entryOr h "arrayFilters" es .nil) = true
  total : (h.whole? (entryOr h "totalChanges" ms (.int 0))).isSome = true

theorem need_eq_ok {condition : Bool} {flaw : PatchFlaw} (hn : need condition flaw = .ok ()) :
    condition = true := by
  cases condition with
  | true => rfl
  | false => cases hn

theorem checked_of_check {v : Value} (hc : check h v = .ok ()) :
    ∃ es groups ms, Checked h v es groups ms := by
  unfold check at hc
  cases hes : h.mapEntries? v with
  | none => simp [hes] at hc
  | some es =>
    cases ho : h.entry? "operations" es with
    | none => simp [hes, ho] at hc
    | some operations =>
      cases hm : h.entry? "metadata" es with
      | none => simp [hes, ho, hm] at hc
      | some metadata =>
        cases hg : h.mapEntries? operations with
        | none => simp [hes, ho, hm, hg] at hc
        | some groups =>
          simp only [hes, ho, hm, hg] at hc
          obtain ⟨_, hgroups, hc⟩ := bind_eq_ok.mp hc
          obtain ⟨_, hfilters, hc⟩ := bind_eq_ok.mp hc
          cases hms : h.mapEntries? metadata with
          | none => simp [hms] at hc
          | some ms =>
            simp only [hms] at hc
            obtain ⟨_, htotal, _⟩ := bind_eq_ok.mp hc
            exact ⟨es, groups, ms, hes, ⟨_, ho, hg⟩, ⟨_, hm, hms⟩, hgroups, need_eq_ok hfilters,
              need_eq_ok htotal⟩

/-! ### What is refused -/

/-- An answer that a value has a flaw, if it is none. -/
def Refuses {α : Type} (x : Except Fault α) : Prop := ∀ f, x = .error f → ∃ flaw, f = .badPatch flaw

theorem refuses_ok {α : Type} (a : α) : Refuses (.ok a) := nofun

theorem refuses_flaw {α : Type} (flaw : PatchFlaw) :
    Refuses (.error (.badPatch flaw) : Except Fault α) :=
  fun f hf => ⟨flaw, by cases hf; rfl⟩

theorem refuses_bind {α β : Type} {x : Except Fault α} {f : α → Except Fault β} (hx : Refuses x)
    (hf : ∀ a, Refuses (f a)) : Refuses (x >>= f) := by
  cases x with
  | error e => exact fun e' he => hx e' (by cases he; rfl)
  | ok a => exact hf a

theorem refuses_need (condition : Bool) (flaw : PatchFlaw) : Refuses (need condition flaw) := by
  cases condition with
  | true => exact refuses_ok ()
  | false => exact refuses_flaw flaw

theorem refuses_checkPaths (operator : Value) (fields : List (Value × Value))
    (seen : List (String × Value)) : Refuses (checkPaths h operator seen fields) := by
  induction fields generalizing seen with
  | nil => exact refuses_ok _
  | cons e fields ih =>
    rw [checkPaths]
    split
    · exact refuses_flaw _
    · split
      · exact refuses_flaw _
      · exact ih _

theorem refuses_checkGroups (groups : List (Value × Value)) (seen : List (String × Value)) :
    Refuses (checkGroups h seen groups) := by
  induction groups generalizing seen with
  | nil => exact refuses_ok _
  | cons e groups ih =>
    rw [checkGroups]
    refine refuses_bind (refuses_need _ _) fun _ => ?_
    split
    · exact refuses_flaw _
    · exact refuses_flaw _
    · exact refuses_bind (refuses_checkPaths _ _ _) fun _ => ih _

theorem refuses_check (v : Value) : Refuses (check h v) := by
  unfold check
  split
  · exact refuses_flaw _
  split
  · exact refuses_flaw _
  · exact refuses_flaw _
  split
  · exact refuses_flaw _
  refine refuses_bind (refuses_checkGroups _ _) fun _ => ?_
  refine refuses_bind (refuses_need _ _) fun _ => ?_
  split
  · exact refuses_flaw _
  refine refuses_bind (refuses_need _ _) fun _ => ?_
  refine refuses_bind (refuses_need _ _) fun _ => ?_
  exact refuses_need _ _

/-! ### What is rebuilt -/

section Rebuilt
variable {v : Value} {es groups ms : List (Value × Value)}

/-- A list that is not empty counts as true. -/
theorem items_of_checkFilters {w : Value} (hw : checkFilters h w = true) {f : Value}
    (hf : f ∈ (h.listItems? w).getD []) : (h.mapEntries? f).isSome = true := by
  unfold listItems? at hf
  split at hf
  · rename_i c xs hview
    have hne : xs ≠ [] := by
      rintro rfl
      cases hf
    have htruthy : h.truthy w = true := by
      unfold truthy
      rw [hview]
      simpa [Object.items?] using hne
    unfold checkFilters listItems? at hw
    rw [htruthy, hview] at hw
    exact List.all_eq_true.mp hw f hf
  · cases hf

theorem markOf_value (w : Value) : markOf h (markOf h w).value = markOf h w := by
  cases hl : (h.view w).label? with
  | none =>
    have hm : markOf h w = .other w := by rw [markOf, hl]
    rw [hm]
    exact hm
  | some l =>
    have hm : markOf h w = .label l := by rw [markOf, hl]
    rw [hm]
    rfl

theorem totalOf_cases (w : Value) : (∃ n, totalOf h w = .counted n) ∨
    totalOf h w = .given w ((h.whole? w).getD 0) := by
  unfold totalOf
  split
  · exact .inl ⟨_, rfl⟩
  · exact .inr rfl

theorem totalOf_value (w : Value) : totalOf h (totalOf h w).value = totalOf h w := by
  rcases totalOf_cases (h := h) w with ⟨n, hn⟩ | hw
  · rw [hn]
    rfl
  · rw [hw]
    exact hw

theorem whole?_totalOf {w : Value} (hw : (h.whole? w).isSome = true) :
    (h.whole? (totalOf h w).value).isSome = true := by
  rcases totalOf_cases (h := h) w with ⟨n, hn⟩ | hg
  · rw [hn]
    rfl
  · rw [hg]
    exact hw

theorem metadataOf_value (fields : List Value) (types : List (Value × Value)) (total : Value) :
    metadataOf h ((metadataOf h fields types total).fieldsChanged.map (·.value))
      ((metadataOf h fields types total).operationTypes.map fun e => (e.1.value, e.2.value))
      (metadataOf h fields types total).totalChanges.value = metadataOf h fields types total := by
  simp only [metadataOf, List.map_map, Function.comp_def, markOf_value, totalOf_value]

/-- The keys of a map are told apart. -/
def Distinct (h : Heap) : Object Value → Prop
  | .map _ es => es.Pairwise fun d e => h.matching d.1 e.1 = .ok false
  | _ => True

instance (x : Except Fault Bool) (b : Bool) : Decidable (x = .ok b) :=
  match x with
  | .ok c => decidable_of_iff (c = b) ⟨congrArg _, Except.ok.inj⟩
  | .error _ => .isFalse nofun

instance (o : Object Value) : Decidable (Distinct h o) :=
  match o with
  | .map _ es => inferInstanceAs (Decidable (es.Pairwise fun d e => h.matching d.1 e.1 = .ok false))
  | .nil | .missing | .bool .. | .int .. | .float .. | .complex .. | .decimal .. | .text ..
  | .bytes .. | .buffer .. | .date .. | .time .. | .datetime .. | .duration .. | .member ..
  | .type .. | .list .. | .tuple .. | .set .. | .frozenset .. | .mapView .. | .record .. =>
    isTrue trivial

theorem distinct_entries {w : Value} {ds : List (Value × Value)} (hw : Distinct h (h.view w))
    (hd : h.mapEntries? w = some ds) : ds.Pairwise fun d e => h.matching d.1 e.1 = .ok false := by
  unfold mapEntries? at hd
  split at hd
  · rename_i hview
    cases hd
    rwa [hview] at hw
  · cases hd

/-- Keys that are told apart name different operators. -/
theorem operators_nodup {gs : List Group} (hg : List.Forall₂ (Describes h) groups gs)
    (hd : groups.Pairwise fun d e => h.matching d.1 e.1 = .ok false) :
    (gs.map (·.operator)).Nodup := by
  induction hg with
  | nil => exact .nil
  | @cons e g groups gs he hg ih =>
    obtain ⟨hfirst, hd⟩ := List.pairwise_cons.mp hd
    rw [List.map_cons, List.nodup_cons]
    refine ⟨fun hm => ?_, ih hd⟩
    obtain ⟨k, hk, hop⟩ := List.mem_map.mp hm
    obtain ⟨d, hde, hdk⟩ := exists_right hg.flip k hk
    have hsame : (h.view d.1).text? = some g.operator.text := by
      rw [text_of_label hdk.1]
      exact congrArg (some <| ·.text) hop
    have hmatch := matching_text (v := e.1) hsame
    rw [hfirst d hde, text_of_label he.1] at hmatch
    simp [Group.label] at hmatch

/-- The groups that are described are those that are rebuilt. -/
theorem filterMap_groupOf? {gs : List Group} (hg : List.Forall₂ (Describes h) groups gs) :
    groups.filterMap (fun e => groupOf? h e.1 ((h.mapEntries? e.2).getD [])) = gs := by
  induction hg with
  | nil => rfl
  | cons he _ ih => rw [List.filterMap_cons, groupOf?_of_describes he, ih]

/-- What is accepted is rebuilt as it is described. -/
theorem ofMap_checked (hc : check h v = .ok ()) (hv : Checked h v es groups ms)
    (hd : groups.Pairwise fun d e => h.matching d.1 e.1 = .ok false) :
    ∃ q, ofMap h v = .ok q ∧ Loadable h q ∧ List.Forall₂ (Describes h) groups q.groups ∧
      q.filters = ((h.entry? "arrayFilters" es).bind h.listItems?).getD [] ∧
      q.metadata = metadataOf h (((h.entry? "fieldsChanged" ms).bind h.listItems?).getD [])
        (((h.entry? "operationTypes" ms).bind h.mapEntries?).getD [])
        (entryOr h "totalChanges" ms (.int 0)) := by
  obtain ⟨operations, ho, hg⟩ := hv.operations
  obtain ⟨metadata, hm, hms⟩ := hv.metadata
  obtain ⟨gs, hgs, hfilled, hpaths⟩ := checkGroups_sound hv.grouped .nil
  have hrun : ofMap h v = .ok ⟨gs, ((h.entry? "arrayFilters" es).bind h.listItems?).getD [],
      metadataOf h (((h.entry? "fieldsChanged" ms).bind h.listItems?).getD [])
        (((h.entry? "operationTypes" ms).bind h.mapEntries?).getD [])
        (entryOr h "totalChanges" ms (.int 0))⟩ := by
    unfold ofMap
    rw [hc]
    simp only [bind, Except.bind, pure, Except.pure]
    simp only [hv.entries, Option.getD_some, ho, Option.bind_some, hg, filterMap_groupOf? hgs, hm,
      hms]
  refine ⟨_, hrun, ⟨⟨operators_nodup hgs hd, hfilled, ?_⟩, ?_, ?_, whole?_totalOf hv.total,
    metadataOf_value _ _ _⟩, hgs, rfl, rfl⟩
  · intro g hm
    exact (List.nodup_flatMap.mp hpaths).1 g hm
  · rw [paths_eq]
    exact hpaths
  · intro f hf
    cases he : h.entry? "arrayFilters" es with
    | none =>
      rw [he] at hf
      cases hf
    | some w =>
      have hw := hv.filters
      rw [entryOr, he] at hw
      rw [he] at hf
      exact items_of_checkFilters hw hf

end Rebuilt

/-! ### Equal to itself -/

section Itself
variable {v w : Value} {es groups ms : List (Value × Value)}

theorem within_mapEntries (hv : h.mapEntries? v = some es) {e : Value × Value} (he : e ∈ es) :
    h.Within v e.1 ∧ h.Within v e.2 := by
  unfold mapEntries? at hv
  split at hv
  · rename_i c ds hview
    cases hv
    exact (entry_parts hview he).imp .single .single
  · cases hv

theorem within_entry (hv : h.mapEntries? v = some es) {name : String}
    (hw : h.entry? name es = some w) : h.Within v w := by
  obtain ⟨e, he, rfl⟩ := Option.map_eq_some_iff.mp hw
  exact (within_mapEntries hv (List.mem_of_find?_eq_some he)).2

theorem within_listItems {xs : List Value} (hv : h.listItems? v = some xs) (hw : w ∈ xs) :
    h.Within v w := by
  unfold listItems? at hv
  split at hv
  · rename_i c ys hview
    cases hv
    exact .single (item_part hview hw)
  · cases hv

/-- A text in place of a text matches what that does. -/
theorem matching_marks (v w : Value) :
    h.matching (markOf h v).value (markOf h w).value = h.matching v w := by
  have htext : ∀ u, (h.view (markOf h u).value).text? = (h.view u).text? := fun u => by
    cases hl : (h.view u).label? with
    | none => rw [markOf, hl]; rfl
    | some l => rw [markOf, hl, text_of_label hl]; rfl
  cases hv : (h.view v).text? with
  | some s => rw [text_matching ((htext v).trans hv), text_matching hv, htext]
  | none =>
    cases hw : (h.view w).text? with
    | some s => rw [matching_text ((htext w).trans hw), matching_text hw, htext]
    | none =>
      have hother : ∀ u, (h.view u).text? = none → markOf h u = .other u := fun u hu => by
        cases hl : (h.view u).label? with
        | none => rw [markOf, hl]
        | some l => cases hu.symm.trans (text_of_label hl)
      rw [hother v hv, hother w hw]
      rfl

variable (hself : ∀ w, h.Within v w → h.matching w w = .ok true)
include hself

/-- The metadata is equal to itself, whatever marks were loaded. -/
theorem matching_loaded_metadata (hdist : h.Everywhere (Distinct h) v) {metadata : Value}
    (hv : h.mapEntries? v = some es) (hm : h.entry? "metadata" es = some metadata)
    (hms : h.mapEntries? metadata = some ms) {m : Metadata}
    (hmeta : m = metadataOf h (((h.entry? "fieldsChanged" ms).bind h.listItems?).getD [])
      (((h.entry? "operationTypes" ms).bind h.mapEntries?).getD [])
      (entryOr h "totalChanges" ms (.int 0))) : h.matching m.toMap m.toMap = .ok true := by
  have hwithin : ∀ {name u}, h.entry? name ms = some u → h.Within v u := fun hu =>
    (within_entry hv hm).trans (within_entry hms hu)
  subst hmeta
  refine matching_metadata_of ?_ ?_ ?_
  · refine matching_list (List.forall₂_same.mpr fun u hu => ?_)
    simp only [metadataOf, List.map_map, List.mem_map, Function.comp_apply] at hu
    obtain ⟨x, hx, rfl⟩ := hu
    rw [matching_marks]
    cases hf : h.entry? "fieldsChanged" ms with
    | none => simp [hf] at hx
    | some fields =>
      cases hl : h.listItems? fields with
      | none => simp [hf, hl] at hx
      | some xs =>
        exact hself x ((hwithin hf).trans (within_listItems hl (by simpa [hf, hl] using hx)))
  · simp only [metadataOf, List.map_map, Function.comp_def]
    cases ht : h.entry? "operationTypes" ms with
    | none => exact matching_self_map .nil (List.forall_mem_nil _)
    | some types =>
      cases hl : h.mapEntries? types with
      | none =>
        rw [Option.bind_some, hl]
        exact matching_self_map .nil (List.forall_mem_nil _)
      | some ts =>
        rw [Option.bind_some, hl, Option.getD_some]
        have hapart := distinct_entries (hdist types (hwithin ht)) hl
        refine matching_self_map (List.pairwise_map.mpr (hapart.imp fun hd => ?_)) fun e he => ?_
        · rwa [matching_marks]
        · obtain ⟨t, htm, rfl⟩ := List.mem_map.mp he
          have hpart := within_mapEntries hl htm
          rw [matching_marks, matching_marks]
          exact ⟨hself _ ((hwithin ht).trans hpart.1), hself _ ((hwithin ht).trans hpart.2)⟩
  · show h.matching (totalOf h _).value (totalOf h _).value = _
    rcases totalOf_cases (h := h) (entryOr h "totalChanges" ms (.int 0)) with ⟨n, hn⟩ | hg
    · rw [hn]
      exact matching_int n
    · rw [hg]
      show h.matching (entryOr h "totalChanges" ms (.int 0)) _ = _
      unfold entryOr
      cases ht : h.entry? "totalChanges" ms with
      | none => exact matching_int 0
      | some t => exact hself t (hwithin ht)

end Itself

/-! ### What may follow -/

/-- No path under two operators, said of what is held. -/
theorem paths_nodup_iff {p : Patch} (ht : Tidy p.groups) : p.paths.Nodup ↔
    ∀ o o' path, (held? p o path).isSome = true → (held? p o' path).isSome = true → o = o' := by
  constructor
  · intro hd o o' path ho ho'
    obtain ⟨v, hv⟩ := Option.isSome_iff_exists.mp ho
    obtain ⟨v', hv'⟩ := Option.isSome_iff_exists.mp ho'
    have hsame := List.inj_on_of_nodup_map hd ((mem_entries_iff ht).mpr hv)
      ((mem_entries_iff ht).mpr hv') rfl
    exact congrArg (·.1) hsame
  · intro hone
    refine List.Nodup.map_on ?_ (entries_nodup ht)
    rintro ⟨o, path, v⟩ he ⟨o', path', v'⟩ he' (rfl : path = path')
    have hv := (mem_entries_iff ht).mp he
    have hv' := (mem_entries_iff ht).mp he'
    have ho : o = o' := hone o o' path (by rw [hv]; rfl) (by rw [hv']; rfl)
    subst ho
    rw [Option.some.inj (hv.symm.trans hv')]

/-- A record keeps every path under one operator. -/
theorem paths_nodup_enter {p : Patch} (ht : Tidy p.groups) (hd : p.paths.Nodup) (r : Record) :
    (enter p r).paths.Nodup := by
  refine (paths_nodup_iff (tidy_enter ht r)).mpr fun o o' path ho ho' => ?_
  rw [held?_enter ht] at ho ho'
  by_cases hp : r.path.text = path
  · rw [if_pos hp] at ho ho'
    have hof : ∀ o, (if o = r.operator then some r.value else none).isSome = true →
        o = r.operator := fun o ho => by
      by_contra hne
      rw [if_neg hne] at ho
      cases ho
    rw [hof o ho, hof o' ho']
  · rw [if_neg hp] at ho ho'
    exact (paths_nodup_iff ht).mp hd o o' path ho ho'

/-- A call enters its record, if it makes one, and leaves the operations alone otherwise. -/
theorem groups_edit (c : Call) (p : Patch) :
    ((c.edit h).run p).2.groups = (((c.record? h).map (enter p)).getD p).groups := by
  cases c with
  | add operator path v =>
    cases ho : operatorOf? h operator with
    | none => simp only [Call.edit, addGiven, Call.record?, ho]; rfl
    | some o => simp only [Call.edit, addGiven, Call.record?, ho]; rfl
  | push path vs => exact congrArg Patch.groups (push_eq p path vs)
  | _ => rfl

/-- Any calls keep one group for an operator that holds something, and one operator for a path. -/
theorem tidy_run (calls : List Call) {p : Patch} (ht : Tidy p.groups) (hd : p.paths.Nodup) :
    Tidy (run h p calls).groups ∧ (run h p calls).paths.Nodup := by
  induction calls generalizing p with
  | nil => exact ⟨ht, hd⟩
  | cons c cs ih =>
    have hgroups := groups_edit (h := h) c p
    refine ih ?_ ?_
    · rw [hgroups]
      cases c.record? h with
      | none => exact ht
      | some r => exact tidy_enter ht r
    · rw [paths_eq, hgroups, ← paths_eq]
      cases c.record? h with
      | none => exact hd
      | some r => exact paths_nodup_enter ht hd r

/-! ### Loading -/

/-- A value lists an operation among those it describes. -/
def Lists (h : Heap) (v : Value) (operator : Operator) (path : String) (w : Value) : Prop :=
  ∃ es operations groups, h.mapEntries? v = some es ∧ h.entry? "operations" es = some operations ∧
    h.mapEntries? operations = some groups ∧ ∃ e ∈ groups, operatorOf? h e.1 = some operator ∧
      ∃ fields, h.mapEntries? e.2 = some fields ∧
        ∃ d ∈ fields, (h.view d.1).text? = some path ∧ d.2 = w

theorem mem_entries_described {v : Value} {es groups ms : List (Value × Value)} {p : Patch}
    (hv : Checked h v es groups ms) (hg : List.Forall₂ (Describes h) groups p.groups)
    (operator : Operator) (path : String) (w : Value) :
    (operator, path, w) ∈ p.entries ↔ Lists h v operator path w := by
  obtain ⟨operations, ho, hgroups⟩ := hv.operations
  have hnames : ∀ {e : Value × Value} {g : Group}, Describes h e g →
      operatorOf? h e.1 = some g.operator := fun {e g} hd => by
    rw [operatorOf?, text_of_label hd.1]
    exact operatorOf?_label (h := h) g
  constructor
  · intro hm
    obtain ⟨g, hgm, hm⟩ := List.mem_flatMap.mp hm
    obtain ⟨f, hf, he⟩ := List.mem_map.mp hm
    cases he
    obtain ⟨e, he, hd⟩ := exists_right hg.flip g hgm
    obtain ⟨hl, fields, hfields, hr⟩ := hd
    obtain ⟨d, hdm, hlabel, hvalue⟩ := exists_right hr.flip f hf
    exact ⟨es, operations, groups, hv.entries, ho, hgroups, e, he, hnames ⟨hl, fields, hfields, hr⟩,
      fields, hfields, d, hdm, text_of_label hlabel, hvalue⟩
  · rintro ⟨es', operations', groups', hes, hop, hgr, e, he, hname, fields, hfields, d, hdm, hpath,
      rfl⟩
    cases hv.entries.symm.trans hes
    cases ho.symm.trans hop
    cases hgroups.symm.trans hgr
    obtain ⟨g, hgm, hd⟩ := exists_right hg e he
    cases hname.symm.trans (hnames hd)
    obtain ⟨_, fields', hfields', hr⟩ := hd
    cases hfields.symm.trans hfields'
    obtain ⟨f, hf, hlabel, hvalue⟩ := exists_right hr d hdm
    refine List.mem_flatMap.mpr ⟨g, hgm, List.mem_map.mpr ⟨f, hf, ?_⟩⟩
    have htext : f.1.text = path := Option.some.inj ((text_of_label hlabel).symm.trans hpath)
    rw [htext, hvalue]

/-- Objects match themselves, and so does all that they hold. -/
theorem matching_within {v w : Value} (hp : v = .nil ∨ ∃ a, v = .ref a) (hw : h.Within v w) :
    h.matching w w = .ok true := by
  rcases hp with rfl | ⟨a, rfl⟩
  · rw [within_nil hw]
    rfl
  · obtain ⟨b, rfl⟩ := within_ref hw
    exact matching_ref b

/-- **Loading is safe.** Any object is either refused, with the flaw that the check finds, or loaded
as the patch that lists just the operations it lists. That patch holds no path twice and no empty
group, passes the check, loads as a patch equal to it, and stays so whatever calls follow. -/
theorem ofMap_settles (h : Heap) (v : Value) (hp : v = .nil ∨ ∃ a, v = .ref a)
    (hd : h.Everywhere (Distinct h) v) :
    (∃ flaw, check h v = .error (.badPatch flaw) ∧ ofMap h v = .error (.badPatch flaw)) ∨
    ∃ q, check h v = .ok () ∧ ofMap h v = .ok q ∧
      (∀ operator path w, (operator, path, w) ∈ q.entries ↔ Lists h v operator path w) ∧
      Tidy q.groups ∧ q.paths.Nodup ∧ check h q.toMap = .ok () ∧
      (∃ q', ofMap h q.toMap = .ok q' ∧ Patch.same h q' q = .ok true) ∧
      ∀ calls, Tidy (run h q calls).groups ∧ (run h q calls).paths.Nodup := by
  cases hc : check h v with
  | error f =>
    obtain ⟨flaw, rfl⟩ := refuses_check v f hc
    refine .inl ⟨flaw, rfl, ?_⟩
    unfold ofMap
    rw [hc]
    rfl
  | ok u =>
    obtain ⟨es, groups, ms, hv⟩ := checked_of_check hc
    obtain ⟨operations, ho, hgroups⟩ := hv.operations
    obtain ⟨metadata, hm, hms⟩ := hv.metadata
    have hself : ∀ w, h.Within v w → h.matching w w = .ok true := fun w => matching_within hp
    have hoperations := within_entry hv.entries ho
    obtain ⟨q, hq, hload, hdescribed, hfilters, hmeta⟩ :=
      ofMap_checked hc hv (distinct_entries (hd _ hoperations) hgroups)
    have hlists := mem_entries_described hv hdescribed
    have hvalues : ∀ e ∈ q.entries, h.matching e.2.2 e.2.2 = .ok true := by
      rintro ⟨operator, path, w⟩ he
      obtain ⟨es', operations', groups', hes, hop, hgr, e, hem, -, fields, hfields, d, hdm, -, rfl⟩ :=
        (hlists operator path w).mp he
      exact hself _ ((within_entry hes hop).trans ((within_mapEntries hgr hem).2.trans
        (within_mapEntries hfields hdm).2))
    have hitems : ∀ f ∈ q.filters, h.matching f f = .ok true := by
      intro f hf
      rw [hfilters] at hf
      cases he : h.entry? "arrayFilters" es with
      | none => simp [he] at hf
      | some w =>
        cases hl : h.listItems? w with
        | none => simp [he, hl] at hf
        | some xs =>
          exact hself f ((within_entry hv.entries he).trans
            (within_listItems hl (by simpa [he, hl] using hf)))
    have hsame := same_of_matching hload.tidy hvalues hitems
      (matching_loaded_metadata hself hd hv.entries hm hms hmeta)
    exact .inr ⟨q, rfl, hq, hlists, hload.tidy, hload.paths, check_loadable hload,
      ⟨q, ofMap_loadable hload, hsame⟩, fun calls => tidy_run calls hload.tidy hload.paths⟩

/-- A patch that sets a NaN and lists a number as changed, and one with an unknown operator. -/
def archive : Heap :=
  ⟨#[.text none "operations", .text none "metadata", .text none "fieldsChanged",
    .text none "operationTypes", .text none "$set", .text none "$rename", .text none "price",
    .float none .nan, .int none 7, .map none [(7, 8)], .map none [(5, 10)], .map none [(6, 10)],
    .list none [9, 7], .map none [(9, 5), (8, 9)], .map none [(3, 13), (4, 14)],
    .map none [(1, 11), (2, 15)], .map none [(1, 12), (2, 15)]]⟩

theorem ofMap_settles_archive :
    archive.Everywhere (Distinct archive) (.ref 16) ∧
    (∃ flaw, check archive (.ref 17) = .error (.badPatch flaw) ∧
      ofMap archive (.ref 17) = .error (.badPatch flaw)) ∧
    ∃ q, ofMap archive (.ref 16) = .ok q ∧ (.set, "price", .ref 8) ∈ q.entries ∧
      (∃ q', ofMap archive q.toMap = .ok q' ∧ Patch.same archive q' q = .ok true) ∧
      Tidy (run archive q [.push (.plain "price") [.nil]]).groups := by
  have hdistinct : ∀ a, archive.Everywhere (Distinct archive) (.ref a) :=
    everywhere_ref trivial (by decide +kernel)
  have hfacts : (check archive (.ref 16)).toOption.isSome = true ∧
      (check archive (.ref 17)).toOption.isSome = false := by decide +kernel
  refine ⟨hdistinct 16, ?_, ?_⟩
  · rcases ofMap_settles archive (.ref 17) (.inr ⟨17, rfl⟩) (hdistinct 17) with hflaw | ⟨q, hc, _⟩
    · exact hflaw
    · rw [hc] at hfacts
      cases hfacts.2
  · rcases ofMap_settles archive (.ref 16) (.inr ⟨16, rfl⟩) (hdistinct 16) with ⟨flaw, hc, _⟩ |
      ⟨q, _, hq, hlists, _, _, _, hagain, hruns⟩
    · rw [hc] at hfacts
      cases hfacts.1
    · refine ⟨q, hq, (hlists .set "price" (.ref 8)).mpr ?_, hagain, (hruns _).1⟩
      exact ⟨_, _, _, rfl, rfl, rfl, _, List.mem_singleton_self _, rfl, _, rfl, _,
        List.mem_singleton_self _, rfl, rfl⟩

end DocDelta.Patch
