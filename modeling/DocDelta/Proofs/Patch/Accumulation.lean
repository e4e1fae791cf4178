import Mathlib.Data.List.Basic
import DocDelta.Patch.Loading

/-! What a run of calls leaves in a patch.

A patch keeps its operations by operator and its metadata beside them. `run_accumulates` says
what both hold after any run of calls on an empty patch, from the list of accepted records
alone: every path lies under the operator of its last record with that record's value, no
group is empty, the operator types and the changed fields follow the same list, and the total
is its length. A refused call changes nothing. -/
namespace DocDelta.Patch

/-! ### Calls and records -/

/-- One operation on a path. -/
structure Record where
  operator : Operator
  path : Label
  value : Value

/-- A call that changes a patch. -/
inductive Call
  | add (operator : Value) (path : Label) (v : Value)
  | set (path : Label) (v : Value)
  | unset (path : Label)
  | push (path : Label) (vs : List Value)
  | filter (v : Value)

/-- What a call does. -/
def Call.edit (h : Heap) : Call → Edit Unit
  | .add operator path v => addGiven h operator path v
  | .set path v => modify (·.set path v)
  | .unset path => modify (·.unset path)
  | .push path vs => modify (·.push path vs)
  | .filter v => modify (·.addFilter v)

/-- The record of a push: nothing for no items, one item as itself, several as a list. -/
def pushed? (path : Label) : List Value → Option Record
  | [] => none
  | [v] => some ⟨.push, path, v⟩
  | vs => some ⟨.push, path, .table [(Operator.each, .list vs)]⟩

/-- The record that a call makes, if it is accepted and makes one. -/
def Call.record? (h : Heap) : Call → Option Record
  | .add operator path v => (operatorOf? h operator).map fun o => ⟨o, path, v⟩
  | .set path v => some ⟨.set, path, v⟩
  | .unset path => some ⟨.unset, path, .text ""⟩
  | .push path vs => pushed? path vs
  | .filter _ => none

/-- The patch after a run of calls. A call that fails does not end the run. -/
def run (h : Heap) (p : Patch) : List Call → Patch
  | [] => p
  | c :: cs => run h ((c.edit h).run p).2 cs

/-- Records a record. -/
def enter (p : Patch) (r : Record) : Patch := p.addOperation r.operator r.path r.value

/-- The records of a run of calls. -/
def accepted (h : Heap) (calls : List Call) : List Record := calls.filterMap (Call.record? h)

/-- The last record of a path. -/
def lastOn (path : String) (rs : List Record) : Option Record :=
  rs.reverse.find? fun r => r.path.text == path

/-- The paths of records, each once, in the order of their first records. -/
def distinctPaths : List Record → List Label
  | [] => []
  | r :: rs => r.path :: (distinctPaths rs).filter fun l => l.text != r.path.text

/-- The value that a patch holds for a path under an operator. -/
def held? (p : Patch) (operator : Operator) (path : String) : Option Value :=
  (p.groups.find? fun g => g.operator = operator).bind (·.find? path)

/-- The operator that the metadata names for a path. -/
def typeOf? (p : Patch) (path : String) : Option Mark :=
  (p.metadata.operationTypes.find? fun e => e.1.isText path).map (·.2)

/-! ### Looking up what is held -/

/-- The value under an operator at a path, in the first group of the operator. -/
def heldIn (groups : List Group) (operator : Operator) (path : String) : Option Value :=
  (groups.find? fun g => g.operator = operator).bind (·.find? path)

theorem heldIn_cons (g : Group) (gs : List Group) (operator : Operator) (path : String) :
    heldIn (g :: gs) operator path =
      if g.operator = operator then g.find? path else heldIn gs operator path := by
  by_cases h : g.operator = operator <;> simp [heldIn, h]

theorem heldIn_of_notMem {gs : List Group} {operator : Operator}
    (h : operator ∉ gs.map (·.operator)) (path : String) : heldIn gs operator path = none := by
  have hf : gs.find? (fun g => g.operator = operator) = none := by
    rw [List.find?_eq_none]
    intro g hg
    simpa using fun he => h (List.mem_map.mpr ⟨g, hg, he⟩)
  rw [heldIn, hf]
  rfl

theorem find?_put (g : Group) (path : Label) (v : Value) (s : String) :
    (g.put path v).find? s = if path.text = s then some v else g.find? s := by
  unfold Group.put Group.find?
  by_cases hh : g.has path.text = true
  · have hkey : ((fun f : Label × Value => f.1.text == s) ∘
        fun f => if f.1.text == path.text then (f.1, v) else f) = fun f => f.1.text == s := by
      funext f
      simp only [Function.comp_apply]
      split <;> rfl
    rw [if_pos hh]
    dsimp only
    rw [List.find?_map, hkey]
    cases hf : g.fields.find? fun f => f.1.text == s with
    | none =>
      have hne : path.text ≠ s := by
        rintro rfl
        obtain ⟨f, hmem, htext⟩ := List.any_eq_true.mp hh
        exact List.find?_eq_none.mp hf f hmem htext
      simp [hne]
    | some f =>
      have htext : f.1.text = s := by simpa using List.find?_some hf
      by_cases hs : path.text = s
      · simp [htext, hs]
      · have : s ≠ path.text := fun h => hs h.symm
        simp [htext, hs, this]
  · rw [if_neg hh]
    by_cases hs : path.text = s
    · subst hs
      have hnone : g.fields.find? (fun f => f.1.text == path.text) = none := by
        simpa [Group.has] using hh
      simp [List.find?_append, hnone]
    · simp [List.find?_append, hs]

theorem find?_erase (g : Group) (path s : String) :
    (g.erase path).find? s = if path = s then none else g.find? s := by
  simp only [Group.erase, Group.find?, List.find?_filter]
  by_cases hs : path = s
  · subst hs
    rw [if_pos rfl, Option.map_eq_none_iff, List.find?_eq_none]
    intro f _
    simp
  · rw [if_neg hs]
    congr 2
    funext f
    by_cases hf : f.1.text = s
    · have : s ≠ path := fun h => hs h.symm
      simp [hf, this]
    · simp [hf]

theorem find?_eq_none_of_has {g : Group} {path : String} (h : g.has path = false) :
    g.find? path = none := by
  have hnone : g.fields.find? (fun f => f.1.text == path) = none := by
    simpa [Group.has] using h
  rw [Group.find?, hnone]
  rfl

/-! ### Releasing a path -/

/-- What is left of a group when a path is released to an operator. -/
def left? (operator : Operator) (path : String) (g : Group) : Option Group :=
  if g.operator = operator || !g.has path then some g
  else if (g.erase path).fields.isEmpty then none
  else some (g.erase path)

theorem release_eq (operator : Operator) (path : String) (gs : List Group) :
    release operator path gs = gs.filterMap (left? operator path) := rfl

section Left
variable {operator : Operator} {path : String} {g k : Group}

/-- A group that is left of another, and what it holds. -/
structure Remains (operator : Operator) (path : String) (g k : Group) : Prop where
  keeps : k.operator = g.operator
  fields : k.fields.Sublist g.fields
  filled : g.fields ≠ [] → k.fields ≠ []
  finds : ∀ s, k.find? s = if g.operator ≠ operator ∧ path = s then none else g.find? s

theorem remains_of_left? (hk : left? operator path g = some k) : Remains operator path g k := by
  unfold left? at hk
  split at hk
  · rename_i hkeep
    cases hk
    refine ⟨rfl, .refl _, id, fun s => ?_⟩
    split
    · rename_i hs
      obtain ⟨hop, rfl⟩ := hs
      have hlacks : g.has path = false := by simpa [hop] using hkeep
      exact find?_eq_none_of_has hlacks
    · rfl
  · rename_i hkeep
    have hop : g.operator ≠ operator := fun he => hkeep (by simp [he])
    split at hk
    · cases hk
    · rename_i hfilled
      cases hk
      refine ⟨rfl, List.filter_sublist, fun _ he => hfilled (List.isEmpty_iff.mpr he), fun s => ?_⟩
      rw [find?_erase]
      simp [hop]

/-- A group of which nothing is left held no other path. -/
theorem lone_of_left? (hk : left? operator path g = none) :
    g.operator ≠ operator ∧ ∀ s, path ≠ s → g.find? s = none := by
  unfold left? at hk
  split at hk
  · cases hk
  · rename_i hkeep
    split at hk
    · rename_i hempty
      refine ⟨fun he => hkeep (by simp [he]), fun s hs => ?_⟩
      have hnone : (g.erase path).find? s = none := by
        rw [Group.find?, List.isEmpty_iff.mp hempty]
        rfl
      rwa [find?_erase, if_neg hs] at hnone
    · cases hk

end Left

theorem operators_release (operator : Operator) (path : String) (gs : List Group) :
    ((release operator path gs).map (·.operator)).Sublist (gs.map (·.operator)) := by
  rw [release_eq]
  induction gs with
  | nil => exact .slnil
  | cons g gs ih =>
    rw [List.filterMap_cons]
    cases hk : left? operator path g with
    | none => exact ih.cons _
    | some k =>
      simp only [List.map_cons, (remains_of_left? hk).keeps]
      exact ih.cons_cons g.operator

/-- Releasing a path takes it from every other operator and nothing else. -/
theorem heldIn_release (operator : Operator) (path : String) (gs : List Group)
    (hd : (gs.map (·.operator)).Nodup) (other : Operator) (s : String) :
    heldIn (release operator path gs) other s =
      if other ≠ operator ∧ path = s then none else heldIn gs other s := by
  induction gs with
  | nil => simp [release, heldIn]
  | cons g gs ih =>
    obtain ⟨hg, hd⟩ := List.nodup_cons.mp hd
    have hrest : g.operator ∉ (release operator path gs).map (·.operator) :=
      fun h => hg ((operators_release operator path gs).subset h)
    have ih := ih hd
    rw [release_eq] at ih hrest ⊢
    rw [List.filterMap_cons, heldIn_cons]
    cases hk : left? operator path g with
    | none =>
      obtain ⟨hop, hlone⟩ := lone_of_left? hk
      by_cases ho : g.operator = other
      · subst ho
        dsimp only
        rw [heldIn_of_notMem hrest]
        by_cases hs : path = s
        · rw [if_pos ⟨hop, hs⟩]
        · rw [if_neg fun h => hs h.2, if_pos rfl, hlone s hs]
      · rw [if_neg ho]
        exact ih
    | some k =>
      have hk := remains_of_left? hk
      dsimp only
      rw [heldIn_cons, ih, hk.keeps, hk.finds]
      by_cases ho : g.operator = other
      · rw [if_pos ho, if_pos ho, ho]
      · rw [if_neg ho, if_neg ho]

/-! ### Putting a value -/

section Put
variable {operator : Operator} {path : Label} {v : Value} {gs : List Group}

/-- An operator that has a group takes the value into it. -/
theorem putUnder_present (hm : operator ∈ gs.map (·.operator)) :
    putUnder operator path v gs =
      gs.map fun g => if g.operator = operator then g.put path v else g := by
  obtain ⟨g, hg, ho⟩ := List.mem_map.mp hm
  exact if_pos (List.any_eq_true.mpr ⟨g, hg, by simpa using ho⟩)

/-- An operator that has none begins a group with it. -/
theorem putUnder_absent (hn : operator ∉ gs.map (·.operator)) :
    putUnder operator path v gs = gs ++ [⟨operator, none, [(path, v)]⟩] := by
  refine if_neg fun hany => ?_
  obtain ⟨g, hg, ho⟩ := List.any_eq_true.mp hany
  exact hn (List.mem_map.mpr ⟨g, hg, by simpa using ho⟩)

theorem mem_putUnder {g : Group} (hg : g ∈ putUnder operator path v gs) :
    g ∈ gs ∨ (∃ k ∈ gs, g = k.put path v) ∨ g = ⟨operator, none, [(path, v)]⟩ := by
  by_cases hm : operator ∈ gs.map (·.operator)
  · rw [putUnder_present hm] at hg
    obtain ⟨k, hk, rfl⟩ := List.mem_map.mp hg
    split
    · exact .inr (.inl ⟨k, hk, rfl⟩)
    · exact .inl hk
  · rw [putUnder_absent hm] at hg
    rcases List.mem_append.mp hg with hg | hg
    · exact .inl hg
    · exact .inr (.inr (List.mem_singleton.mp hg))

theorem operators_put (operator : Operator) (path : Label) (v : Value) (gs : List Group) :
    (gs.map fun g => if g.operator = operator then g.put path v else g).map (·.operator) =
      gs.map (·.operator) := by
  rw [List.map_map]
  apply List.map_congr_left
  intro g _
  simp only [Function.comp_apply]
  split <;> rfl

theorem operators_putUnder (operator : Operator) (path : Label) (v : Value)
    (hd : (gs.map (·.operator)).Nodup) : ((putUnder operator path v gs).map (·.operator)).Nodup := by
  by_cases hm : operator ∈ gs.map (·.operator)
  · rwa [putUnder_present hm, operators_put]
  · rw [putUnder_absent hm, List.map_append, List.nodup_append]
    refine ⟨hd, by simp, ?_⟩
    rintro a ha b hb rfl
    rw [List.map_singleton, List.mem_singleton] at hb
    exact hm (by rwa [hb] at ha)

theorem heldIn_put (hm : operator ∈ gs.map (·.operator)) (other : Operator) (s : String) :
    heldIn (gs.map fun g => if g.operator = operator then g.put path v else g) other s =
      if other = operator ∧ path.text = s then some v else heldIn gs other s := by
  have hkeeps : (fun g : Group => decide (g.operator = other)) ∘
      (fun g => if g.operator = operator then g.put path v else g) =
        fun g => decide (g.operator = other) := by
    funext g
    simp only [Function.comp_apply]
    split <;> rfl
  rw [heldIn, heldIn, List.find?_map, hkeeps]
  cases hf : gs.find? fun g => g.operator = other with
  | none =>
    have hne : other ≠ operator := by
      rintro rfl
      obtain ⟨g, hg, ho⟩ := List.mem_map.mp hm
      exact List.find?_eq_none.mp hf g hg (by simpa using ho)
    rw [if_neg fun h => hne h.1]
    rfl
  | some g =>
    obtain rfl : g.operator = other := by simpa using List.find?_some hf
    by_cases ho : g.operator = operator
    · simp [ho, find?_put]
    · simp [ho]

theorem heldIn_append (hn : operator ∉ gs.map (·.operator)) (other : Operator) (s : String) :
    heldIn (gs ++ [⟨operator, none, [(path, v)]⟩]) other s =
      if other = operator ∧ path.text = s then some v else heldIn gs other s := by
  by_cases ho : other = operator
  · subst ho
    have hfind : gs.find? (fun g => g.operator = other) = none := by
      simpa using fun g hg ho => hn (List.mem_map.mpr ⟨g, hg, ho⟩)
    by_cases hs : path.text = s
    · simp [heldIn, List.find?_append, hfind, Group.find?, hs]
    · simp [heldIn, List.find?_append, hfind, Group.find?, hs]
  · have : operator ≠ other := fun h => ho h.symm
    simp [heldIn, List.find?_append, ho, this]

/-- Putting a value changes one path of one operator. -/
theorem heldIn_putUnder (operator : Operator) (path : Label) (v : Value) (gs : List Group)
    (other : Operator) (s : String) :
    heldIn (putUnder operator path v gs) other s =
      if other = operator ∧ path.text = s then some v else heldIn gs other s := by
  by_cases hm : operator ∈ gs.map (·.operator)
  · rw [putUnder_present hm, heldIn_put hm]
  · rw [putUnder_absent hm, heldIn_append hm]

end Put

/-! ### One record -/

/-- Each operator has one group, each group has some path, and no path twice. -/
structure Tidy (groups : List Group) : Prop where
  operators : (groups.map (·.operator)).Nodup
  filled : ∀ g ∈ groups, g.fields ≠ []
  paths : ∀ g ∈ groups, (g.fields.map (·.1.text)).Nodup

theorem tidy_release {gs : List Group} (h : Tidy gs) (operator : Operator) (path : String) :
    Tidy (release operator path gs) := by
  refine ⟨h.operators.sublist (operators_release operator path gs), fun g hg => ?_, fun g hg => ?_⟩
  · obtain ⟨k, hk, hkg⟩ := List.mem_filterMap.mp hg
    exact (remains_of_left? hkg).filled (h.filled k hk)
  · obtain ⟨k, hk, hkg⟩ := List.mem_filterMap.mp hg
    exact (h.paths k hk).sublist ((remains_of_left? hkg).fields.map _)

theorem put_filled (g : Group) (path : Label) (v : Value) : (g.put path v).fields ≠ [] := by
  unfold Group.put
  dsimp only
  split
  · rename_i h
    obtain ⟨f, hf, _⟩ := List.any_eq_true.mp h
    intro he
    rw [List.map_eq_nil_iff.mp he] at hf
    cases hf
  · simp

theorem put_paths {g : Group} (h : (g.fields.map (·.1.text)).Nodup) (path : Label) (v : Value) :
    ((g.put path v).fields.map (·.1.text)).Nodup := by
  unfold Group.put
  dsimp only
  split
  · have : (g.fields.map fun f => if f.1.text == path.text then (f.1, v) else f).map (·.1.text) =
        g.fields.map (·.1.text) := by
      rw [List.map_map]
      apply List.map_congr_left
      intro f _
      simp only [Function.comp_apply]
      split <;> rfl
    rwa [this]
  · rename_i hh
    have hn : ∀ f ∈ g.fields, f.1.text ≠ path.text := by simpa [Group.has] using hh
    rw [List.map_append, List.nodup_append]
    refine ⟨h, by simp, ?_⟩
    rintro a ha b hb rfl
    rw [List.map_singleton, List.mem_singleton] at hb
    obtain ⟨f, hf, rfl⟩ := List.mem_map.mp ha
    exact hn f hf hb

theorem tidy_putUnder {gs : List Group} (h : Tidy gs) (operator : Operator) (path : Label)
    (v : Value) : Tidy (putUnder operator path v gs) := by
  refine ⟨operators_putUnder operator path v h.operators, fun g hg => ?_, fun g hg => ?_⟩
  · rcases mem_putUnder hg with hg | ⟨k, _, rfl⟩ | rfl
    · exact h.filled g hg
    · exact put_filled k path v
    · simp
  · rcases mem_putUnder hg with hg | ⟨k, hk, rfl⟩ | rfl
    · exact h.paths g hg
    · exact put_paths (h.paths k hk) path v
    · simp

theorem tidy_enter {p : Patch} (h : Tidy p.groups) (r : Record) : Tidy (enter p r).groups :=
  tidy_putUnder (tidy_release h r.operator r.path.text) r.operator r.path r.value

/-- A record moves its path under its operator and leaves every other path alone. -/
theorem held?_enter {p : Patch} (h : Tidy p.groups) (r : Record) (operator : Operator)
    (path : String) :
    held? (enter p r) operator path =
      if r.path.text = path then (if operator = r.operator then some r.value else none)
      else held? p operator path := by
  show heldIn (putUnder r.operator r.path r.value (release r.operator r.path.text p.groups))
    operator path = _
  rw [heldIn_putUnder, heldIn_release _ _ _ h.operators]
  by_cases hs : r.path.text = path
  · by_cases ho : operator = r.operator
    · simp [hs, ho]
    · simp [hs, ho]
  · simp [hs]
    rfl

/-! ### Records in order -/

theorem lastOn_append (path : String) (rs : List Record) (r : Record) :
    lastOn path (rs ++ [r]) = if r.path.text = path then some r else lastOn path rs := by
  by_cases h : r.path.text = path <;> simp [lastOn, h]

theorem lastOn_text {path : String} {rs : List Record} {r : Record} (h : lastOn path rs = some r) :
    r.path.text = path := by
  simpa using List.find?_some h

theorem lastOn_eq_none {path : String} {rs : List Record} :
    lastOn path rs = none ↔ path ∉ (distinctPaths rs).map (·.text) := by
  induction rs with
  | nil => simp [lastOn, distinctPaths]
  | cons r rs ih =>
    have hiff : lastOn path rs = none ↔ ∀ k ∈ rs, k.path.text ≠ path := by simp [lastOn]
    have hcons : lastOn path (r :: rs) = none ↔ r.path.text ≠ path ∧ lastOn path rs = none := by
      simp [lastOn, and_comm]
    rw [hcons, ih]
    by_cases h : r.path.text = path
    · simp [distinctPaths, h]
    · have : path ≠ r.path.text := fun e => h e.symm
      simp only [ne_eq, h, not_false_eq_true, true_and, distinctPaths, List.map_cons,
        List.mem_cons, this, false_or, List.mem_map, List.mem_filter]
      constructor
      · rintro hn ⟨l, ⟨hl, _⟩, ht⟩
        exact hn ⟨l, hl, ht⟩
      · rintro hn ⟨l, hl, ht⟩
        exact hn ⟨l, ⟨hl, by simpa [ht] using this⟩, ht⟩

theorem distinctPaths_append (rs : List Record) (r : Record) :
    distinctPaths (rs ++ [r]) =
      if lastOn r.path.text rs = none then distinctPaths rs ++ [r.path] else distinctPaths rs := by
  induction rs with
  | nil => simp [lastOn, distinctPaths]
  | cons k rs ih =>
    have hcons : lastOn r.path.text (k :: rs) = none ↔
        k.path.text ≠ r.path.text ∧ lastOn r.path.text rs = none := by
      simp [lastOn, and_comm]
    simp only [List.cons_append, distinctPaths, ih, hcons]
    by_cases hr : lastOn r.path.text rs = none
    · by_cases hk : k.path.text = r.path.text
      · simp [hr, hk]
      · have : r.path.text ≠ k.path.text := fun e => hk e.symm
        simp [hr, hk, this]
    · simp [hr]

/-! ### Runs -/

/-- A patch holds what a list of records says. -/
structure Accumulates (rs : List Record) (p : Patch) : Prop where
  tidy : Tidy p.groups
  held : ∀ operator path v, held? p operator path = some v ↔
    ∃ r, lastOn path rs = some r ∧ r.operator = operator ∧ r.value = v
  types : p.metadata.operationTypes = (distinctPaths rs).map fun l =>
    (.label l, .label (.plain (((lastOn l.text rs).map (·.operator.text)).getD "")))
  fields : p.metadata.fieldsChanged = (distinctPaths rs).map .label
  total : p.metadata.totalChanges = .counted rs.length

theorem accumulates_empty : Accumulates [] .empty :=
  ⟨⟨.nil, by simp [empty], by simp [empty]⟩, by simp [held?, empty, lastOn], rfl, rfl, rfl⟩

theorem hasType_iff {rs : List Record} {p : Patch} (h : Accumulates rs p) (path : String) :
    p.metadata.hasType path = true ↔ lastOn path rs ≠ none := by
  rw [ne_eq, lastOn_eq_none, Decidable.not_not, Metadata.hasType, h.types]
  simp [Mark.isText]

theorem accumulates_enter {rs : List Record} {p : Patch} (h : Accumulates rs p) (r : Record) :
    Accumulates (rs ++ [r]) (enter p r) := by
  have hmeta : (enter p r).metadata = p.metadata.record r.path r.operator.text := rfl
  refine ⟨tidy_enter h.tidy r, ?_, ?_, ?_, ?_⟩
  · intro operator path v
    rw [held?_enter h.tidy, lastOn_append]
    by_cases hp : r.path.text = path
    · by_cases ho : operator = r.operator
      · subst ho
        simp [hp]
      · have : r.operator ≠ operator := fun e => ho e.symm
        simp [hp, ho, this]
    · simpa [hp] using h.held operator path v
  · rw [hmeta, Metadata.record, distinctPaths_append]
    dsimp only
    by_cases hn : lastOn r.path.text rs = none
    · have ht : ¬ p.metadata.hasType r.path.text = true := by
        rw [hasType_iff h]
        exact fun hne => hne hn
      rw [if_neg ht, if_pos hn, List.map_append, h.types]
      congr 1
      · apply List.map_congr_left
        intro l hl
        have : r.path.text ≠ l.text := by
          intro e
          exact lastOn_eq_none.mp hn (List.mem_map.mpr ⟨l, hl, e.symm⟩)
        rw [lastOn_append, if_neg this]
      · simp [lastOn_append]
    · have ht : p.metadata.hasType r.path.text = true := (hasType_iff h _).mpr hn
      rw [if_pos ht, if_neg hn, h.types, List.map_map]
      apply List.map_congr_left
      intro l _
      rw [lastOn_append]
      by_cases hl : l.text = r.path.text
      · simp [Mark.isText, hl]
      · have : r.path.text ≠ l.text := fun e => hl e.symm
        simp [Mark.isText, hl, this]
  · rw [hmeta, Metadata.record, distinctPaths_append]
    dsimp only
    by_cases hn : lastOn r.path.text rs = none
    · have ht : ¬ p.metadata.hasType r.path.text = true := by
        rw [hasType_iff h]
        exact fun hne => hne hn
      rw [if_neg ht, if_pos hn, List.map_append, h.fields]
      rfl
    · have ht : p.metadata.hasType r.path.text = true := (hasType_iff h _).mpr hn
      rw [if_pos ht, if_neg hn, h.fields]
  · rw [hmeta, Metadata.record]
    dsimp only
    rw [h.total]
    simp [Total.count]

theorem accumulates_addFilter {rs : List Record} {p : Patch} (h : Accumulates rs p) (v : Value) :
    Accumulates rs (p.addFilter v) :=
  ⟨h.tidy, h.held, h.types, h.fields, h.total⟩

theorem push_eq (p : Patch) (path : Label) (vs : List Value) :
    p.push path vs = ((pushed? path vs).map (enter p)).getD p := by
  match vs with
  | [] => rfl
  | [_] => rfl
  | _ :: _ :: _ => rfl

/-- One call: its record, if it makes one, is entered. -/
theorem accumulates_edit {rs : List Record} {p : Patch} (h : Accumulates rs p) (heap : Heap)
    (c : Call) : Accumulates (rs ++ (c.record? heap).toList) ((c.edit heap).run p).2 := by
  cases c with
  | add operator path v =>
    cases ho : operatorOf? heap operator with
    | none =>
      have hrun : ((Call.add operator path v).edit heap).run p =
          (.error (.badPatch (.unknownOperator operator)), p) := by
        simp only [Call.edit, addGiven, ho]
        rfl
      simpa [Call.record?, ho, hrun] using h
    | some o =>
      have hrun : ((Call.add operator path v).edit heap).run p =
          (.ok (), enter p ⟨o, path, v⟩) := by
        simp only [Call.edit, addGiven, ho]
        rfl
      simpa [Call.record?, ho, hrun] using accumulates_enter h ⟨o, path, v⟩
  | set path v => exact accumulates_enter h ⟨.set, path, v⟩
  | unset path => exact accumulates_enter h ⟨.unset, path, .text ""⟩
  | push path vs =>
    show Accumulates (rs ++ (pushed? path vs).toList) (p.push path vs)
    rw [push_eq]
    cases pushed? path vs with
    | none => simpa using h
    | some r => exact accumulates_enter h r
  | filter v =>
    show Accumulates (rs ++ []) (p.addFilter v)
    rw [List.append_nil]
    exact accumulates_addFilter h v

theorem accumulates_run (heap : Heap) (calls : List Call) {rs : List Record} {p : Patch}
    (h : Accumulates rs p) : Accumulates (rs ++ accepted heap calls) (run heap p calls) := by
  induction calls generalizing rs p with
  | nil => simpa [accepted, run] using h
  | cons c cs ih =>
    have := ih (accumulates_edit h heap c)
    cases hr : c.record? heap <;> simpa [accepted, hr, run] using this

/-- The metadata names the operator of a path's last record. -/
theorem typeOf?_eq {rs : List Record} {p : Patch} (h : Accumulates rs p) (path : String) :
    typeOf? p path = (lastOn path rs).map fun r => .label (.plain r.operator.text) := by
  have hkey : ((fun e : Mark × Mark => e.1.isText path) ∘ fun l : Label => (Mark.label l,
      Mark.label (.plain (((lastOn l.text rs).map (·.operator.text)).getD "")))) =
        fun l : Label => l.text == path := rfl
  rw [typeOf?, h.types, List.find?_map, hkey]
  cases hl : lastOn path rs with
  | none =>
    have hn : (distinctPaths rs).find? (fun l => l.text == path) = none := by
      rw [List.find?_eq_none]
      intro l hmem htext
      exact lastOn_eq_none.mp hl (List.mem_map.mpr ⟨l, hmem, by simpa using htext⟩)
    rw [hn]
    rfl
  | some r =>
    have hm : path ∈ (distinctPaths rs).map (·.text) := by
      by_contra hm
      rw [lastOn_eq_none.mpr hm] at hl
      cases hl
    cases hf : (distinctPaths rs).find? fun l => l.text == path with
    | none =>
      obtain ⟨l, hmem, htext⟩ := List.mem_map.mp hm
      exact absurd (by simpa using htext) (List.find?_eq_none.mp hf l hmem)
    | some l =>
      have htext : l.text = path := by simpa using List.find?_some hf
      simp [htext, hl]

/-- A call fails only by naming an unknown operator, and then changes nothing. -/
theorem refused_edit (heap : Heap) (c : Call) (p q : Patch) (f : Fault)
    (h : (c.edit heap).run p = (.error f, q)) :
    q = p ∧ ∃ operator path v, c = .add operator path v ∧ operatorOf? heap operator = none ∧
      f = .badPatch (.unknownOperator operator) := by
  cases c with
  | add operator path v =>
    cases ho : operatorOf? heap operator with
    | none =>
      simp only [Call.edit, addGiven, ho] at h
      cases h
      exact ⟨rfl, operator, path, v, rfl, ho, rfl⟩
    | some o =>
      simp only [Call.edit, addGiven, ho] at h
      cases h
  | set path v => cases h
  | unset path => cases h
  | push path vs => cases h
  | filter v => cases h

/-- **What a run leaves.** After any run of calls on an empty patch, a path is held under an
operator with a value exactly when its last accepted record says so; every operator that is
there holds something; the metadata names the last operator of every recorded path and of no
other, lists the paths in the order of their first records and counts all records. A call that
fails leaves the patch as it was. -/
theorem run_accumulates (heap : Heap) (calls : List Call) :
    (∀ operator path v, held? (run heap .empty calls) operator path = some v ↔
      ∃ r, lastOn path (accepted heap calls) = some r ∧ r.operator = operator ∧ r.value = v) ∧
    Tidy (run heap .empty calls).groups ∧
    (∀ path, typeOf? (run heap .empty calls) path =
      (lastOn path (accepted heap calls)).map fun r => .label (.plain r.operator.text)) ∧
    (run heap .empty calls).metadata.operationTypes.map (·.1) =
      (distinctPaths (accepted heap calls)).map .label ∧
    (run heap .empty calls).metadata.fieldsChanged =
      (distinctPaths (accepted heap calls)).map .label ∧
    (run heap .empty calls).metadata.totalChanges = .counted (accepted heap calls).length ∧
    ∀ c p q f, ((Call.edit heap c).run p = (.error f, q) → q = p) := by
  have h := accumulates_run heap calls accumulates_empty
  rw [List.nil_append] at h
  refine ⟨h.held, h.tidy, typeOf?_eq h, ?_, h.fields, h.total,
    fun c p q f hf => (refused_edit heap c p q f hf).1⟩
  rw [h.types, List.map_map]
  rfl

end DocDelta.Patch
