import DocDelta.Command.Arguments
import DocDelta.Proofs.Settings.Layers
import DocDelta.Proofs.Text.Splitting

/-! Which log level is in effect.

A line names the log level under `log_level`, and setting the level is what the option does when it
is met. The settings are laid under what the words give, and nothing is done about the level they
name: so the level in effect is the one that is named just where the option is given or the settings
name the level a command starts at (`level_told`). -/
namespace DocDelta.Command
open Heap Settings Text
variable {h : Heap} {g : Grammar} {c : Setting} {r r' r'' : Reading} {switches : List Switch}
  {o : Switch} {value : String} {ws : List Word}

/-! ### What the words give -/

/-- The options that words give, each with its value and in their order. -/
def usesOf (switches : List Switch) : List Word → List (Switch × String)
  | [] => []
  | .switch o attached :: ws =>
    match takeSwitch switches ws o attached with
    | .error _ => []
    | .ok given => given.uses ++ usesOf switches given.rest.1
  | _ :: ws => usesOf switches ws
termination_by words => words.length
decreasing_by
  · have := given.rest.2
    simp
    omega
  · simp

/-- The value that is given last for an option. -/
def lastGiven? (name : String) (uses : List (Switch × String)) : Option String :=
  (uses.filter fun u => u.1.name == name).getLast?.map (·.2)

theorem lastGiven?_append (name : String) (us vs : List (Switch × String)) :
    lastGiven? name (us ++ vs) = (lastGiven? name vs).or (lastGiven? name us) := by
  rw [lastGiven?, List.filter_append, List.getLast?_append, Option.map_or]
  rfl

theorem lastGiven?_cons (name : String) (u : Switch × String) (us : List (Switch × String)) :
    lastGiven? name (u :: us) = (lastGiven? name us).or (lastGiven? name [u]) :=
  lastGiven?_append name [u] us

theorem lastGiven?_singleton (name : String) (o : Switch) (value : String) :
    lastGiven? name [(o, value)] = if o.name = name then some value else none := by
  by_cases hn : o.name = name <;> simp [lastGiven?, hn]

/-- The options among words are those of a command. -/
def Known (switches : List Switch) (ws : List Word) : Prop :=
  ∀ o attached, .switch o attached ∈ ws → o ∈ switches

theorem findSwitch_mem {flag : String} (hf : findSwitch switches flag = some o) : o ∈ switches :=
  List.mem_of_find?_eq_some hf

theorem tellFlag_known {s : String} {cs : List Char} {attached : Attached}
    (ht : tellFlag switches s cs = .ok (.switch o attached)) : o ∈ switches := by
  have hunnamed : unnamed s cs ≠ .switch o attached := by
    unfold unnamed
    split <;> nofun
  unfold tellFlag at ht
  dsimp only at ht
  split at ht
  · rename_i hf
    cases ht
    exact findSwitch_mem hf
  · rename_i hf
    cases ht
    exact findSwitch_mem hf
  · split at ht
    · split at ht
      · exact absurd (Except.ok.inj ht) hunnamed
      · rename_i hflags
        cases ht
        obtain ⟨p, hp, hm⟩ := List.mem_flatMap.mp (hflags ▸ List.mem_singleton_self o)
        obtain ⟨_, _, rfl⟩ := List.mem_map.mp hm
        exact hp
      · cases ht
    · split at ht
      · rename_i hf
        cases ht
        exact findSwitch_mem hf
      · exact absurd (Except.ok.inj ht) hunnamed
    · cases ht

theorem tellWords_known {words : List String} {told : List Word}
    (ht : tellWords switches words = .ok told) : Known switches told := by
  induction words generalizing told with
  | nil =>
    cases ht
    nofun
  | cons s rest ih =>
    intro o attached hm
    unfold tellWords at ht
    split at ht
    · cases ht
      simp at hm
    · have htold : ∃ word behind, told = word :: behind ∧ tellWords switches rest = .ok behind ∧
          ∀ o attached, word = .switch o attached → o ∈ switches := by
        dsimp only at ht
        split at ht <;> obtain ⟨word, hword, ht⟩ := bind_eq_ok.mp ht <;>
          obtain ⟨behind, hbehind, ht⟩ := bind_eq_ok.mp ht <;> cases ht
        · exact ⟨word, behind, rfl, hbehind, fun o attached he => tellFlag_known (he ▸ hword)⟩
        · exact ⟨word, behind, rfl, hbehind, fun o attached he => by cases he ▸ hword⟩
      obtain ⟨word, behind, rfl, hbehind, hword⟩ := htold
      rcases List.mem_cons.mp hm with he | hm
      · exact hword o attached he.symm
      · exact ih hbehind o attached hm

/-- What an option takes leaves words that stood behind it, and gives options of the command. -/
structure TakenFrom (switches : List Switch) (ws : List Word) (given : Given ws) : Prop where
  behind : ∀ w ∈ given.rest.1, w ∈ ws
  known : ∀ u ∈ given.uses, u.1 ∈ switches

theorem takeBare_from {given : Given ws} (ho : o ∈ switches) (ht : takeBare ws o = .ok given) :
    TakenFrom switches ws given := by
  have hone : ∀ value : String, ∀ u ∈ [(o, value)], u.1 ∈ switches := by simpa using ho
  unfold takeBare at ht
  split at ht
  · cases ht
    exact ⟨fun _ hw => hw, hone ""⟩
  · split at ht
    · cases ht
      exact ⟨fun _ hw => List.mem_cons_of_mem _ hw, hone _⟩
    · cases ht

theorem takeValued_from {value : List Char} {given : Given ws} (ho : o ∈ switches)
    (ht : takeValued ws o value = .ok given) : TakenFrom switches ws given := by
  unfold takeValued at ht
  split at ht
  · cases ht
    exact ⟨fun _ hw => hw, by simpa using ho⟩
  · cases ht

theorem takeGlued_from {cs : List Char} {given : Given ws} (ho : o ∈ switches)
    (ht : takeGlued switches ws o cs = .ok given) : TakenFrom switches ws given := by
  induction cs generalizing o given with
  | nil => exact takeBare_from ho ht
  | cons c cs ih =>
    unfold takeGlued at ht
    split at ht
    · exact takeValued_from ho ht
    · split at ht
      · cases ht
        exact ⟨fun _ hw => hw, by simpa using ho⟩
      · rename_i next hnext
        have hinner : ∃ inner, TakenFrom switches ws inner ∧
            given = { inner with uses := (o, "") :: inner.uses } := by
          dsimp only at ht
          split at ht <;> obtain ⟨inner, hinner, ht⟩ := bind_eq_ok.mp ht <;> cases ht
          · exact ⟨inner, takeValued_from (findSwitch_mem hnext) hinner, rfl⟩
          · exact ⟨inner, ih (findSwitch_mem hnext) hinner, rfl⟩
        obtain ⟨inner, hfrom, rfl⟩ := hinner
        exact ⟨hfrom.behind, List.forall_mem_cons.mpr ⟨ho, hfrom.known⟩⟩

theorem takeSwitch_from {attached : Attached} {given : Given ws} (ho : o ∈ switches)
    (ht : takeSwitch switches ws o attached = .ok given) : TakenFrom switches ws given := by
  cases attached with
  | none => exact takeBare_from ho ht
  | equals value => exact takeValued_from ho ht
  | glued value => exact takeGlued_from ho ht

theorem usesOf_skip {w : Word} (hw : ∀ o attached, w = .switch o attached → False) :
    usesOf switches (w :: ws) = usesOf switches ws := by
  rw [usesOf]
  exact hw

theorem usesOf_operand (s : String) : usesOf switches (.operand s :: ws) = usesOf switches ws :=
  usesOf_skip (by simp)

theorem usesOf_divider : usesOf switches (.divider :: ws) = usesOf switches ws :=
  usesOf_skip (by simp)

/-- Behind an operand and its divider stand the same options. -/
theorem takeOperand_from (switches : List Switch) {words : List Word} {v : Value}
    {rest : { rest // rest.length < words.length }} (ht : takeOperand words = some (v, rest)) :
    (∀ w ∈ rest.1, w ∈ words) ∧ usesOf switches rest.1 = usesOf switches words := by
  unfold takeOperand at ht
  split at ht <;> cases ht
  · exact ⟨fun w hw => List.mem_cons_of_mem _ (List.mem_cons_of_mem _ hw),
      by rw [usesOf_operand, usesOf_divider]⟩
  · exact ⟨fun w hw => List.mem_cons_of_mem _ hw, by rw [usesOf_operand]⟩
  · exact ⟨fun w hw => List.mem_cons_of_mem _ (List.mem_cons_of_mem _ hw),
      by rw [usesOf_divider, usesOf_operand]⟩

/-! ### What is done about the level -/

/-- The name that the log level is kept under. -/
abbrev levelName : String := "log_level"

/-- Only the option for the log level is kept under its name, and only it sets the level. -/
structure Separate (g : Grammar) : Prop where
  switches : ∀ o ∈ g.switches, o.name = levelName ↔ o.effect = .logLevel
  operands : levelName ∉ g.operands

theorem separate_ofEntryPoint (e : EntryPoint) : Separate (.ofEntryPoint e) := by
  cases e <;> exact ⟨by decide, by decide⟩

/-- Between two states of a reading the level was given last as said: it is named and in effect
then. If it was not given, nothing was done about it. -/
def Leveled (r r' : Reading) : Option String → Prop
  | none => r'.values.lookup levelName = r.values.lookup levelName ∧ r'.level = r.level
  | some s => r'.values.lookup levelName = some (.text s) ∧ levelNames.lookup s = some r'.level

theorem Leveled.trans {first second : Option String} (hf : Leveled r r' first)
    (hs : Leveled r' r'' second) : Leveled r r'' (second.or first) := by
  cases second with
  | some s => exact hs
  | none =>
    obtain ⟨hname, hlevel⟩ := hs
    cases first with
    | some s => exact ⟨hname.trans hf.1, hlevel ▸ hf.2⟩
    | none => exact ⟨hname.trans hf.1, hlevel.trans hf.2⟩

/-- What does nothing about the level may come before. -/
theorem Leveled.after {given : Option String} (hs : Leveled r' r'' given)
    (hname : r'.values.lookup levelName = r.values.lookup levelName) (hlevel : r'.level = r.level) :
    Leveled r r'' given := by
  have hfirst : Leveled r r' none := ⟨hname, hlevel⟩
  simpa using hfirst.trans hs

theorem setNamed_eq (s : String) (v : Value) (es : List (String × Value)) :
    setNamed s v es = putNamed s v es := by
  induction es with
  | nil => rfl
  | cons e es ih =>
    rw [setNamed, putNamed, ih]
    split
    · rename_i he
      rw [he]
    · rfl

theorem lookup_setNamed (s t : String) (v : Value) (es : List (String × Value)) :
    (setNamed s v es).lookup t = if s = t then some v else es.lookup t := by
  rw [setNamed_eq, lookup_putNamed]

theorem level_of_choice (hc : (levelNames.map (·.1)).contains value = true) :
    ∃ level, levelNames.lookup value = some level := by
  simp only [levelNames, List.map_cons, List.map_nil, List.contains_iff_mem, List.mem_cons,
    List.not_mem_nil, or_false] at hc
  rcases hc with rfl | rfl | rfl | rfl | rfl
  all_goals exact ⟨_, rfl⟩

/-- What an option does that does not stop the reading: it sets its value, and the option for the
log level sets the level that its value names. -/
theorem use_ok (hu : use h g c r o value = .ok r') :
    (o.effect = .logLevel ∧ ∃ level, levelNames.lookup value = some level ∧
      r' = { r with values := setNamed o.name (.text value) r.values, level }) ∨
    (o.effect ≠ .logLevel ∧ ∃ v, r' = { r with values := setNamed o.name v r.values }) := by
  unfold use at hu
  cases he : o.effect with
  | help => simp [Switch.choices, he] at hu
  | version => simp [Switch.choices, he] at hu
  | listing =>
    simp only [Switch.choices, he] at hu
    split at hu
    · cases hu
    · split at hu <;> cases hu
  | logLevel =>
    simp only [Switch.choices, he] at hu
    split at hu
    · cases hu
    · rename_i hc
      obtain ⟨level, hlevel⟩ := level_of_choice (by simpa using hc)
      cases hu
      exact .inl ⟨rfl, level, hlevel, by rw [hlevel]; rfl⟩
  | store choices =>
    simp only [Switch.choices, he] at hu
    refine .inr ⟨nofun, .text value, ?_⟩
    split at hu
    · split at hu <;> cases hu
      rfl
    · cases hu
      rfl
  | turn on =>
    simp only [Switch.choices, he] at hu
    cases hu
    exact .inr ⟨nofun, .bool on, rfl⟩
  | append =>
    simp only [Switch.choices, he] at hu
    split at hu <;> cases hu
    exact .inr ⟨nofun, _, rfl⟩

theorem leveled_use (hg : Separate g) (ho : o ∈ g.switches) (hu : use h g c r o value = .ok r') :
    Leveled r r' (lastGiven? levelName [(o, value)]) ∧ r'.waiting = r.waiting := by
  have hname := hg.switches o ho
  rw [lastGiven?_singleton]
  obtain ⟨he, level, hlevel, rfl⟩ | ⟨he, v, rfl⟩ := use_ok hu
  · rw [if_pos (hname.mpr he)]
    exact ⟨⟨by rw [lookup_setNamed, if_pos (hname.mpr he)], hlevel⟩, rfl⟩
  · have hne : o.name ≠ levelName := fun hn => he (hname.mp hn)
    rw [if_neg hne]
    exact ⟨⟨by rw [lookup_setNamed, if_neg hne], rfl⟩, rfl⟩

/-- Carrying out several options. -/
theorem leveled_uses (hg : Separate g) {uses : List (Switch × String)}
    (ho : ∀ u ∈ uses, u.1 ∈ g.switches)
    (hu : uses.foldlM (fun r u => use h g c r u.1 u.2) r = .ok r') :
    Leveled r r' (lastGiven? levelName uses) ∧ r'.waiting = r.waiting := by
  induction uses generalizing r with
  | nil =>
    cases hu
    exact ⟨⟨rfl, rfl⟩, rfl⟩
  | cons u uses ih =>
    rw [List.foldlM_cons] at hu
    obtain ⟨hu₁, hrest⟩ := List.forall_mem_cons.mp ho
    obtain ⟨r₁, hr₁, hu⟩ := bind_eq_ok.mp hu
    obtain ⟨hfirst, hwaiting⟩ := leveled_use hg hu₁ hr₁
    obtain ⟨hothers, hwaiting'⟩ := ih hrest hu
    rw [lastGiven?_cons]
    exact ⟨hfirst.trans hothers, hwaiting'.trans hwaiting⟩

/-- Taking words one after another: in effect is the level that is given last. -/
theorem leveled_takeWords (hg : Separate g) {words : List Word} (hw : Known g.switches words)
    (hr : ∀ name ∈ r.waiting, name ∈ g.operands) (ht : takeWords h g c r words = .ok r') :
    Leveled r r' (lastGiven? levelName (usesOf g.switches words)) := by
  induction r, words using takeWords.induct h g c with
  | case1 r =>
    rw [takeWords] at ht
    cases ht
    rw [usesOf]
    exact ⟨rfl, rfl⟩
  | case2 r s ws ih =>
    rw [takeWords] at ht
    rw [usesOf_skip (by simp)]
    exact (ih (fun o attached hm => hw o attached (List.mem_cons_of_mem _ hm)) hr ht).after rfl rfl
  | case3 r o attached ws flaw htake =>
    rw [takeWords, htake] at ht
    cases ht
  | case4 r o attached ws given htake stop huse =>
    rw [takeWords, htake] at ht
    simp only [huse] at ht
    cases ht
  | case5 r o attached ws given htake r₁ huse ih =>
    rw [takeWords, htake] at ht
    simp only [huse] at ht
    obtain ⟨hbehind, hknown⟩ := takeSwitch_from (hw o attached (List.mem_cons_self ..)) htake
    obtain ⟨hfirst, hwaiting⟩ := leveled_uses hg hknown huse
    have hrest := ih (fun o attached hm => hw o attached (List.mem_cons_of_mem _ (hbehind _ hm)))
      (by simpa only [hwaiting] using hr) ht
    rw [usesOf, htake, lastGiven?_append]
    exact hfirst.trans (hrest.after rfl rfl)
  | case6 r w ws hunknown hswitch name waiting v rest htake hwaiting ih =>
    rw [takeWords.eq_4 h g c r w ws hunknown hswitch, hwaiting, htake] at ht
    obtain ⟨hbehind, huses⟩ := takeOperand_from g.switches htake
    rw [hwaiting, List.forall_mem_cons] at hr
    have hne : name ≠ levelName := fun he => hg.operands (he ▸ hr.1)
    rw [← huses]
    refine (ih (fun o attached hm => hw o attached (hbehind _ hm)) hr.2 ht).after ?_ rfl
    rw [lookup_setNamed, if_neg hne]
  | case7 r w ws hunknown hswitch hstuck ih =>
    rw [takeWords.eq_4 h g c r w ws hunknown hswitch] at ht
    split at ht
    · rename_i hwaiting htake
      exact absurd htake (hstuck _ _ _ _ hwaiting)
    · rw [usesOf_skip hswitch]
      have hwords := fun o attached hm => hw o attached (List.mem_cons_of_mem _ hm)
      exact (ih hwords hr ht).after rfl rfl

/-! ### Settings -/

/-- The log level that settings name; they are laid over what it is without them. -/
def settledLevel (settings : List (String × Value)) : Value :=
  (settings.reverse.lookup levelName).getD (.text "INFO")

/-- Whether a value is the name of a level. -/
def Names (h : Heap) (v : Value) (level : Level) : Prop :=
  ∃ s, (h.view v).text? = some s ∧ levelNames.lookup s = some level

theorem lookup_foldl_setNamed (settings es : List (String × Value)) (x : String) :
    (settings.foldl (fun values e => setNamed e.1 e.2 values) es).lookup x =
      (settings.reverse.lookup x).or (es.lookup x) := by
  induction settings generalizing es with
  | nil => rfl
  | cons e settings ih =>
    rw [List.foldl_cons, ih, lookup_setNamed, List.reverse_cons, List.lookup_append,
      Option.or_assoc, lookup_entry]
    split <;> rfl

/-- A reading starts with the level that the settings name, and has set the built-in one. -/
theorem start_level (e : EntryPoint) (settings : List (String × Value)) :
    (start (.ofEntryPoint e) settings).values.lookup levelName = some (settledLevel settings) ∧
      (start (.ofEntryPoint e) settings).level = .info := by
  refine ⟨?_, rfl⟩
  have habsent : ∀ es : List (String × Value), es.lookup levelName = some (.text "INFO") →
      (settings.reverse.lookup levelName).or (es.lookup levelName) =
        some (settledLevel settings) := by
    intro es hes
    rw [hes, settledLevel]
    cases settings.reverse.lookup levelName <;> rfl
  rw [start, lookup_foldl_setNamed]
  exact habsent _ (by cases e <;> rfl)

/-- An option that cannot be passed on by its name. -/
def passOn (e : String × Value) : Except Fault (String × Value) :=
  if e.1 = "self" then .error (.misuse .notCallable) else .ok e

theorem passOn_ok {e d : String × Value} (hp : passOn e = .ok d) : d = e := by
  unfold passOn at hp
  split at hp <;> cases hp
  rfl

/-- Settings that are passed on stay as they are. -/
theorem settings_passOn {found settings : List (String × Value)}
    (hp : found.mapM passOn = .ok settings) : settings = found := by
  have heq := (mapM_eq_ok.mp hp).imp fun _ _ hd => (passOn_ok hd).symm
  exact (List.forall₂_eq_eq_eq ▸ heq).symm

theorem mapM_passOn {found : List (String × Value)} (hs : found.lookup "self" = none) :
    found.mapM passOn = .ok found := by
  rw [mapM_eq_ok, List.forall₂_same]
  intro e he
  refine if_neg fun hself => ?_
  have hne := List.lookup_eq_none_iff.mp hs e he
  simp [hself] at hne

/-- The settings of files that hold sections. -/
theorem settingsOf_files (e : EntryPoint) {texts : List String}
    {maps : List (List (String × Value))} (hs : List.Forall₂ (Says h) texts maps) :
    ∃ found : List (String × Value),
      settingsOf h ⟨e.name, (texts.map Except.ok).reverse⟩ = found.mapM passOn ∧
      (found.map (·.1)).Nodup ∧ ∀ x, found.lookup x = chosen? h maps e.sections.reverse x := by
  obtain ⟨found, hfound, hsettled, hlookup⟩ := options_settled e hs
  refine ⟨found, ?_, hsettled.distinct, hlookup⟩
  have hname : ((e.name.splitOn " ").head?).getD "" = e.name := by
    rw [splitOn_lacks (c := ' ') (by cases e <;> decide)]
    rfl
  have hentry : EntryPoint.ofName? e.name = some e := by cases e <;> rfl
  have hoptions : optionsOf h false e.name (texts.map Except.ok).reverse = .ok (.table found) := by
    rw [optionsOf, hentry]
    exact hfound
  rw [settingsOf]
  dsimp only
  rw [hname, hoptions]
  show (namedEntries found).mapM _ = _
  rw [namedEntries, List.mapM_map]
  rfl

/-! ### Reading a line -/

theorem readLine_ok {words : List String} {a : Arguments} (hl : readLine h g c words = .ok a) :
    ∃ settings told r, settingsOf h c = .ok settings ∧ tellWords g.switches words = .ok told ∧
      takeWords h g c (start g settings) told = .ok r ∧ a = ⟨r.values, r.level⟩ := by
  obtain ⟨settings, hsettings, hl⟩ := bind_eq_ok.mp hl
  obtain ⟨told, htold, hl⟩ := bind_eq_ok.mp hl
  obtain ⟨r, hr, hl⟩ := bind_eq_ok.mp hl
  dsimp only at hl
  split at hl
  · cases hl
  · split at hl
    · cases hl
    · cases hl
      exact ⟨settings, told, r, of_mapError hsettings, of_mapError htold, hr, rfl⟩

theorem readLine_of {settings : List (String × Value)} {words : List String} {told : List Word}
    (hs : settingsOf h c = .ok settings) (ht : tellWords g.switches words = .ok told)
    (hr : takeWords h g c (start g settings) told = .ok r) (hw : r.waiting = [])
    (hx : r.extras = []) :
    readLine h g c words = .ok ⟨r.values, r.level⟩ := by
  rw [readLine, hs, ht]
  refine bind_eq_ok.mpr ⟨settings, rfl, bind_eq_ok.mpr ⟨told, rfl, bind_eq_ok.mpr ⟨r, hr, ?_⟩⟩⟩
  rw [hw, hx]
  rfl

theorem lookup_reverse {es : List (String × Value)} (hd : (es.map (·.1)).Nodup) (x : String) :
    es.reverse.lookup x = es.lookup x := by
  induction es with
  | nil => rfl
  | cons e es ih =>
    obtain ⟨s, v⟩ := e
    obtain ⟨hs, hd⟩ := List.nodup_cons.mp hd
    rw [List.reverse_cons, List.lookup_append, ih hd, lookup_entry, lookup_entry, List.lookup_nil]
    split
    · rename_i hsx
      rw [lookup_of_notMem (hsx ▸ hs)]
      rfl
    · rw [Option.or_none]

/-- The log level is built in, so it has a value. -/
theorem chosen?_level (e : EntryPoint) (maps : List (List (String × Value))) :
    ∃ v, chosen? h maps e.sections.reverse levelName = some v := by
  rw [← Option.isSome_iff_exists, chosen?, List.isSome_findSome?, List.any_eq_true]
  refine ⟨Section.logging, by cases e <;> simp [EntryPoint.sections], ?_⟩
  show ((given? h maps Section.logging.name levelName).or (some (.text "INFO"))).isSome = true
  rw [Option.isSome_or]
  exact Bool.or_true _

/-- Among files that hold sections, the first section that has the option names the level. -/
theorem settledLevel_files {e : EntryPoint} {texts : List String}
    {maps : List (List (String × Value))} {settings : List (String × Value)}
    (hs : List.Forall₂ (Says h) texts maps)
    (hgiven : settingsOf h ⟨e.name, (texts.map Except.ok).reverse⟩ = .ok settings) :
    some (settledLevel settings) = chosen? h maps e.sections.reverse levelName := by
  obtain ⟨found, hfound, hd, hlookup⟩ := settingsOf_files e hs
  obtain rfl := settings_passOn (hfound.symm.trans hgiven)
  obtain ⟨v, hv⟩ := chosen?_level (h := h) e maps
  rw [settledLevel, lookup_reverse hd, hlookup, hv]
  rfl

/-- **The level in effect is the named one just where a line gives it, or the settings name the
level that a command starts at.** Let a line be read. If the option for the log level is among its
words, the last one decides on what is named and what is in effect. If it is not, the level that the
settings name is named: among files that hold sections, that of the first section that has the
option. The level in effect is still the one that a command starts at. -/
theorem level_told (h : Heap) (e : EntryPoint) (c : Setting) (words : List String) (a : Arguments)
    (hl : readLine h (.ofEntryPoint e) c words = .ok a) :
    ∃ settings told, settingsOf h c = .ok settings ∧
      tellWords (Grammar.ofEntryPoint e).switches words = .ok told ∧
      (∀ texts maps, List.Forall₂ (Says h) texts maps →
        c = ⟨e.name, (texts.map Except.ok).reverse⟩ →
        some (settledLevel settings) = chosen? h maps e.sections.reverse levelName) ∧
      (match lastGiven? levelName (usesOf (Grammar.ofEntryPoint e).switches told) with
        | some s => a.get levelName = .text s ∧ levelNames.lookup s = some a.level
        | none => a.get levelName = settledLevel settings ∧ a.level = .info) ∧
      (Names h (a.get levelName) a.level ↔
        (lastGiven? levelName (usesOf (Grammar.ofEntryPoint e).switches told)).isSome ∨
          Names h (settledLevel settings) .info) := by
  obtain ⟨settings, told, r, hsettings, htold, hr, rfl⟩ := readLine_ok hl
  obtain ⟨hname, hlevel⟩ := start_level e settings
  have hleveled := leveled_takeWords (separate_ofEntryPoint e) (tellWords_known htold)
    (fun _ hw => hw) hr
  refine ⟨settings, told, hsettings, htold, fun texts maps hs hc =>
    settledLevel_files hs (hc ▸ hsettings), ?_⟩
  rw [Arguments.get]
  cases hgiven : lastGiven? levelName (usesOf (Grammar.ofEntryPoint e).switches told) with
  | none =>
    rw [hgiven] at hleveled
    obtain ⟨hkept, hstays⟩ := hleveled
    rw [hkept, hname, hstays, hlevel]
    exact ⟨⟨rfl, rfl⟩, by simp⟩
  | some s =>
    rw [hgiven] at hleveled
    obtain ⟨hset, hin⟩ := hleveled
    rw [hset]
    exact ⟨⟨rfl, hin⟩, by simpa using ⟨s, rfl, hin⟩⟩

/-! ### Two lines -/

theorem says_far : List.Forall₂ (Says .empty) [farText] [farFile] := by
  cases says_files with
  | cons _ hfar => exact hfar

theorem settings_far : ∃ settings,
    settingsOf .empty ⟨"diffit-diff", [.ok farText]⟩ = .ok settings ∧
      settledLevel settings = .text "DEBUG" := by
  obtain ⟨found, hfound, hd, hlookup⟩ := settingsOf_files .comparing says_far
  refine ⟨found, hfound.trans (mapM_passOn (hlookup "self")), ?_⟩
  rw [settledLevel, lookup_reverse hd, hlookup]
  rfl

/-- The option for the log level. -/
def levelSwitch : Switch := ⟨["--log-level"], "log_level", .logLevel, some (.text "INFO")⟩

/-- Two operands fill the two places of a comparison. -/
theorem takeWords_pair (hr : r.waiting = ["old", "new"]) :
    takeWords h g c r [.operand "a.json", .operand "b.json"] = .ok { r with
      values := setNamed "new" (.text "b.json") (setNamed "old" (.text "a.json") r.values)
      waiting := [] } := by
  simp [takeWords, takeOperand, hr]

/-- The option for the log level sets it. -/
theorem takeWords_error : takeWords h g c r (.switch levelSwitch .none :: .operand "ERROR" :: ws) =
    takeWords h g c { r with
      values := setNamed levelName (.text "ERROR") r.values
      level := .error
      extras := r.extras ++ [] } ws := by
  rw [takeWords]
  rfl

theorem told_error : tellWords (Grammar.ofEntryPoint .comparing).switches
    ["--log-level", "ERROR", "a.json", "b.json"] =
      .ok [.switch levelSwitch .none, .operand "ERROR", .operand "a.json", .operand "b.json"] := rfl

theorem told_operands : tellWords (Grammar.ofEntryPoint .comparing).switches ["a.json", "b.json"] =
    .ok [.operand "a.json", .operand "b.json"] := rfl

theorem level_told_error : ∃ a, readLine .empty (.ofEntryPoint .comparing)
      ⟨EntryPoint.comparing.name, [.ok farText]⟩ ["--log-level", "ERROR", "a.json", "b.json"] = .ok a ∧
    a.get levelName = .text "ERROR" ∧ a.level = .error := by
  obtain ⟨settings, hsettings, _⟩ := settings_far
  have hline : ∃ a, readLine .empty (.ofEntryPoint .comparing)
      ⟨EntryPoint.comparing.name, [.ok farText]⟩ ["--log-level", "ERROR", "a.json", "b.json"] =
        .ok a :=
    ⟨_, readLine_of hsettings told_error (takeWords_error.trans (takeWords_pair rfl)) rfl rfl⟩
  obtain ⟨a, ha⟩ := hline
  obtain ⟨_, told, _, htold, -, hlevel, -⟩ := level_told _ _ _ _ _ ha
  obtain rfl := Except.ok.inj (told_error.symm.trans htold)
  have huses : usesOf (Grammar.ofEntryPoint .comparing).switches
      [.switch levelSwitch .none, .operand "ERROR", .operand "a.json", .operand "b.json"] =
        [(levelSwitch, "ERROR")] := by
    rw [usesOf]
    show [(levelSwitch, "ERROR")] ++ usesOf _ [.operand "a.json", .operand "b.json"] = _
    rw [usesOf_operand, usesOf_operand, usesOf]
    rfl
  rw [huses] at hlevel
  obtain ⟨hname, hin⟩ := hlevel
  exact ⟨a, ha, hname, (Option.some.inj hin).symm⟩

/-- **The level that settings name does not come into effect**: `DEBUG` is named, and the level is
the one that a command starts at. -/
theorem level_unset : List.Forall₂ (Says .empty) [farText] [farFile] ∧
    ∃ a, readLine .empty (.ofEntryPoint .comparing) ⟨EntryPoint.comparing.name, [.ok farText]⟩
        ["a.json", "b.json"] = .ok a ∧
      Names .empty (a.get levelName) .debug ∧ a.level = .info := by
  obtain ⟨settings, hsettings, hnamed⟩ := settings_far
  refine ⟨says_far, _, readLine_of hsettings told_operands (takeWords_pair rfl) rfl rfl, ?_, rfl⟩
  have hget : Arguments.get ⟨setNamed "new" (.text "b.json") (setNamed "old" (.text "a.json")
      (start (.ofEntryPoint .comparing) settings).values), .info⟩ levelName = .text "DEBUG" := by
    rw [Arguments.get, lookup_setNamed, if_neg (by decide), lookup_setNamed, if_neg (by decide),
      (start_level .comparing settings).1, hnamed]
    rfl
  exact ⟨"DEBUG", congrArg (fun v => (Heap.empty.view v).text?) hget, rfl⟩

end DocDelta.Command
