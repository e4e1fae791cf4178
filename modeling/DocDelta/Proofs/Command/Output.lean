import DocDelta.Command.Run
import DocDelta.Proofs.Diff.Encoding
import DocDelta.Proofs.Folder.Writing

/-! What a comparison leaves in the files that are named for its patch.

Up to the patch a run only reads (`Still`). Then the files are written one after another, and
nothing is undone. The JSON of a patch of documents never fails to be made, so only the file for the
BSON can be opened in vain, when the JSON is already there (`outputs_kept`). -/
namespace DocDelta.Command
open Heap Folder Json
variable {α β : Type} {c c' : Console}

/-! ### Runs that leave the files alone -/

/-- A run that leaves the folder as it is, however it ends, and takes no time. -/
def Still (m : Run α) : Prop :=
  ∀ c, (m.run c).2.folder = c.folder ∧ (m.run c).2.now = c.now

theorem still_pure (a : α) : Still (pure a) := fun _ => ⟨rfl, rfl⟩

theorem still_throw (e : Exit) : Still (throw e : Run α) := fun _ => ⟨rfl, rfl⟩

theorem run_get (c : Console) : (get : Run Console).run c = (.ok c, c) := rfl

theorem still_get : Still (get : Run Console) := fun _ => ⟨rfl, rfl⟩

theorem run_demand (answer : Except Fault α) (c : Console) :
    (demand answer).run c = (answer.mapError .fault, c) := rfl

theorem still_demand (answer : Except Fault α) : Still (demand answer) := fun _ => ⟨rfl, rfl⟩

theorem still_print (s : String) : Still (print s) := fun _ => ⟨rfl, rfl⟩

theorem run_note (m : Message) (c : Console) : (note m).run c =
    (.ok (), if c.level.rank ≤ m.level.rank then { c with log := c.log ++ [m] } else c) := rfl

theorem still_note (m : Message) : Still (note m) := by
  intro c
  rw [run_note]
  split <;> exact ⟨rfl, rfl⟩

theorem still_bind {m : Run α} {f : α → Run β} (hm : Still m) (hf : ∀ a, Still (f a)) :
    Still (m >>= f) := by
  intro c
  obtain ⟨hfolder, hnow⟩ := hm c
  rw [run_bind]
  rcases hr : m.run c with ⟨e | a, d⟩
  · rw [hr] at hfolder hnow
    exact ⟨hfolder, hnow⟩
  · rw [hr] at hfolder hnow
    obtain ⟨hfolder', hnow'⟩ := hf a d
    exact ⟨hfolder'.trans hfolder, hnow'.trans hnow⟩

theorem still_ite {p : Prop} [Decidable p] {m k : Run α} (hm : Still m) (hk : Still k) :
    Still (if p then m else k) := by
  split
  · exact hm
  · exact hk

theorem still_forM {γ : Type} {f : γ → Run Unit} {xs : List γ} (hf : ∀ x, Still (f x)) :
    Still (xs.forM f) := by
  induction xs with
  | nil => exact still_pure ()
  | cons x xs ih => exact still_bind (hf x) fun _ => ih

theorem still_printPage (page : Report.Page Unit) : Still (printPage page) := by
  unfold printPage
  split
  exact still_bind (still_print _) fun _ => still_demand _

theorem still_fileName (h : Heap) (v : Value) : Still (fileName h v) := by
  unfold fileName
  split
  · exact still_pure _
  · exact still_throw _

theorem still_requireFile (name : String) : Still (requireFile name) := by
  refine still_bind still_get fun c => still_ite ?_ (still_pure ())
  exact still_bind (still_print _) fun _ => still_throw _

/-- The document in a file. -/
def documentIn (d : Folder) (name : String) : Except Fault Value :=
  if name = Path.nullDevice then Json.absentDocument .empty (.text "none")
  else d.readText name >>= Json.readDocument .double

theorem run_readDocument (name : String) (c : Console) :
    (readDocument name).run c = ((documentIn c.folder name).mapError .fault, c) := by
  unfold readDocument documentIn
  split
  · rfl
  · rw [run_bind_eq (run_get c), run_bind, run_demand]
    cases hr : c.folder.readText name with
    | error f => rfl
    | ok s => rfl

theorem run_readDocument_ok {name : String} {v : Value} (hv : documentIn c.folder name = .ok v) :
    (readDocument name).run c = (.ok v, c) := by
  rw [run_readDocument, hv]
  rfl

theorem still_readDocument (name : String) : Still (readDocument name) := by
  intro c
  rw [run_readDocument]
  exact ⟨rfl, rfl⟩

theorem still_compareDocuments (a : Arguments) (old new : Value) :
    Still (compareDocuments a old new) := by
  unfold compareDocuments
  split
  refine still_bind (still_demand _) fun o => ?_
  split
  · exact still_pure _
  · refine still_bind (still_forM still_note) fun _ => ?_
    dsimp only
    split
    · exact still_bind (still_note _) fun _ => still_throw _
    · exact still_throw _

/-! ### The patch -/

/-- The patch of the two files of a comparison, and the heap that their documents are in. -/
def Finds (a : Arguments) (d : Folder) (h : Heap) (p : Patch) : Prop :=
  ∃ old new x y i j options messages,
    (Heap.empty.view (a.get "old")).text? = some old ∧
    (Heap.empty.view (a.get "new")).text? = some new ∧
    documentIn d old = .ok x ∧ documentIn d new = .ok y ∧
    (do return (← Heap.intern x, ← Heap.intern y) : StateM Heap _).run .empty = ((i, j), h) ∧
    a.options h = .ok options ∧ Diff.diff h options (.ref i) (.ref j) = (.ok p, messages)

theorem noted_documentIn {d : Folder} {name : String} {v : Value} (hv : documentIn d name = .ok v) :
    Noted v := by
  unfold documentIn at hv
  split at hv
  · cases hv
    exact .nil
  · obtain ⟨s, _, hv⟩ := bind_eq_ok.mp hv
    exact noted_read (of_mapError hv)

theorem fileName_ok {h : Heap} {v : Value} {name : String}
    (hr : (fileName h v).run c = (.ok name, c')) : (h.view v).text? = some name := by
  unfold fileName at hr
  split at hr
  · rename_i s hs
    cases hr
    exact hs
  · cases hr

theorem readDocument_ok {name : String} {v : Value} (hr : (readDocument name).run c = (.ok v, c')) :
    documentIn c.folder name = .ok v := by
  rw [run_readDocument] at hr
  exact of_mapError (congrArg Prod.fst hr)

theorem compareDocuments_ok {a : Arguments} {x y : Value} {h : Heap} {p : Patch}
    {messages : List Message}
    (hr : (compareDocuments a x y).run c = (.ok (h, p, messages), c')) : ∃ i j options,
    (do return (← Heap.intern x, ← Heap.intern y) : StateM Heap _).run .empty = ((i, j), h) ∧
    a.options h = .ok options ∧ Diff.diff h options (.ref i) (.ref j) = (.ok p, messages) := by
  unfold compareDocuments at hr
  split at hr
  rename_i i j g hrun
  obtain ⟨options, d, hdemand, hr⟩ := run_bind_ok hr
  have hoptions : a.options g = .ok options := of_mapError (congrArg Prod.fst hdemand)
  split at hr
  · rename_i q log hdiff
    cases hr
    exact ⟨i, j, options, hrun, hoptions, hdiff⟩
  · obtain ⟨_, _, _, hr⟩ := run_bind_ok hr
    dsimp only at hr
    split at hr
    · obtain ⟨_, _, _, hr⟩ := run_bind_ok hr
      cases hr
    · cases hr

theorem run_compareDocuments {a : Arguments} {x y : Value} {i j : Addr} {h : Heap} {p : Patch}
    {options : Diff.Options} {messages : List Message}
    (hi : (do return (← Heap.intern x, ← Heap.intern y) : StateM Heap _).run .empty = ((i, j), h))
    (ho : a.options h = .ok options)
    (hd : Diff.diff h options (.ref i) (.ref j) = (.ok p, messages)) (c : Console) :
    (compareDocuments a x y).run c = (.ok (h, p, messages), c) := by
  unfold compareDocuments
  split
  rename_i i' j' g hrun
  cases hrun.symm.trans hi
  have hoptions : (demand (a.options h)).run c = (.ok options, c) := by
    rw [run_demand, ho]
    rfl
  rw [run_bind_eq hoptions]
  split
  · rename_i hdiff
    cases hdiff.symm.trans hd
    rfl
  · rename_i hdiff
    cases hdiff.symm.trans hd

theorem Finds.writable {a : Arguments} {d : Folder} {h : Heap} {p : Patch} (hp : Finds a d h p) :
    Json.WritablePatch h p := by
  obtain ⟨_, _, x, y, i, j, _, _, _, _, hx, hy, hrun, _, hp⟩ := hp
  obtain ⟨i', h₁, hfirst, hs, _⟩ := storable_noted (noted_documentIn hx) .empty documents_empty
  obtain ⟨j', h₂, hsecond, hs', _⟩ := storable_noted (noted_documentIn hy) h₁ hs.documents
  rw [StateT.run_bind, hfirst] at hrun
  have hboth : ((i', j'), h₂) = ((i, j), h) := by
    refine Eq.trans ?_ hrun
    show _ = StateT.run (Heap.intern y >>= fun j => pure (i', j)) h₁
    rw [StateT.run_bind, hsecond]
    rfl
  cases hboth
  exact Diff.writablePatch_diff hs'.documents hp

/-! ### Files -/

theorem run_writeFile (name : String) (content : Content) (c : Console) :
    (writeFile name content).run c = match c.folder.write name content c.now with
      | .ok d => (.ok (), { c with folder := d })
      | .error f => (.error (.fault f), c) := by
  unfold writeFile
  rw [run_bind_eq (run_get c), run_bind, run_demand]
  cases c.folder.write name content c.now <;> rfl

theorem run_writeFile_ok {name : String} {content : Content} {d : Folder}
    (hw : c.folder.write name content c.now = .ok d) :
    (writeFile name content).run c = (.ok (), { c with folder := d }) := by
  rw [run_writeFile, hw]

/-- A file whose content was made is written as if it had not been opened before. -/
theorem run_createFile (name : String) (content : Content) (c : Console) :
    (createFile name (.ok content)).run c = (writeFile name content).run c := by
  unfold createFile
  rw [run_bind, run_writeFile, run_writeFile]
  cases hw : c.folder.write name (.text "") c.now with
  | error f =>
    rw [write_error.mpr (write_error.mp hw)]
  | ok d =>
    obtain ⟨d', hagain⟩ := write_granted (refusal_write hw) content c.now
    show (writeFile name content).run { c with folder := d } = _
    rw [run_writeFile, hagain, ← write_again hw, hagain]

/-- A file whose content could not be made was opened. -/
theorem run_createFile_error {name : String} {f : Fault} {d : Folder}
    (hw : c.folder.write name (.text "") c.now = .ok d) :
    (createFile name (.error f)).run c = (.error (.fault f), { c with folder := d }) := by
  rw [createFile, run_bind_eq (run_writeFile_ok hw)]
  rfl

/-! ### How a run ends -/

section Leaves
variable {Q : Except Exit α → Folder → Prop} {d : Folder} {now : Int}

/-- From the folder at the time, a run ends so. -/
def Leaves (Q : Except Exit α → Folder → Prop) (d : Folder) (now : Int) (m : Run α) : Prop :=
  ∀ c, c.folder = d → c.now = now → Q (m.run c).1 (m.run c).2.folder

theorem leaves_still {m : Run α} (hm : Still m) (hq : ∀ r, Q r d) : Leaves Q d now m := by
  rintro c rfl -
  rw [(hm c).1]
  exact hq _

/-- After a run that leaves the folder alone the next one starts from it, too. -/
theorem leaves_bind {m : Run β} {f : β → Run α} (hm : Still m) (hq : ∀ r, Q r d)
    (hf : ∀ b c c', c.folder = d → m.run c = (.ok b, c') → Leaves Q d now (f b)) :
    Leaves Q d now (m >>= f) := by
  rintro c rfl rfl
  obtain ⟨hfolder, hnow⟩ := hm c
  rw [run_bind]
  rcases hr : m.run c with ⟨e | b, c'⟩
  · rw [hr] at hfolder
    rw [hfolder]
    exact hq _
  · rw [hr] at hfolder hnow
    exact hf b c c' rfl hr c' hfolder hnow

/-- A file is refused, or opened and left empty, or written. -/
theorem leaves_createFile {name : String} {content : Except Fault Content} {k : Run α}
    (hr : ∀ f, d.refusal name = some f → Q (.error (.fault f)) d)
    (he : ∀ f d', content = .error f → d.write name (.text "") now = .ok d' →
      Q (.error (.fault f)) d')
    (hw : ∀ s d', content = .ok s → d.write name s now = .ok d' → Leaves Q d' now k) :
    Leaves Q d now (createFile name content >>= fun _ => k) := by
  rintro c rfl rfl
  rw [run_bind]
  cases content with
  | ok s =>
    rw [run_createFile, run_writeFile]
    cases hd : c.folder.write name s c.now with
    | error f => exact hr f (write_error.mp hd)
    | ok d' => exact hw s d' rfl hd _ rfl rfl
  | error f =>
    cases hd : c.folder.write name (.text "") c.now with
    | error g =>
      rw [createFile, run_bind, run_writeFile, hd]
      exact hr g (write_error.mp hd)
    | ok d' =>
      rw [run_createFile_error hd]
      exact he f d' rfl hd

end Leaves

/-! ### The files of a comparison -/

/-- The file that is named for an output; the empty name stands for none. -/
def named? (file : Option String) : Option String := file.filter (· ≠ "")

/-- The argument for an output. -/
def fileArgument (file : Option String) : Value := (file.map .text).getD .nil

theorem truthy_fileArgument (h : Heap) (file : Option String) :
    h.truthy (fileArgument file) = (named? file).isSome := by
  rcases file with _ | name
  · rfl
  · show (!name.isEmpty) = _
    by_cases hn : name = "" <;> simp [named?, hn, String.isEmpty_iff]

theorem fileName_fileArgument (h : Heap) {file : Option String} {name : String}
    (hn : named? file = some name) : fileName h (fileArgument file) = pure name := by
  obtain ⟨hfile, -⟩ := Option.filter_eq_some_iff.mp hn
  rw [hfile]
  rfl

/-- The folder after the JSON of a patch was written to the file that is named for it, if one is. -/
def WritesJson (h : Heap) (p : Patch) (out : Option String) (now : Int) (d d' : Folder) : Prop :=
  match named? out with
  | none => d' = d
  | some file => ∃ s, Json.writePatch h fileStyle p = .ok s ∧ d.write file (.text s) now = .ok d'

/-- A patch was found that changes something and whose BSON could not be written: the file for it
was refused, or the BSON could not be made. The JSON is in its file, and all but the file for the
BSON is otherwise as it was. -/
def CutShort (a : Arguments) (out bson : Option String) (now : Int) (d e : Folder) (f : Fault) :
    Prop :=
  ∃ h p name d', Finds a d h p ∧ p.isEmpty = false ∧ named? bson = some name ∧
    WritesJson h p out now d d' ∧ (d'.refusal name = some f ∨ Bson.writePatch h p = .error f) ∧
    Elsewhere (.ofText name) d' e

/-- How a comparison ends: it succeeds, nothing was written, or the BSON could not be. -/
def Ended (a : Arguments) (out bson : Option String) (now : Int) (d : Folder) (r : Except Exit Unit)
    (e : Folder) : Prop :=
  r = .ok () ∨ e = d ∨ ∃ f, r = .error (.fault f) ∧ CutShort a out bson now d e f

section Outputs
variable {a : Arguments} {out bson : Option String} {now : Int} {d d' : Folder} {h : Heap}
  {p : Patch} {k : Run Unit}

theorem ended_still (r : Except Exit Unit) : Ended a out bson now d r d := .inr (.inl rfl)

theorem leaves_json (ho : a.get "out" = fileArgument out) (hf : Finds a d h p)
    (hk : ∀ d', WritesJson h p out now d d' → Leaves (Ended a out bson now d) d' now k) :
    Leaves (Ended a out bson now d) d now (if h.truthy (a.get "out") = true then
      fileName h (a.get "out") >>= fun file =>
        createFile file ((Json.writePatch h fileStyle p).map .text) >>= fun _ => k
      else k) := by
  rw [ho, truthy_fileArgument]
  cases hn : named? out with
  | none => exact hk d (by rw [WritesJson, hn])
  | some file =>
    rw [fileName_fileArgument h hn, pure_bind]
    obtain ⟨s, hs⟩ : Answers (Json.writePatch h fileStyle p) :=
      answers_writePatch rfl rfl hf.writable
    rw [hs]
    refine leaves_createFile (fun f _ => ended_still _) nofun fun x d' hx hw => hk d' ?_
    cases hx
    rw [WritesJson, hn]
    exact ⟨s, hs, hw⟩

theorem leaves_bson (hb : a.get "bson" = fileArgument bson) (hf : Finds a d h p)
    (hd : WritesJson h p out now d d') (hn : named? bson ≠ none → k = pure ())
    (hk : Leaves (Ended a out bson now d) d' now k) (m : String → Message) :
    Leaves (Ended a out bson now d) d' now (if h.truthy (a.get "bson") = true then
      fileName h (a.get "bson") >>= fun name =>
        if p.isEmpty = true then note (m name) >>= fun _ => k
        else createFile name ((Bson.writePatch h p).map .bytes) >>= fun _ => k
      else k) := by
  rw [hb, truthy_fileArgument]
  cases hname : named? bson with
  | none => exact hk
  | some name =>
    rw [hn (by rw [hname]; nofun), fileName_fileArgument h hname, pure_bind]
    cases hp : p.isEmpty with
    | true => exact fun c _ _ => .inl rfl
    | false =>
      have hcut : ∀ f e, (d'.refusal name = some f ∨ Bson.writePatch h p = .error f) →
          Elsewhere (.ofText name) d' e → Ended a out bson now d (.error (.fault f)) e :=
        fun f e hf' he => .inr (.inr ⟨f, rfl, h, p, name, d', hf, hp, hname, hd, hf', he⟩)
      refine leaves_createFile (fun f hr => hcut f d' (.inl hr) (.refl _ d')) (fun f e hf' hw => ?_)
        fun s e _ _ c _ _ => .inl rfl
      refine hcut f e (.inr ?_) (elsewhere_write hw)
      cases hbytes : Bson.writePatch h p with
      | error g =>
        rw [hbytes] at hf'
        cases hf'
        rfl
      | ok bytes =>
        rw [hbytes] at hf'
        cases hf'

theorem leaves_shown (ho : a.get "out" = fileArgument out) (hd : WritesJson h p out now d d')
    (hk : Still k) (wanted : Bool) :
    Leaves (Ended a out bson now d) d' now
      (if (!h.truthy (a.get "out") && wanted) = true then k else pure ()) := by
  rw [ho, truthy_fileArgument]
  unfold WritesJson at hd
  cases hn : named? out with
  | none =>
    rw [hn] at hd
    cases hd
    exact leaves_still (still_ite hk (still_pure ())) ended_still
  | some file => exact fun c _ _ => .inl rfl

end Outputs

/-- The key of a document that BSON has no name for. -/
def nulKey : String := String.ofList ['a', Char.ofNat 0, 'b']

def nulText : String := "\x7b\"a\\u0000b\": 1\x7d"

def nulFolder : Folder :=
  ⟨[(⟨false, ["b.json"], false⟩, ⟨.text nulText, 0⟩),
    (⟨false, ["o.bson"], false⟩, ⟨.text "00", 0⟩)], []⟩

def nulArguments : Arguments :=
  ⟨[("old", .text Path.nullDevice), ("new", .text "b.json"), ("out", .text "o.json"),
    ("bson", .text "o.bson"), ("ignore", .list []), ("array_strategy", .text "replace"),
    ("zero_values", .text "set"), ("detect_pointer_sharing", .bool false)], .info⟩

/-- The heap with nothing and the document. -/
def nulHeap : Heap := ⟨#[.nil, .text none nulKey, .float none (.ofInt 1), .map none [(2, 3)]]⟩

theorem read_nulText : Json.read .double nulText = .ok (.table [(nulKey, .float (.ofInt 1))]) := by
  apply read_of_isCopy (h := .empty) <;> decide +kernel

theorem intern_nul : (do
    return (← Heap.intern .nil, ← Heap.intern (.table [(nulKey, .float (.ofInt 1))])) :
      StateM Heap _).run .empty = ((1, 4), nulHeap) := rfl

theorem diff_nul : ∃ p f, Diff.diff nulHeap ⟨[], .replace, .set, false, []⟩ (.ref 1) (.ref 4) =
    (.ok p, []) ∧ p.isEmpty = false ∧ Bson.writePatch nulHeap p = .error f := by
  have hlog : (Diff.diff nulHeap ⟨[], .replace, .set, false, []⟩ (.ref 1) (.ref 4)).2 = [] := by
    decide +kernel
  have hpatch : (Diff.diff nulHeap ⟨[], .replace, .set, false, []⟩ (.ref 1) (.ref 4)).1.toOption.any
      (fun p => !p.isEmpty && (Bson.writePatch nulHeap p).toOption.isNone) = true := by
    decide +kernel
  obtain ⟨p, hp, htest⟩ := ok_of_any hpatch
  obtain ⟨hempty, hbson⟩ := Bool.and_eq_true_iff.mp htest
  cases hbytes : Bson.writePatch nulHeap p with
  | error f => exact ⟨p, f, Prod.ext hp hlog, by simpa using hempty, hbytes⟩
  | ok bytes =>
    rw [hbytes] at hbson
    cases hbson

theorem bare_paths : Path.ofText "b.json" = ⟨false, ["b.json"], false⟩ ∧
    Path.ofText "o.json" = ⟨false, ["o.json"], false⟩ ∧
      Path.ofText "o.bson" = ⟨false, ["o.bson"], false⟩ := by
  refine ⟨ofText_name ?_ ?_ ?_, ofText_name ?_ ?_ ?_, ofText_name ?_ ?_ ?_⟩ <;> simp

theorem run_requireFile {name : String} (hn : c.folder.holds name = true) :
    (requireFile name).run c = (.ok (), c) := by
  unfold requireFile
  rw [run_bind_eq (run_get c), hn]
  rfl

theorem documents_nul : nulFolder.holds Path.nullDevice = true ∧ nulFolder.holds "b.json" = true ∧
    documentIn nulFolder Path.nullDevice = .ok .nil ∧
      documentIn nulFolder "b.json" = .ok (.table [(nulKey, .float (.ofInt 1))]) := by
  have hnull : Path.isNull ⟨false, ["b.json"], false⟩ = false := isNull_relative rfl
  have htext : nulFolder.readText "b.json" = .ok nulText := by
    have hplain : String.ofList (Content.plainBreaks nulText.toList) = nulText := by rfl
    rw [Folder.readText, bare_paths.1, if_neg (by decide), hnull]
    exact congrArg Except.ok hplain
  refine ⟨by simp [Folder.holds, Path.isNull, Path.nullDevice], ?_, by rfl, ?_⟩
  · rw [Folder.holds, bare_paths.1, hnull]
    decide
  · rw [documentIn, if_neg (by decide), htext]
    show Json.readDocument .double nulText = _
    rw [Json.readDocument, read_nulText]
    rfl

/-- Where there are no folders, files are written by their names. -/
theorem write_name {d : Folder} {name : String} (hp : Path.ofText name = ⟨false, [name], false⟩)
    (hn : name ≠ "" ∧ Char.ofNat 0 ∉ name.toList) (hd : d.folders = [])
    (hr : d.file? ⟨false, [], true⟩ = none) (content : Content) (now : Int) :
    d.write name content now = .ok (d.put ⟨false, [name], false⟩ ⟨content, now⟩) := by
  have hgranted : d.refusal name = none := by
    rw [refusal_eq_none, hp]
    refine ⟨hn.1, hn.2, .inr ⟨?_, hr, rfl, rfl⟩⟩
    rw [Folder.isFolder, hd]
    rfl
  rw [Folder.write, hgranted, hp, isNull_relative rfl]
  rfl

theorem run_nul : ∃ f c', runWith (runDiff nulArguments) (.start nulFolder [] 0) = (.fault f, c') ∧
    (c'.folder.file? ⟨false, ["o.json"], false⟩).isSome ∧
    c'.folder.file? ⟨false, ["o.bson"], false⟩ = some ⟨.text "", 0⟩ := by
  obtain ⟨p, f, hdiff, hp, hf⟩ := diff_nul
  obtain ⟨hold, hnew, hnothing, hdocument⟩ := documents_nul
  obtain ⟨-, hjson, hbson⟩ := bare_paths
  have hfinds : Finds nulArguments nulFolder nulHeap p :=
    ⟨_, _, _, _, 1, 4, _, [], rfl, rfl, hnothing, hdocument, intern_nul, rfl, hdiff⟩
  obtain ⟨s, hs⟩ : Answers (Json.writePatch nulHeap fileStyle p) :=
    answers_writePatch rfl rfl hfinds.writable
  let c := Console.start nulFolder [] 0
  let d := nulFolder.put ⟨false, ["o.json"], false⟩ ⟨.text s, 0⟩
  have hout : (createFile "o.json" ((Json.writePatch nulHeap fileStyle p).map .text)).run c =
      (.ok (), { c with folder := d }) := by
    rw [hs]
    exact (run_createFile ..).trans (run_writeFile_ok (write_name hjson (by decide) rfl rfl _ _))
  have hkept : d.file? ⟨false, [], true⟩ = none := by
    rw [file?_put]
    rfl
  let d' := d.put ⟨false, ["o.bson"], false⟩ ⟨.text "", 0⟩
  have hbytes : (createFile "o.bson" ((Bson.writePatch nulHeap p).map .bytes)).run
      { c with folder := d } = (.error (.fault f), { c with folder := d' }) := by
    rw [hf]
    exact run_createFile_error (write_name hbson (by decide) (folders_put ..) hkept _ _)
  have hrun : (runDiff nulArguments).run c = (.error (.fault f), { c with folder := d' }) := by
    unfold runDiff
    rw [run_bind_eq (a := Path.nullDevice) (u := c) (by rfl), run_bind_eq (run_requireFile hold),
      run_bind_eq (a := "b.json") (u := c) (by rfl), run_bind_eq (run_requireFile hnew),
      run_bind_eq (run_readDocument_ok hnothing), run_bind_eq (run_readDocument_ok hdocument),
      run_bind_eq (run_compareDocuments intern_nul rfl hdiff c)]
    dsimp only
    rw [run_bind_eq (a := ()) (u := c) (by rfl), if_pos (by rfl),
      run_bind_eq (a := "o.json") (u := c) (by rfl), run_bind_eq hout, if_pos (by rfl),
      run_bind_eq (a := "o.bson") (u := { c with folder := d }) (by rfl), hp, if_neg (by decide),
      run_bind, hbytes]
  refine ⟨f, _, by rw [runWith, hrun], ?_, ?_⟩
  · rw [file?_put, if_neg (by decide), file?_put]
    rfl
  · rw [file?_put]
    rfl

end DocDelta.Command
