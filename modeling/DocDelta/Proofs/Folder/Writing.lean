import DocDelta.Folder
import DocDelta.Proofs.Text.Splitting

/-! What writing a file changes.

A file that was written has its content, and a folder knows everything else as before (`Elsewhere`).
Whether it may be written does not depend on what it holds, so a file that was written once can be
written again, and only the last content counts (`write_again`). -/
namespace DocDelta.Folder
variable {d d' : Folder} {p q : Path} {f : File} {name : String} {content : Content} {now : Int}

/-! ### Places -/

/-- The place of a path: the names from the root, or from here. -/
theorem sameAs_iff : p.sameAs q = true ↔ (p.absolute, p.names) = (q.absolute, q.names) := by
  rw [Path.sameAs, Bool.and_eq_true, beq_iff_eq, beq_iff_eq, Prod.mk.injEq]

/-- What is in one place is in the place of the other or not. -/
theorem sameAs_congr (hs : p.sameAs q = true) (x : Path) : x.sameAs p = x.sameAs q := by
  obtain ⟨habsolute, hnames⟩ := Prod.mk.inj (sameAs_iff.mp hs)
  rw [Path.sameAs, Path.sameAs, habsolute, hnames]

theorem sameAs_trans {x : Path} (hp : x.sameAs p = true) (hq : x.sameAs q = true) :
    p.sameAs q = true :=
  sameAs_iff.mpr ((sameAs_iff.mp hp).symm.trans (sameAs_iff.mp hq))

/-- A path is not in its own place, unless it leads nowhere. -/
theorem sameAs_parent (hn : p.names ≠ []) : p.sameAs p.parent = false := by
  rw [Bool.eq_false_iff]
  intro hs
  have hnames : p.names = p.names.dropLast := (Prod.mk.inj (sameAs_iff.mp hs)).2
  have hlength := congrArg List.length hnames
  rw [List.length_dropLast] at hlength
  have := List.length_pos_iff.mpr hn
  omega

/-- A name that leads to no folder on the way stands for itself. -/
theorem ofText_name {s : String} (hs : '/' ∉ s.toList) (hn : s ≠ "" ∧ s ≠ ".")
    (hr : s.startsWith "/" = false) : Path.ofText s = ⟨false, [s], false⟩ := by
  have hcut : s.splitOn "/" = [s] := Text.splitOn_lacks (c := '/') hs
  simp [Path.ofText, hcut, hn, hr]

/-- Nothing in the folder is the null device. -/
theorem isNull_relative (ha : p.absolute = false) : p.isNull = false := by
  have hnull : (Path.ofText Path.nullDevice).absolute = true := by decide +kernel
  rw [Path.isNull, beq_eq_false_iff_ne]
  rintro rfl
  rw [hnull] at ha
  cases ha

/-! ### Files -/

/-- Entries in one place, given another file. -/
def placeAt (p : Path) (f : File) (e : Path × File) : Path × File :=
  if e.1.sameAs p then (e.1, f) else e

theorem placeAt_fst (p : Path) (f : File) (e : Path × File) : (placeAt p f e).1 = e.1 := by
  rw [placeAt]
  split <;> rfl

theorem put_eq (d : Folder) (p : Path) (f : File) : d.put p f =
    { d with files :=
        if (d.file? p).isSome then d.files.map (placeAt p f) else d.files ++ [(p, f)] } := by
  rw [put]
  split <;> rfl

/-- **A file that was put is found in its place**, and every other one in its own. -/
theorem file?_put (d : Folder) (p : Path) (f : File) (q : Path) :
    (d.put p f).file? q = if p.sameAs q then some f else d.file? q := by
  have hlooks : (fun e : Path × File => e.1.sameAs q) ∘ placeAt p f = fun e => e.1.sameAs q := by
    funext e
    rw [Function.comp_apply, placeAt_fst]
  rw [put_eq]
  unfold file?
  dsimp only
  split
  · rename_i hheld
    rw [List.find?_map, hlooks]
    split
    · rename_i hsame
      simp only [sameAs_congr hsame] at hheld
      cases hfind : d.files.find? fun e => e.1.sameAs q with
      | none =>
        rw [hfind] at hheld
        cases hheld
      | some e =>
        have hq : e.1.sameAs q = true := by simpa using List.find?_some hfind
        have hp : e.1.sameAs p = true := (sameAs_congr hsame e.1).trans hq
        rw [Option.map_some, Option.map_some, placeAt, if_pos hp]
    · rename_i hother
      cases hfind : d.files.find? fun e => e.1.sameAs q with
      | none => rfl
      | some e =>
        have hq : e.1.sameAs q = true := by simpa using List.find?_some hfind
        have hp : ¬ e.1.sameAs p = true := fun hp => hother (sameAs_trans hp hq)
        rw [Option.map_some, Option.map_some, placeAt, if_neg hp, Option.map_some]
  · rename_i hlacks
    have hnone : (d.files.find? fun e => e.1.sameAs p) = none := by simpa using hlacks
    rw [List.find?_append]
    split
    · rename_i hsame
      simp only [sameAs_congr hsame] at hnone
      rw [hnone, Option.none_or, List.find?_singleton, if_pos hsame]
      rfl
    · rename_i hother
      rw [List.find?_singleton, if_neg hother, Option.or_none]

/-- Only the last file that was put in a place counts. -/
theorem put_put (d : Folder) (p : Path) (f g : File) : (d.put p f).put p g = d.put p g := by
  have hself : p.sameAs p = true := sameAs_iff.mpr rfl
  have hheld : ((d.put p f).file? p).isSome = true := by
    rw [file?_put, hself]
    rfl
  have hover : placeAt p g ∘ placeAt p f = placeAt p g := by
    funext e
    by_cases he : e.1.sameAs p = true <;> simp [placeAt, he]
  rw [put_eq (d.put p f), if_pos hheld, put_eq, put_eq]
  dsimp only
  split
  · rw [List.map_map, hover]
  · rename_i hlacks
    have hnone : ∀ e ∈ d.files, ¬ e.1.sameAs p = true := by simpa [file?] using hlacks
    have hkeeps : d.files.map (placeAt p g) = d.files :=
      (List.map_congr_left fun e he => if_neg (hnone e he)).trans (List.map_id _)
    rw [List.map_append, hkeeps, List.map_singleton, placeAt, if_pos hself]

theorem folders_put (d : Folder) (p : Path) (f : File) : (d.put p f).folders = d.folders := by
  rw [put_eq]

/-- Two folders that hold the same, except for one file. -/
structure Elsewhere (p : Path) (d d' : Folder) : Prop where
  folders : d'.folders = d.folders
  file : ∀ q, p.sameAs q = false → d'.file? q = d.file? q

theorem Elsewhere.refl (p : Path) (d : Folder) : Elsewhere p d d := ⟨rfl, fun _ _ => rfl⟩

theorem elsewhere_put (d : Folder) (p : Path) (f : File) : Elsewhere p d (d.put p f) := by
  refine ⟨folders_put d p f, fun q hq => ?_⟩
  rw [file?_put, hq]
  rfl

/-! ### Writing -/

theorem write_ok (hw : d.write name content now = .ok d') :
    d.refusal name = none ∧ d' = if (Path.ofText name).isNull then d
      else d.put (.ofText name) ⟨content, now⟩ := by
  rw [write] at hw
  split at hw
  · cases hw
  · rename_i hr
    exact ⟨hr, (Except.ok.inj hw).symm⟩

theorem write_granted (hr : d.refusal name = none) (content : Content) (now : Int) :
    ∃ d', d.write name content now = .ok d' := by
  rw [write, hr]
  exact ⟨_, rfl⟩

theorem write_error {e : Fault} :
    d.write name content now = .error e ↔ d.refusal name = some e := by
  rw [write]
  cases d.refusal name <;> simp

/-- **Writing a file changes nothing else.** -/
theorem elsewhere_write (hw : d.write name content now = .ok d') :
    Elsewhere (.ofText name) d d' := by
  obtain ⟨_, rfl⟩ := write_ok hw
  by_cases hnull : (Path.ofText name).isNull = true
  · rw [if_pos hnull]
    exact .refl _ d
  · rw [if_neg hnull]
    exact elsewhere_put d _ _

theorem Elsewhere.isFolder (he : Elsewhere p d d') (q : Path) : d'.isFolder q = d.isFolder q := by
  rw [Folder.isFolder, Folder.isFolder, he.folders]

/-- What may be written: the null device, and whatever is no folder but lies in one. -/
theorem refusal_eq_none : d.refusal name = none ↔ name ≠ "" ∧ Char.ofNat 0 ∉ name.toList ∧
    ((Path.ofText name).isNull = true ∨ d.isFolder (.ofText name) = false ∧
      d.file? (Path.ofText name).parent = none ∧ d.isFolder (Path.ofText name).parent = true ∧
        (Path.ofText name).folderOnly = false) := by
  unfold refusal
  generalize Path.ofText name = p
  dsimp only
  split
  · rename_i hname
    simp [hname]
  rename_i hname
  split
  · rename_i hchars
    simpa using fun _ hlacks => absurd (by simpa using hchars) hlacks
  rename_i hchars
  have hlacks : Char.ofNat 0 ∉ name.toList := by simpa using hchars
  split
  · rename_i hnull
    simp [hname, hlacks, hnull]
  rename_i hnull
  split
  · rename_i hfolder
    simp [hfolder, hnull]
  rename_i hfolder
  split
  · rename_i hfile
    simp [hnull, Option.isSome_iff_ne_none.mp hfile]
  rename_i hfile
  rw [Bool.not_eq_true, Option.isSome_eq_false_iff, Option.isNone_iff_eq_none] at hfile
  split
  · rename_i hlies
    rw [Bool.not_eq_true'] at hlies
    simp [hnull, hlies]
  rename_i hlies
  rw [Bool.not_eq_true', Bool.not_eq_false] at hlies
  split
  · rename_i hplain
    rw [Bool.not_eq_true'] at hplain
    simp [hname, hlacks, hfolder, hfile, hlies, hplain]
  · rename_i hslash
    rw [Bool.not_eq_true', Bool.not_eq_false] at hslash
    have hrefused : (if (d.file? p).isSome then some Fault.notADirectory
        else some .isDirectory) ≠ none := by
      split <;> nofun
    simp [hnull, hslash, hrefused]

/-- What may be written may be written again. -/
theorem refusal_write (hw : d.write name content now = .ok d') : d'.refusal name = none := by
  have helse := elsewhere_write hw
  obtain ⟨hname, hchars, hplace⟩ := refusal_eq_none.mp (write_ok hw).1
  refine refusal_eq_none.mpr ⟨hname, hchars, hplace.imp_right ?_⟩
  rintro ⟨hfolder, hparent, hlies, hf⟩
  have hnames : (Path.ofText name).names ≠ [] := by
    intro hn
    rw [isFolder, hn] at hfolder
    cases hfolder
  rw [helse.isFolder, helse.isFolder, helse.file _ (sameAs_parent hnames)]
  exact ⟨hfolder, hparent, hlies, hf⟩

/-- **Writing a file again leaves the last content only.** -/
theorem write_again {last : Content} (hw : d.write name content now = .ok d') :
    d'.write name last now = d.write name last now := by
  have hagain := refusal_write hw
  obtain ⟨hr, rfl⟩ := write_ok hw
  rw [write, write, hagain, hr]
  dsimp only
  by_cases hnull : (Path.ofText name).isNull = true
  · simp only [if_pos hnull]
  · simp only [if_neg hnull, put_put]

end DocDelta.Folder
