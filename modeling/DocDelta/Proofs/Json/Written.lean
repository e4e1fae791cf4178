import DocDelta.Json.Writer
import DocDelta.Proofs.Document.Copies

/-! What is written for a document and for its copy.

The writer looks at a scalar without its class and at the characters of a key, and goes through
lists and maps in their order unless it sorts them, so a document and its copy have one text. -/
namespace DocDelta.Json
open Heap
variable {h : Heap} {style : Style} {fallback : Fallback} {v d : Value}

/-- Going through two lists side by side gives one list where it gives one thing at each place. -/
theorem mapM_forall₂ {α β γ : Type} {f : α → Except Fault γ} {g : β → Except Fault γ} {xs : List α}
    {ys : List β} (hp : List.Forall₂ (fun x y => f x = g y) xs ys) : xs.mapM f = ys.mapM g := by
  induction hp with
  | nil => rfl
  | cons hxy _ ih => rw [List.mapM_cons, List.mapM_cons, hxy, ih]

theorem filterMapM_forall₂ {α β γ : Type} {f : α → Except Fault (Option γ)}
    {g : β → Except Fault (Option γ)} {xs : List α} {ys : List β}
    (hp : List.Forall₂ (fun x y => f x = g y) xs ys) : xs.filterMapM f = ys.filterMapM g := by
  induction hp with
  | nil => rfl
  | cons hxy _ ih => rw [List.filterMapM_cons, List.filterMapM_cons, hxy, ih]

theorem whole?_view (v : Value) : h.whole? v = match h.view v with
    | .member c _ w => if c.isWhole then (h.view w).whole? else none
    | o => o.whole? := rfl

/-- A scalar is written as what it is without its class. -/
theorem writeWithin_bare {n m level : Nat} {z : Object Value} (hz : Bare (h.view v) z) :
    writeWithin h style fallback (n + 1) level v =
      writeWithin h style fallback (m + 1) level (.inline z) := by
  rw [writeWithin, writeWithin, whole?_view v]
  generalize h.view v = o at hz
  cases hz <;> rfl

/-- An entry of a map as it is written. -/
def writeEntry (h : Heap) (style : Style) (write : Value → Except Fault String)
    (e : Value × Value) : Except Fault (Option String) := do
  match ← keyText h style e.1 with
  | none => return none
  | some s => return some (quoted style.asciiOnly s ++ style.keySeparator ++ (← write e.2))

theorem writeWithin_map (n level : Nat) (es : List (Value × Value)) (hs : style.sortsKeys = false) :
    writeWithin h style fallback (n + 1) level (.map es) = (do
      let items ← es.filterMapM (writeEntry h style (writeWithin h style fallback n (level + 1)))
      return bracketed style level "\x7b" "\x7d" es.isEmpty items) := by
  have hordered : orderedEntries h style es = .ok es := by
    rw [orderedEntries, hs]
    rfl
  show (orderedEntries h style es >>= fun es' =>
    es'.filterMapM (writeEntry h style (writeWithin h style fallback n (level + 1))) >>=
      fun items => pure (bracketed style level "\x7b" "\x7d" es.isEmpty items)) = _
  rw [hordered]
  rfl

theorem writeWithin_list (n level : Nat) (xs : List Value) :
    writeWithin h style fallback (n + 1) level (.list xs) = (do
      let items ← xs.mapM (writeWithin h style fallback n (level + 1))
      return bracketed style level "[" "]" xs.isEmpty items) := rfl

theorem keyText_text {key : Value} {s : String} (hk : (h.view key).text? = some s) :
    keyText h style key = .ok (some s) := by
  unfold keyText
  generalize h.view key = o at hk
  cases o <;> cases hk
  rfl

/-- **A document and its copy have one text**, where there is room for the copy. -/
theorem writeWithin_copies (hc : Copies h v d) (hs : style.sortsKeys = false) {n m : Nat}
    (hn : d.depth ≤ n) (hm : d.depth ≤ m) (level : Nat) :
    writeWithin h style fallback n level v = writeWithin h style fallback m level d := by
  induction hc using Copies.layers generalizing n m level with
  | @scalar v z hz =>
    rw [depth_bare hz] at hn hm
    obtain ⟨n, rfl⟩ : ∃ k, n = k + 1 := ⟨n - 1, by omega⟩
    obtain ⟨m, rfl⟩ : ∃ k, m = k + 1 := ⟨m - 1, by omega⟩
    exact writeWithin_bare hz
  | @list xs ys hp hc =>
    have hdepth : (Value.list ys).depth = Value.listDepth ys + 1 := rfl
    obtain ⟨n, rfl⟩ : ∃ k, n = k + 1 := ⟨n - 1, by omega⟩
    obtain ⟨m, rfl⟩ : ∃ k, m = k + 1 := ⟨m - 1, by omega⟩
    have hempty : xs.isEmpty = ys.isEmpty := by
      cases hp <;> rfl
    have hitems : List.Forall₂ (fun x y => writeWithin h style fallback n (level + 1) x =
        writeWithin h style fallback m (level + 1) y) xs ys := by
      refine List.forall₂_iff_zip.mpr ⟨hp.length_eq, fun {x y} hxy => ?_⟩
      obtain ⟨_, hwrite⟩ := (List.forall₂_iff_zip.mp hp).2 hxy
      have hy := depth_le_listDepth (List.of_mem_zip hxy).2
      exact hwrite (by omega) (by omega) (level + 1)
    rw [writeWithin_list, writeWithin_list, mapM_forall₂ hitems, hempty]
  | @map es ds hp hd hc =>
    have hdepth : (Value.table ds).depth = Value.entriesDepth (namedEntries ds) + 1 := rfl
    obtain ⟨n, rfl⟩ : ∃ k, n = k + 1 := ⟨n - 1, by omega⟩
    obtain ⟨m, rfl⟩ : ∃ k, m = k + 1 := ⟨m - 1, by omega⟩
    have hempty : es.isEmpty = (namedEntries ds).isEmpty := by
      cases hp <;> rfl
    have hentries : List.Forall₂ (fun e d =>
        writeEntry h style (writeWithin h style fallback n (level + 1)) e =
          writeEntry h style (writeWithin h style fallback m (level + 1)) d)
        es (namedEntries ds) := by
      rw [namedEntries, List.forall₂_map_right_iff]
      refine List.forall₂_iff_zip.mpr ⟨hp.length_eq, fun {e d} hed => ?_⟩
      obtain ⟨hkey, _, hwrite⟩ := (List.forall₂_iff_zip.mp hp).2 hed
      have hdd : d.2.depth ≤ Value.entriesDepth (namedEntries ds) :=
        depth_le_of_mem (e := (.text d.1, d.2)) (List.mem_map_of_mem (List.of_mem_zip hed).2)
      have hkey' : keyText h style (.text d.1) = .ok (some d.1) := rfl
      have hvalue : writeWithin h style fallback n (level + 1) e.2 =
          writeWithin h style fallback m (level + 1) d.2 := hwrite (by omega) (by omega) (level + 1)
      rw [writeEntry, writeEntry, keyText_text hkey, hkey', hvalue]
    show _ = writeWithin h style fallback (m + 1) level (.map (namedEntries ds))
    rw [writeWithin_map n level es hs, writeWithin_map m level _ hs, filterMapM_forall₂ hentries,
      hempty]

theorem write_copies (hc : Copies h v d) (hs : style.sortsKeys = false) :
    write h style fallback v = write h style fallback d := by
  have hdepth := hc.depth_le
  refine writeWithin_copies hc hs ?_ ?_ 0
  all_goals
    simp only [layerBound]
    omega

end DocDelta.Json
