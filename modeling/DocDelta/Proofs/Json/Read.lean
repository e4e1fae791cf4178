import DocDelta.Json.Reader
import DocDelta.Proofs.Document.Copies

/-! What reading a text gives.

Whatever a text says, reading it gives nothing, booleans, numbers and texts, the one NaN, and lists
and maps of such values, where the names of a map differ (`noted_read`). A value of that kind is its
own document. -/
namespace DocDelta

/-- A name is put among others once. -/
theorem mem_putNamed {name : String} {v : Value} {es : List (String × Value)} {e : String × Value}
    (he : e ∈ putNamed name v es) : e = (name, v) ∨ e ∈ es := by
  induction es with
  | nil => exact .inl (List.mem_singleton.mp he)
  | cons d es ih =>
    obtain ⟨n, w⟩ := d
    rw [putNamed] at he
    split at he
    · rename_i hn
      subst hn
      rcases List.mem_cons.mp he with rfl | he
      · exact .inl rfl
      · exact .inr (List.mem_cons_of_mem _ he)
    · rcases List.mem_cons.mp he with rfl | he
      · exact .inr (List.mem_cons_self ..)
      · exact (ih he).imp_right (List.mem_cons_of_mem _)

theorem nodup_putNamed (name : String) (v : Value) {es : List (String × Value)}
    (hd : (es.map (·.1)).Nodup) : ((putNamed name v es).map (·.1)).Nodup := by
  induction es with
  | nil => exact List.nodup_singleton name
  | cons d es ih =>
    obtain ⟨n, w⟩ := d
    rw [putNamed]
    split
    · exact hd
    · rename_i hn
      obtain ⟨hfresh, hd⟩ := List.nodup_cons.mp hd
      rw [List.map_cons, List.nodup_cons]
      refine ⟨fun hm => ?_, ih hd⟩
      obtain ⟨e, he, hname⟩ := List.mem_map.mp hm
      rcases mem_putNamed he with rfl | he
      · exact hn hname.symm
      · exact hfresh (List.mem_map.mpr ⟨e, he, hname⟩)

namespace Json
open Number Heap

/-- A value that the notation can say. -/
inductive Noted : Value → Prop
  | nil : Noted .nil
  | bool (b : Bool) : Noted (.bool b)
  | int (n : Int) : Noted (.int n)
  | float (x : Binary64) : Noted (.float x)
  | text (s : String) : Noted (.text s)
  | nan : Noted (.ref 0)
  | list {xs : List Value} (hx : ∀ x ∈ xs, Noted x) : Noted (.list xs)
  | table {es : List (String × Value)} (hd : (es.map (·.1)).Nodup) (he : ∀ e ∈ es, Noted e.2) :
      Noted (.table es)

/-- Members that were read: their names differ, and they are values of the notation. -/
def NotedMembers (es : List (String × Value)) : Prop :=
  (es.map (·.1)).Nodup ∧ ∀ e ∈ es, Noted e.2

theorem NotedMembers.put {es : List (String × Value)} (hes : NotedMembers es) (name : String)
    {v : Value} (hv : Noted v) : NotedMembers (putNamed name v es) := by
  refine ⟨nodup_putNamed name v hes.1, fun e he => ?_⟩
  rcases mem_putNamed he with rfl | he
  · exact hv
  · exact hes.2 e he

theorem noted_words : ∀ w ∈ words, Noted w.2 := by
  simp only [words, List.forall_mem_cons]
  exact ⟨.nil, .bool true, .bool false, .nan, .float _, .float _, nofun⟩

/-- What a reader takes off has a property. -/
def Gives {α : Type} (P : α → Prop) (r : Except Stop (α × Cursor)) : Prop :=
  ∀ a c, r = .ok (a, c) → P a

section Gives
variable {α β : Type} {P : α → Prop} {Q : β → Prop}

theorem gives_ok {a : α} {c : Cursor} (ha : P a) : Gives P (.ok (a, c)) := by
  intro b d he
  cases he
  exact ha

theorem gives_error (e : Stop) : Gives P (.error e) := nofun

theorem gives_bind {r : Except Stop (β × Cursor)} {f : β × Cursor → Except Stop (α × Cursor)}
    (hr : Gives Q r) (hf : ∀ b c, Q b → Gives P (f (b, c))) : Gives P (r >>= f) := by
  cases r with
  | error e => exact nofun
  | ok p => exact hf p.1 p.2 (hr p.1 p.2 rfl)

end Gives

theorem gives_number (integers : Integers) (c : Cursor) : Gives Noted (number integers c) := by
  unfold number
  split
  dsimp only
  split
  · exact gives_error _
  · refine gives_ok ?_
    split
    · exact .int _
    · exact .float _

/-- Every reader gives values of the notation, within any number of steps. -/
theorem gives_within (integers : Integers) (n : Nat) :
    (∀ c, Gives Noted (valueWithin integers n c)) ∧
    (∀ es c, NotedMembers es → Gives NotedMembers (membersWithin integers n es c)) ∧
    ∀ c, Gives (fun xs => ∀ x ∈ xs, Noted x) (itemsWithin integers n c) := by
  induction n with
  | zero => exact ⟨fun c => gives_error _, fun es c _ => gives_error _, fun c => gives_error _⟩
  | succ n ih =>
    obtain ⟨hvalue, hmembers, hitems⟩ := ih
    refine ⟨fun c => ?_, fun es c hes => ?_, fun c => ?_⟩
    · rw [valueWithin]
      split
      · exact gives_bind (Q := fun _ => True) (fun _ _ _ => trivial) fun s d _ => gives_ok (.text s)
      · dsimp only
        split
        · have hempty : Noted (.table []) := .table List.nodup_nil nofun
          exact gives_ok hempty
        · exact gives_bind (hmembers [] _ ⟨List.nodup_nil, nofun⟩) fun es d hes =>
            gives_ok (.table hes.1 hes.2)
      · dsimp only
        split
        · exact gives_ok (.list nofun)
        · exact gives_bind (hitems _) fun xs d hxs => gives_ok (.list hxs)
      · split
        · rename_i w v hw
          exact gives_ok (noted_words _ (List.mem_of_find?_eq_some hw))
        · exact gives_number integers c
    · rw [membersWithin]
      split
      · exact gives_error _
      · refine gives_bind (Q := fun _ => True) (fun _ _ _ => trivial) fun name d _ => ?_
        dsimp only
        split
        · exact gives_error _
        · refine gives_bind (hvalue _) fun v d hv => ?_
          have hput := hes.put name hv
          dsimp only
          split
          · exact gives_ok hput
          · split
            · exact hmembers _ _ hput
            · exact gives_error _
    · rw [itemsWithin]
      refine gives_bind (hvalue _) fun v d hv => ?_
      dsimp only
      split
      · exact gives_ok (List.forall_mem_singleton.mpr hv)
      · split
        · exact gives_bind (hitems _) fun vs d hvs => gives_ok (List.forall_mem_cons.mpr ⟨hv, hvs⟩)
        · exact gives_error _

/-- **What is read is a value of the notation.** -/
theorem noted_read {integers : Integers} {s : String} {v : Value} (hv : read integers s = .ok v) :
    Noted v := by
  unfold read at hv
  dsimp only at hv
  split at hv
  · cases hv
  · have hgives := (gives_within integers (2 * s.toList.length + 2)).1 (Cursor.blank ⟨0, s.toList⟩)
    cases hr : valueWithin integers (2 * s.toList.length + 2) (Cursor.blank ⟨0, s.toList⟩) with
    | error e =>
      rw [hr] at hv
      cases hv
    | ok p =>
      obtain ⟨w, c⟩ := p
      rw [hr] at hgives hv
      simp only [bind, Except.bind] at hv
      split at hv
      · cases hv
        exact hgives _ c rfl
      · cases hv

/-- What is read is known from a test that compares it with a document. -/
theorem read_of_isCopy {h : Heap} {integers : Integers} {s : String} {d : Value}
    (hd : isCopy h d d = true) (hr : (read integers s).toOption.any (isCopy h d) = true) :
    read integers s = .ok d := by
  obtain ⟨v, hv, hcopy⟩ := ok_of_any hr
  rw [hv, (copies_of_isCopy hcopy).unique (copies_of_isCopy hd)]

section Noted
variable {h : Heap} {v : Value}

/-- A value of the notation is its own document. -/
theorem Noted.document (hv : Noted v) : h.document v = .ok v := by
  induction hv with
  | nil | bool | int | float | text => exact document_leaf rfl nofun
  | nan => exact document_leaf rfl nofun
  | list _ ih => exact document_list (List.forall₂_same.mpr ih)
  | @table es hd he ih =>
    refine document_map (List.forall₂_same.mpr fun e hm => ?_)
    obtain ⟨d, hd, rfl⟩ := List.mem_map.mp hm
    exact ⟨rfl, ih d hd⟩

end Noted
end Json
end DocDelta
