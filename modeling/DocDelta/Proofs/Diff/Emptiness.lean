import DocDelta.Diff.Walk
import DocDelta.Proofs.Diff.Run
import DocDelta.Proofs.Document.Written
import DocDelta.Proofs.Value.EqualZeros

/-! The test for zero as a search.

`isZero` goes through the exported fields of a record in turn, takes a record that it is in the
middle of for zero, and forgets it on the way out. So what it says of a shared record depends on
where it is met, and still nothing is missed: it finds a value not to be zero just if the fields of
records lead to a value that is no record and not empty (`isZero_searches`), however they lead
around in circles. Documents leave out fields, and comparisons pass over removed values, by that
test. -/
namespace DocDelta.Heap
variable {h : Heap} {v w : Value}

/-- Neither empty nor zero, and no record: a sequence or mapping with entries, or another value
that is not a zero scalar. -/
def Filled (h : Heap) (w : Value) : Prop :=
  match (h.view w).kind with
  | .record => False
  | .sequence | .mapping => h.entryCount (h.view w) ≠ 0
  | _ => h.isZeroValue w = .ok false

/-- Whether exported fields of records lead from a value to one that is filled. -/
def LeadsToFilled (h : Heap) (v : Value) : Prop := ∃ names w, h.Reaches v names w ∧ h.Filled w

/-- Whether exported fields of records lead from a value to a signaling NaN. -/
def LeadsToSignal (h : Heap) (v : Value) : Prop :=
  ∃ names w, h.Reaches v names w ∧ ¬ Quiet (h.view w)

theorem filled_iff : h.Filled w ↔
    (h.view w).kind ≠ .record ∧ h.isZeroEnd (h.view w) = .ok false := by
  unfold Filled isZeroEnd isZeroValue
  cases (h.view w).kind <;> simp

theorem not_filled_of_isZeroEnd (hz : h.isZeroEnd (h.view w) = .ok true) : ¬ h.Filled w := by
  rw [filled_iff, hz]
  simp

theorem leadsToSignal_field {f : Field} (hk : (h.view v).kind = .record)
    (hf : f ∈ (h.view v).fields) (hs : h.LeadsToSignal (h.fieldValue v f.name)) :
    h.LeadsToSignal v := by
  obtain ⟨names, w, hw, hq⟩ := hs
  exact ⟨f.name :: names, w, .field hk hf hw, hq⟩

/-! ### The search ends -/

theorem isZeroScalar_fault {o : Object Value} {e : Fault} (he : h.isZeroScalar o = .error e) :
    e = .invalidOperation ∧ ¬ Quiet o := by
  unfold isZeroScalar at he
  split at he
  case h_8 d =>
    split at he
    · rename_i hs
      cases he
      exact ⟨rfl, fun hq => absurd hs (by rw [show d.isSignaling = false from hq]; decide)⟩
    · cases he
  all_goals cases he

theorem isZeroEnd_fault {o : Object Value} {e : Fault} (he : h.isZeroEnd o = .error e) :
    e = .invalidOperation ∧ ¬ Quiet o := by
  unfold isZeroEnd at he
  split at he
  · cases he
  · cases he
  · exact isZeroScalar_fault he

theorem allHold_fault {α : Type} {f : α → Except Fault Bool} {xs : List α} {e : Fault}
    (he : allHold f xs = .error e) : ∃ x ∈ xs, f x = .error e := by
  induction xs with
  | nil => cases he
  | cons x xs ih =>
    rw [allHold] at he
    cases hx : f x with
    | error e' =>
      rw [hx] at he
      cases he
      exact ⟨x, List.mem_cons_self .., hx⟩
    | ok p =>
      rw [hx] at he
      cases p with
      | false => cases he
      | true =>
        obtain ⟨y, hy, hfy⟩ := ih he
        exact ⟨y, List.mem_cons_of_mem x hy, hfy⟩

/-- The search only fails at a signaling NaN that it comes to. -/
theorem isZero_fault {e : Fault} (he : h.isZero v = .error e) :
    e = .invalidOperation ∧ h.LeadsToSignal v := by
  refine isZeroWithin_induction (v := v)
    (P := fun v answer => ∀ e, answer = .error e → e = .invalidOperation ∧ h.LeadsToSignal v)
    (fun v _ e he => ?_) nofun (fun v test hk hf e he => ?_) (room_le_layerBound v) e he
  · exact (isZeroEnd_fault he).imp id fun hq => ⟨[], v, .here v, hq⟩
  · obtain ⟨f, hm, hx⟩ := allHold_fault he
    exact (hf f hm e hx).imp id (leadsToSignal_field hk hm)

/-! ### What the search finds -/

theorem leadsToFilled_of_isZero (hz : h.isZero v = .ok false) : h.LeadsToFilled v := by
  obtain ⟨names, w, hw, hk, hz⟩ := reaches_of_isZeroWithin hz
  exact ⟨names, w, hw, filled_iff.mpr ⟨hk, hz⟩⟩

theorem not_leadsToFilled_of_isZero (hz : h.isZero v = .ok true) : ¬ h.LeadsToFilled v := by
  rintro ⟨names, w, hw, hf⟩
  exact not_filled_of_isZeroEnd (isZeroEnd_of_isZero hz hw (filled_iff.mp hf).1) hf

theorem isZero_eq_false {p : Bool} (hz : h.isZero v = .ok p) :
    p = false ↔ h.LeadsToFilled v := by
  cases p with
  | false => exact ⟨fun _ => leadsToFilled_of_isZero hz, fun _ => rfl⟩
  | true => exact ⟨nofun, fun hl => absurd hl (not_leadsToFilled_of_isZero hz)⟩

/-- There are three ways for the test to end. -/
theorem isZero_cases (h : Heap) (v : Value) :
    (h.isZero v = .ok true ∧ ¬ h.LeadsToFilled v) ∨ (h.isZero v = .ok false ∧ h.LeadsToFilled v) ∨
      (h.isZero v = .error .invalidOperation ∧ h.LeadsToSignal v) := by
  cases hz : h.isZero v with
  | error e =>
    obtain ⟨rfl, hs⟩ := isZero_fault hz
    exact .inr (.inr ⟨rfl, hs⟩)
  | ok p =>
    cases p with
    | true => exact .inl ⟨rfl, not_leadsToFilled_of_isZero hz⟩
    | false => exact .inr (.inl ⟨rfl, leadsToFilled_of_isZero hz⟩)

/-! ### Documents -/

/-- A field is not left out where it has to stay, or where it leads to something. -/
theorem leadsToFilled_of_omits {f : Field} (ho : h.omits v f = .ok false) :
    f.omitsEmpty = true → h.LeadsToFilled (h.fieldValue v f.name) := by
  intro hb
  rw [omits, if_pos hb] at ho
  exact leadsToFilled_of_isZero ho

theorem mem_names_putNamed {name s : String} {d : Value} {es : List (String × Value)} :
    s ∈ (putNamed name d es).map (·.1) ↔ s = name ∨ s ∈ es.map (·.1) := by
  induction es with
  | nil => simp [putNamed]
  | cons e es ih =>
    unfold putNamed
    split
    · rename_i he
      simp [he]
    · simp only [List.map_cons, List.mem_cons, ih]
      exact or_left_comm

/-- The names written for some fields, beside those that were written before. -/
theorem mem_fieldDocuments {doc : Value → Except Fault Value} {fs : List Field}
    {acc es : List (String × Value)} (hd : h.fieldDocuments doc v fs acc = .ok es) (s : String) :
    s ∈ es.map (·.1) ↔ s ∈ acc.map (·.1) ∨ ∃ f ∈ fs, f.external = s ∧
      (f.omitsEmpty = true → h.LeadsToFilled (h.fieldValue v f.name)) := by
  induction fs generalizing acc with
  | nil =>
    cases hd
    simp
  | cons f fs ih =>
    rw [fieldDocuments_cons] at hd
    obtain ⟨omitted, ho, hd⟩ := bind_eq_ok.mp hd
    cases omitted with
    | true =>
      obtain ⟨hb, hz⟩ := omits_eq_true.mp ho
      have hout : ¬ (f.omitsEmpty = true → h.LeadsToFilled (h.fieldValue v f.name)) :=
        fun hl => not_leadsToFilled_of_isZero hz (hl hb)
      rw [ih hd]
      simp only [List.mem_cons, exists_eq_or_imp, hout, and_false, false_or]
    | false =>
      obtain ⟨d, _, hd⟩ := bind_eq_ok.mp hd
      rw [ih hd, mem_names_putNamed, or_comm (a := s = f.external), or_assoc]
      simp only [List.mem_cons, exists_eq_or_imp, and_iff_left (leadsToFilled_of_omits ho),
        eq_comm (a := s)]

/-- The document of a record names the fields that stay, and those that lead to something. -/
theorem names_documentWithin {n : Nat} {d : Value} (hk : (h.view v).kind = .record)
    (hd : h.documentWithin n v = .ok d) :
    ∃ es, d = .table es ∧ ∀ s, s ∈ es.map (·.1) ↔ ∃ f ∈ (h.view v).fields, f.external = s ∧
      (f.omitsEmpty = true → h.LeadsToFilled (h.fieldValue v f.name)) := by
  cases n with
  | zero => cases hd
  | succ n =>
    rw [(layered_documentWithin n v).record hk] at hd
    obtain ⟨es, hes, hd⟩ := bind_eq_ok.mp hd
    cases hd
    exact ⟨es, rfl, fun s => (mem_fieldDocuments hes s).trans (by simp)⟩

/-! ### Removed values -/

open Diff

variable {o : Options} {n : Nat} {path : Label} {s : State}

/-- How a value is removed that leads to something: field by field, entry by entry, or as it is. -/
def removal (h : Heap) (o : Options) (n : Nat) (v : Value) (path : Label) : Walk Unit :=
  if (h.view v).isRecord then unsetStructFields h o n v path
  else match h.entries? (h.view v) with
    | some es => es.forM fun (key, item) => do
      match ← ask (keyPath h o path key) with
      | none => return ()
      | some subpath => diffValues h o n item .nil subpath
    | none => onPatch (·.unset path)

theorem diffRemoved_run : (diffRemoved h o (n + 1) v path).run s =
    match h.isZero v with
    | .ok true => (.ok (), s)
    | .ok false => (removal h o n v path).run s
    | .error e => (.error e, s) := by
  rw [diffRemoved, run_bind, run_ask]
  cases h.isZero v with
  | error e => rfl
  | ok p => cases p <;> rfl

/-- **The test for zero is a search for something filled.** On every value of every heap it comes to
an answer, unless it meets a signaling NaN; and the answer is no just if exported fields lead to a
sequence or mapping with entries, or to another value that is no record and no zero scalar. So the
document of a record, wherever it is met, names just the fields that are not to be left out or lead
to such a value; and a removed value changes nothing where there is none, and is removed where there
is. -/
theorem isZero_searches (h : Heap) (v : Value) :
    ((∃ p, h.isZero v = .ok p) ∨ h.isZero v = .error .invalidOperation ∧ h.LeadsToSignal v) ∧
    (∀ p, h.isZero v = .ok p → (p = false ↔ h.LeadsToFilled v)) ∧
    (∀ n d, (h.view v).kind = .record → h.documentWithin n v = .ok d →
      ∃ es, d = .table es ∧ ∀ s, s ∈ es.map (·.1) ↔ ∃ f ∈ (h.view v).fields, f.external = s ∧
        (f.omitsEmpty = true → h.LeadsToFilled (h.fieldValue v f.name))) ∧
    (∀ o n path s,
      (¬ h.LeadsToFilled v ∧ (diffRemoved h o (n + 1) v path).run s = (.ok (), s)) ∨
      (h.LeadsToFilled v ∧
        (diffRemoved h o (n + 1) v path).run s = (removal h o n v path).run s) ∨
      (h.LeadsToSignal v ∧
        (diffRemoved h o (n + 1) v path).run s = (.error .invalidOperation, s))) := by
  refine ⟨?_, fun p hz => isZero_eq_false hz, fun n d hk hd => names_documentWithin hk hd,
    fun o n path s => ?_⟩
  · rcases isZero_cases h v with ⟨hz, _⟩ | ⟨hz, _⟩ | hz
    · exact .inl ⟨true, hz⟩
    · exact .inl ⟨false, hz⟩
    · exact .inr hz
  · rw [diffRemoved_run]
    rcases isZero_cases h v with ⟨hz, hl⟩ | ⟨hz, hl⟩ | ⟨hz, hl⟩ <;> rw [hz]
    · exact .inl ⟨hl, rfl⟩
    · exact .inr (.inl ⟨hl, rfl⟩)
    · exact .inr (.inr ⟨hl, rfl⟩)

/-- A reading whose first number is a signaling NaN. -/
def readings : Heap :=
  ⟨#[.decimal (.nan false true 0), .int none 1,
    .record ⟨"P", .freeform⟩ [("a", 1), ("b", 2)]]⟩

/-- The search gives up at a signaling NaN, though there is a number after it that is not zero. -/
theorem isZero_stops_at_signal :
    readings.LeadsToFilled (.ref 3) ∧ readings.isZero (.ref 3) = .error .invalidOperation := by
  refine ⟨⟨["b"], .ref 2, ?_, rfl⟩, ?_⟩
  · exact .field (f := ⟨"b", "b", false⟩) rfl (by decide +kernel) (.here _)
  · have hfails : (readings.isZero (.ref 3)).toOption = none := by decide +kernel
    cases hz : readings.isZero (.ref 3) with
    | error e => rw [(isZero_fault hz).1]
    | ok p =>
      rw [hz] at hfails
      cases hfails

end DocDelta.Heap
