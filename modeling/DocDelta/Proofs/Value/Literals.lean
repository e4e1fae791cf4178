import DocDelta.Proofs.Text.Quoting
import DocDelta.Proofs.Text.Splitting
import DocDelta.Value.Literal

/-! Literals of scalars.

The literal of a number, a time, a text or a byte string is one line. -/
namespace DocDelta
open Number Calendar Text

/-! ### Numbers -/

theorem newline_digits (n : Nat) : '\n' ∉ digits n := by
  have hdecimal := notMem_decimalText (c := '\n') rfl n
  rwa [decimalText, String.toList_ofList] at hdecimal

theorem newline_decimalText (n : Nat) : '\n' ∉ (decimalText n).toList := notMem_decimalText rfl n

theorem newline_integerText (n : Int) : '\n' ∉ (integerText n).toList := by
  cases n <;> simp [integerText, newline_decimalText]

theorem newline_trimZeros {ds : List Char} (hd : '\n' ∉ ds) : '\n' ∉ Binary64.trimZeros ds := by
  unfold Binary64.trimZeros
  rw [List.mem_reverse]
  intro hm
  exact hd (List.mem_reverse.mp ((List.dropWhile_suffix _).subset hm))

theorem newline_padded (width n : Nat) : '\n' ∉ (padded width n).toList := by
  simp [padded, newline_digits, List.mem_replicate]

theorem newline_magnitude (style : Binary64.Style) (units : Nat) :
    '\n' ∉ (Binary64.magnitudeText style units).toList := by
  have htrim := fun n => newline_trimZeros (newline_digits n)
  have htake := fun n k => mt (List.mem_of_mem_take (i := k)) (htrim n)
  have hdrop := fun n k => mt (List.mem_of_mem_drop (i := k)) (htrim n)
  have htail := fun n => mt List.mem_of_mem_tail (htrim n)
  unfold Binary64.magnitudeText
  dsimp only
  split_ifs <;> simp [htrim, htake, hdrop, htail, newline_padded, List.mem_replicate]

theorem newline_float (style : Binary64.Style) (x : Binary64) :
    '\n' ∉ (Binary64.textWith style x).toList := by
  cases x <;> unfold Binary64.textWith <;> simp [newline_magnitude] <;> split <;> simp

theorem newline_complex (re im : Binary64) : '\n' ∉ (complexText re im).toList := by
  unfold complexText
  dsimp only
  split_ifs <;> simp [newline_float]

/-! ### Times -/

/-- Texts of one line with commas between them, in brackets. -/
theorem newline_enclosed {opening closing : String} (ho : '\n' ∉ opening.toList)
    (hc : '\n' ∉ closing.toList) {parts : List String} (hp : ∀ s ∈ parts, '\n' ∉ s.toList) :
    '\n' ∉ (opening ++ ", ".intercalate parts ++ closing).toList := by
  have hinside := newline_intercalate (s := ", ") (by decide) hp
  rw [String.toList_append, String.toList_append]
  simp only [List.mem_append, not_or]
  exact ⟨⟨ho, hinside⟩, hc⟩

/-- Arguments in brackets behind a name. -/
theorem newline_call {name : String} (hn : '\n' ∉ name.toList) {arguments : List String}
    (ha : ∀ s ∈ arguments, '\n' ∉ s.toList) :
    '\n' ∉ (name ++ "(" ++ ", ".intercalate arguments ++ ")").toList := by
  have hopen : '\n' ∉ (name ++ "(").toList := by
    rw [String.toList_append, List.mem_append, not_or]
    exact ⟨hn, by decide⟩
  exact newline_enclosed hopen (by decide) ha

theorem newline_duration (d : Duration) : '\n' ∉ (durationLiteral d).toList := by
  have hnamed : ∀ (name : String) (n : Int), '\n' ∉ name.toList →
      ∀ s ∈ (if n = 0 then [] else [name ++ "=" ++ integerText n]), '\n' ∉ s.toList := by
    intro name n hname
    split
    · exact nofun
    · exact List.forall_mem_singleton.mpr (by simp [hname, newline_integerText])
  refine newline_call (by decide) fun s hs => ?_
  split at hs
  · rw [List.mem_singleton.mp hs]
    decide
  · rcases List.mem_append.mp hs with hs | hs
    · rcases List.mem_append.mp hs with hs | hs
      · exact hnamed "days" _ (by decide) s hs
      · exact hnamed "seconds" _ (by decide) s hs
    · exact hnamed "microseconds" _ (by decide) s hs

theorem newline_zone (offset : Option Int) : ∀ s ∈ zoneLiteral offset, '\n' ∉ s.toList := by
  have hother : ∀ o : Int, '\n' ∉ ("tzinfo=" ++ ("datetime.timezone" ++ "(" ++
      ", ".intercalate [durationLiteral (Duration.ofSeconds o)] ++ ")")).toList := by
    intro o
    rw [String.toList_append, List.mem_append, not_or]
    refine ⟨by decide, newline_call (by decide) ?_⟩
    exact List.forall_mem_singleton.mpr (newline_duration _)
  unfold zoneLiteral
  split
  · exact nofun
  · exact List.forall_mem_singleton.mpr (by decide)
  · exact List.forall_mem_singleton.mpr (hother _)

theorem newline_decimals (ns : List Nat) : ∀ s ∈ ns.map decimalText, '\n' ∉ s.toList :=
  List.forall_mem_map.mpr fun n _ => newline_decimalText n

theorem newline_clock (t : Time) : ∀ s ∈ clockLiteral t, '\n' ∉ s.toList := newline_decimals _

theorem newline_date (d : Date) : ∀ s ∈ dateLiteral d, '\n' ∉ s.toList := newline_decimals _

/-! ### Scalars -/

/-- Layers of numbers, times, texts and bytes. -/
def Object.IsScalar {α : Type} : Object α → Prop
  | .nil | .bool _ | .int .. | .float .. | .complex .. | .decimal _ | .text .. | .bytes ..
  | .date _ | .time _ | .datetime _ | .duration _ => True
  | _ => False

/-- The literal of a scalar is one line. -/
theorem newline_scalar {α : Type} {o : Object α} (ho : o.IsScalar) :
    '\n' ∉ (scalarLiteral o).toList := by
  cases o with
  | nil => simp [scalarLiteral]
  | bool b => cases b <;> simp [scalarLiteral]
  | int c n => exact newline_integerText n
  | float c x => exact newline_float _ x
  | complex re im => exact newline_complex re im
  | decimal d =>
    exact newline_call (by decide) (List.forall_mem_singleton.mpr (newline_quotedChars _))
  | text c s => exact newline_quotedChars s.toList
  | bytes c bs => exact newline_quotedBytes bs
  | date d => exact newline_call (by decide) (newline_date d)
  | time t =>
    refine newline_call (by decide) fun s hs => ?_
    exact (List.mem_append.mp hs).elim (newline_clock t s) (newline_zone _ s)
  | datetime x =>
    refine newline_call (by decide) fun s hs => ?_
    rcases List.mem_append.mp hs with hs | hs
    · exact (List.mem_append.mp hs).elim (newline_date _ s) (newline_clock _ s)
    · exact newline_zone _ s hs
  | duration d => exact newline_duration d
  | _ => exact ho.elim

end DocDelta
