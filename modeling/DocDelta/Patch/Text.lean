import DocDelta.Json.Writer
import DocDelta.Value.Layout

/-! The texts of patches: a summary for reading and a literal with every part. -/
namespace DocDelta.Patch
open Number Json

/-- Two blanks for each level, and keys in order. -/
def summaryStyle : Style := ⟨some "  ", ",", ": ", true, true, false, true⟩

/-- Whether a failure to write a value in the JSON notation is met by laying it out. -/
def isRecoverable : Fault → Bool
  | .misuse _ | .circular | .notANumber | .notSerializable _ => true
  | _ => false

/-- A value in the JSON notation, or laid out where it has no such form. -/
def dump (h : Heap) (v : Value) : Except Fault String :=
  match write h summaryStyle (fun x => .ok (.text (h.display x))) v with
  | .error f => if isRecoverable f then h.layout v else .error f
  | written => written

/-- The operations, filters and number of changes, as far as there are any. -/
def summary (h : Heap) (p : Patch) : Except Fault String := do
  let mut parts : List String := []
  if !p.isEmpty then parts := parts ++ ["Operations:\n" ++ (← dump h (← p.document h))]
  if p.hasFilters then parts := parts ++ ["ArrayFilters:\n" ++ (← dump h (.list p.filters))]
  let count := p.metadata.totalChanges.count
  if 0 < count then parts := parts ++ ["Changes: " ++ integerText count ++ " fields modified"]
  return if parts.isEmpty then "Patch: <empty>" else "Patch:\n" ++ "\n".intercalate parts

def metadataLiteral (h : Heap) (m : Metadata) : String :=
  "PatchMetadata(fields_changed=" ++ h.literal (.list (m.fieldsChanged.map (·.value))) ++
    ", operation_types=" ++
    h.literal (.map (m.operationTypes.map fun e => (e.1.value, e.2.value))) ++
    ", total_changes=" ++ h.literal m.totalChanges.value ++ ")"

def literal (h : Heap) (p : Patch) : String :=
  "Patch(operations=" ++ h.literal p.operations ++ ", array_filters=" ++
    h.literal (.list p.filters) ++ ", metadata=" ++ metadataLiteral h p.metadata ++ ")"

end DocDelta.Patch
