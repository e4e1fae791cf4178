import DocDelta.Value.Literal

/-! The texts of the foreseen failures. -/
namespace DocDelta
open Number Text

def JsonFlaw.text : JsonFlaw → String
  | .expectedValue => "Expecting value"
  | .expectedName => "Expecting property name enclosed in double quotes"
  | .expectedColon => "Expecting ':' delimiter"
  | .expectedComma => "Expecting ',' delimiter"
  | .extraData => "Extra data"
  | .unterminatedText => "Unterminated string starting at"
  | .controlCharacter => "Invalid control character at"
  | .badEscape => "Invalid \\escape"
  | .badCodeEscape => "Invalid \\uXXXX escape"
  | .byteOrderMark => "Unexpected UTF-8 BOM (decode using utf-8-sig)"

def JsonError.message (e : JsonError) : String :=
  e.flaw.text ++ ": line " ++ decimalText e.line ++ " column " ++ decimalText e.column ++
    " (char " ++ decimalText e.offset ++ ")"

def PatchFlaw.message (h : Heap) : PatchFlaw → String
  | .notAMap found => "Patch must be a dict, not " ++ found.name ++ "."
  | .missingEntry name => "Patch is missing the " ++ quoted name ++ " entry."
  | .operationsNotAMap => "Patch operations must be a dict."
  | .unknownOperator operator => "Unknown patch operator " ++ h.literal operator ++ "."
  | .badGroup operator =>
    "Operator " ++ h.literal operator ++ " must map to a non-empty dict of paths."
  | .pathNotText path => "Field path " ++ h.literal path ++ " is not a string."
  | .pathTwice path first second =>
    "Field path " ++ h.literal path ++ " appears under both " ++ h.literal first ++ " and " ++
      h.literal second ++ "."
  | .badFilters => "Patch arrayFilters must be a list of dicts."
  | .metadataNotAMap => "Patch metadata must be a dict."
  | .badTotal => "Patch metadata totalChanges must be an int."
  | .badFields => "Patch metadata fieldsChanged must be a list."
  | .badTypes => "Patch metadata operationTypes must be a dict."
  | .notJson error => "Patch is not valid JSON: " ++ error.message
  | .unprintableOperator operator => "Unknown patch operator " ++ operator

/-- The text of a failure that has one. Addresses are masked. -/
def Fault.message? (h : Heap) : Fault → Option String
  | .nothingToCompare => some "both values are None"
  | .classMismatch path old new => some <|
    "type mismatch at " ++ quoted path.text ++ ": cannot compare " ++ old.name ++ " with " ++
      new.name
  | .unsupportedKey path key => some <|
    "unsupported mapping key " ++ h.literal key ++ " of type " ++ (h.classOf key).name ++
      " at " ++ quoted path.text ++ ", only str keys can be used in field paths"
  | .sharedReference path _ oldPath => some <|
    "pointer sharing detected at address 0xADDR: old field " ++ quoted oldPath ++
      " and new field " ++ quoted path ++ " point to the same memory location"
  | .cycle path => some ("cyclic reference detected at " ++ quoted path.text)
  | .emptyPatch => some "empty patch"
  | .badPatch flaw => some (flaw.message h)
  | .unknownStrategy given => some <|
    "Invalid array strategy " ++ h.literal given ++
      ", expected one of ('replace', 'smart', 'append', 'merge')"
  | .unknownZeroPolicy given => some <|
    "Invalid zero value handling " ++ h.literal given ++
      ", expected one of ('unset', 'set', 'ignore')"
  | .notAComparer path given => some <|
    "Custom comparer for " ++ h.literal path ++ " must be a FieldComparer, got " ++
      h.literal given
  | .optionsTwice => some "Pass either a DiffConfig or keyword options to diff, not both."
  | .unknownOnNull given => some <|
    "Not valid value for `on_null`: " ++ h.literal given ++
      ". Valid values are \"none\" or \"empty\""
  | .unknownEntryPoint name => some <|
    "Config for entrypoint name " ++ quoted name ++
      " is not defined! Accepted values are ['diffit-diff', 'diffit-show']."
  | .badJson error => some error.message
  | .notSerializable found => some ("Object of type " ++ found.name ++ " is not JSON serializable")
  | _ => none

/-- Whether a failure says that two values cannot be compared, or that something is no patch. -/
def Fault.isForeseen : Fault → Bool
  | .nothingToCompare | .classMismatch .. | .unsupportedKey .. | .sharedReference .. | .cycle _
  | .emptyPatch | .badPatch _ => true
  | _ => false

end DocDelta
