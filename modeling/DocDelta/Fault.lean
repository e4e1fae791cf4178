import DocDelta.Value.Kind

/-! The causes for which an operation fails.

The first groups are the failures that the library itself foresees; each of them has a text,
given by `Fault.message` in the module that prints values. The last group holds what any
operation can meet when a value does not support what is asked of it. -/
namespace DocDelta

/-- What is wrong with a text that should be in the JSON notation. -/
inductive JsonFlaw
  | expectedValue
  | expectedName
  | expectedColon
  | expectedComma
  | extraData
  | unterminatedText
  | controlCharacter
  | badEscape
  | badCodeEscape
  | byteOrderMark
  deriving DecidableEq, Repr

/-- A flaw and where it was met, in characters from the start and by line and column. -/
structure JsonError where
  flaw : JsonFlaw
  line : Nat
  column : Nat
  offset : Nat
  deriving DecidableEq, Repr

/-- Why a value is no patch. -/
inductive PatchFlaw
  | notAMap (found : Class)
  | missingEntry (name : String)
  | operationsNotAMap
  | unknownOperator (operator : Value)
  | badGroup (operator : Value)
  | pathNotText (path : Value)
  | pathTwice (path first second : Value)
  | badFilters
  | metadataNotAMap
  | badTotal
  | badFields
  | badTypes
  | notJson (error : JsonError)
  | unprintableOperator (operator : String)

/-- What a value was asked for and does not support. -/
inductive Misuse
  | unhashable
  | unordered
  | unsized
  | notIterable
  | notIndexable
  | notAMapping
  | noAttributes
  | notConvertible
  | notCallable
  deriving DecidableEq, Repr

inductive Fault
  -- comparing two values
  | nothingToCompare
  | classMismatch (path : Label) (old new : Class)
  | unsupportedKey (path : Label) (key : Value)
  | sharedReference (path : String) (address : Addr) (oldPath : String)
  | cycle (path : Label)
  -- patches
  | emptyPatch
  | badPatch (flaw : PatchFlaw)
  -- options and arguments
  | unknownStrategy (given : Value)
  | unknownZeroPolicy (given : Value)
  | notAComparer (path given : Value)
  | optionsTwice
  | unknownOnNull (given : Value)
  | unknownEntryPoint (name : String)
  -- the JSON notation
  | badJson (error : JsonError)
  | notSerializable (found : Class)
  | notANumber
  | circular
  -- the binary notation
  | notStorable
  | badBinary
  | outOfRange
  | decimalOverflow
  | decimalInexact
  | decimalPayload
  -- anything else
  | misuse (what : Misuse)
  | noSuchAttribute
  | noSuchKey
  | noSuchItem
  | changedMeanwhile
  | badArgument
  | notText
  | notUnicode
  | invalidOperation
  | notImplemented
  | tooDeep
  | missingFile
  | notADirectory
  | isDirectory

end DocDelta
