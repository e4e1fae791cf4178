import DocDelta.Number.Digits

/-! The release of the program and the names it offers to other programs. -/
namespace DocDelta

/-- How far a release is from being final. -/
inductive Stage
  | alpha
  | beta
  | candidate
  | final
  deriving DecidableEq, Repr, Inhabited

namespace Stage

def name : Stage → String
  | .alpha => "alpha"
  | .beta => "beta"
  | .candidate => "candidate"
  | .final => "final"

/-- How a stage is marked in the text of a release. -/
def mark : Stage → String
  | .alpha => "a"
  | .beta => "b"
  | .candidate => "rc"
  | .final => ""

end Stage

/-- The number of a release; only a release that is not final counts within its stage. -/
structure Release where
  major : Nat
  minor : Nat
  micro : Nat
  stage : Stage
  serial : Option Nat
  deriving DecidableEq, Repr, Inhabited

namespace Release
open Number

def current : Release := ⟨0, 3, 0, .final, none⟩

def text (r : Release) : String :=
  decimalText r.major ++ "." ++ decimalText r.minor ++ "." ++ decimalText r.micro ++
    r.stage.mark ++ (r.serial.map decimalText).getD ""

/-- The names by which other programs use the library, in order. -/
def publicNames : List String :=
  ["ArrayStrategy", "CyclicReferenceError", "DiffConfig", "DiffError", "EmptyPatchError",
    "FieldComparer", "FieldDiff", "NilPairError", "Patch", "PatchFormatError", "PatchInfo",
    "PatchMetadata", "PatchOp", "PointerSharingError", "TypeMismatchError", "UnsupportedKeyError",
    "ZeroValueHandling", "__version__", "diff"]

end Release
end DocDelta
