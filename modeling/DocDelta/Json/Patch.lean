import DocDelta.Json.Reader
import DocDelta.Patch.Loading

/-! Documents and patches in the JSON notation. -/
namespace DocDelta.Json

/-- Reads a document. -/
def readDocument (integers : Integers) (s : String) : Except Fault Value :=
  (read integers s).mapError .badJson

/-- The document that stands for an absent file: nothing, or an empty map. -/
def absentDocument (h : Heap) (onNull : Value) : Except Fault Value :=
  if h.isText "none" onNull then .ok .nil
  else if h.isText "empty" onNull then .ok (.map [])
  else .error (.unknownOnNull onNull)

/-- Reads a patch. A text that is not in the notation is no patch either. -/
def readPatch (h : Heap) (s : String) : Except Fault Patch :=
  match read .whole s with
  | .error e => .error (.badPatch (.notJson e))
  | .ok v => Patch.ofMap h v

end DocDelta.Json
