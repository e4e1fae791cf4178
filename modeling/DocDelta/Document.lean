import DocDelta.Value.Zero
import DocDelta.Patch.Basic

/-! Documents: values made of plain maps, plain lists and scalars.

A record becomes a map from external field names, an enumeration member the value it stands
for, and every sequence a list. Scalars stay the objects they are. A value that contains
itself has no document. -/
namespace DocDelta

/-- Puts a named value among others; a name that is there already keeps its place. -/
def putNamed (name : String) (v : Value) : List (String × Value) → List (String × Value)
  | [] => [(name, v)]
  | (n, w) :: es => if n = name then (n, v) :: es else (n, w) :: putNamed name v es

namespace Heap

/-- The named values of a record's document: a field that omits empty values is left out
while it is zero. -/
def fieldDocuments (h : Heap) (document : Value → Except Fault Value) (v : Value) :
    List Field → List (String × Value) → Except Fault (List (String × Value))
  | [], es => .ok es
  | f :: fs, es => do
    let x := h.fieldValue v f.name
    let omitted ← if f.omitsEmpty then h.isZero x else .ok false
    if omitted then h.fieldDocuments document v fs es
    else h.fieldDocuments document v fs (putNamed f.external (← document x) es)

def documentWithin (h : Heap) : Nat → Value → Except Fault Value
  | 0, _ => .error .tooDeep
  | n + 1, v =>
    let o := h.view v
    match o.kind with
    | .record => return .table (← h.fieldDocuments (h.documentWithin n) v o.fields [])
    | .mapping => do
      let es ← ((h.entries? o).getD []).mapM fun e => return (e.1, ← h.documentWithin n e.2)
      return .map es
    | .sequence => return .list (← (o.items?.getD []).mapM (h.documentWithin n))
    | _ => match o with
      | .member _ _ w => h.documentWithin n w
      | _ => .ok v

/-- The document of a value. -/
def document (h : Heap) (v : Value) : Except Fault Value := h.documentWithin (h.layerBound v) v

end Heap

/-- The update document of a patch. -/
def Patch.document (h : Heap) (p : Patch) : Except Fault Value := h.document p.operations

end DocDelta
