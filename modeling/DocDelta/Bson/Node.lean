import DocDelta.Document
import DocDelta.Number.Decimal128
import DocDelta.Value.Contents

/-! The values of the BSON notation, and how documents become such values.

Whole numbers are stored in 32 bits where they fit and in 64 where they fit there, instants
as milliseconds since the epoch, decimals as 128-bit words. Values without a form of their
own are stored as one that has: dates as midnight, times of day as their texts, durations as
seconds, sets as lists. -/
namespace DocDelta.Bson
open Number Calendar

inductive Node
  | null
  | bool (b : Bool)
  | int32 (n : Int)
  | int64 (n : Int)
  | double (x : Binary64)
  | text (s : String)
  | bytes (bs : List UInt8)
  | datetime (millis : Int)
  | decimal (word : Nat)
  | list (items : List Node)
  | document (entries : List (String × Node))
  deriving Inhabited

namespace Node

/-- The narrowest whole number that holds a value. -/
def ofInt? (n : Int) : Except Fault Node :=
  if -2147483648 ≤ n ∧ n ≤ 2147483647 then .ok (.int32 n)
  else if -9223372036854775808 ≤ n ∧ n ≤ 9223372036854775807 then .ok (.int64 n)
  else .error .outOfRange

/-- An instant in milliseconds, rounded down. One with an offset has to stay within the
calendar when it is brought to UTC. -/
def ofDateTime? (x : DateTime) : Except Fault Node :=
  if DateTime.inRange x.instant then .ok (.datetime (x.sinceEpoch / 1000))
  else .error .outOfRange

def ofDecimal? (d : Decimal) : Except Fault Node :=
  match Decimal128.toWord d with
  | .ok w => .ok (.decimal w)
  | .error .overflow => .error .decimalOverflow
  | .error .inexact => .error .decimalInexact
  | .error .payload => .error .decimalPayload

/-- The name of an entry: a text that can be ended by a NUL. -/
def nameOf? (h : Heap) (key : Value) : Except Fault String :=
  match (h.view key).text? with
  | some s => if s.toList.contains '\x00' then .error .notStorable else .ok s
  | none => .error .notStorable

def ofValueWithin (h : Heap) : Nat → Value → Except Fault Node
  | 0, _ => .error .tooDeep
  | n + 1, v =>
    let o := h.view v
    match o with
    | .nil => .ok .null
    | .bool b => .ok (.bool b)
    | .float _ x => .ok (.double x)
    | .text _ s => .ok (.text s)
    | .bytes _ bs => .ok (.bytes bs)
    | .datetime x => ofDateTime? x
    | .date d => ofDateTime? ⟨d, Time.midnight⟩
    | .time t => .ok (.text t.text)
    | .duration d => .ok (.double (.ofRatio (d.micros < 0) d.micros.natAbs 1000000))
    | .decimal d => ofDecimal? d
    | .set _ xs | .frozenset _ xs => return .list (← xs.mapM (ofValueWithin h n))
    | _ => match h.entries? o, o.items?, h.whole? v with
      | some es, _, _ =>
        return .document (← es.mapM fun e => do
          let name ← nameOf? h e.1
          return (name, ← ofValueWithin h n e.2))
      | _, some xs, _ => return .list (← xs.mapM (ofValueWithin h n))
      | _, _, some k => ofInt? k
      | _, _, _ => .error .notStorable

/-- The stored form of a document. -/
def ofValue? (h : Heap) (v : Value) : Except Fault Node := ofValueWithin h (h.layerBound v) v

end Node

/-- The stored form of a patch, which must not be empty. -/
def ofPatch? (h : Heap) (p : Patch) : Except Fault Node :=
  if p.isEmpty then .error .emptyPatch
  else do Node.ofValue? h (← p.document h)

end DocDelta.Bson
