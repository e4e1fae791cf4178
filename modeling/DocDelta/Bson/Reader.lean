import DocDelta.Bson.Writer

/-! Reading the BSON notation.

Every length is checked against what is there, documents have to end where their length says,
texts have to be well-formed UTF-8, and instants have to lie within the calendar. Of two
entries of one name, the value of the last counts. -/
namespace DocDelta.Bson
open Number Calendar

/-- The number in some bytes, the lowest first. -/
def ofLittleEndian : List UInt8 → Nat
  | [] => 0
  | b :: bs => b.toNat + 256 * ofLittleEndian bs

/-- The signed number in some bytes. -/
def ofSignedBytes (bs : List UInt8) : Int :=
  let n := ofLittleEndian bs
  if 2 * n < power 256 bs.length then n else (n : Int) - power 256 bs.length

/-- A fixed count of bytes and the rest. -/
def takeBytes (count : Nat) (bs : List UInt8) : Option (List UInt8 × List UInt8) :=
  if count ≤ bs.length then some (bs.take count, bs.drop count) else none

/-- The text of some bytes. -/
def textOf? (bs : List UInt8) : Option String := String.fromUTF8? ⟨bs.toArray⟩

/-- A name ended by a NUL, and the rest. -/
def takeName (bs : List UInt8) : Option (String × List UInt8) := do
  let name := bs.takeWhile (· ≠ 0)
  match bs.drop name.length with
  | [] => none
  | _ :: rest => return (← textOf? name, rest)

/-- The elements of a framed document, and what stands behind it. -/
def takeFrame (bs : List UInt8) : Option (List UInt8 × List UInt8) := do
  let (head, _) ← takeBytes 4 bs
  let size := ofLittleEndian head
  let (frame, rest) ← takeBytes size bs
  if size < 5 || frame.getLast? ≠ some 0 then none
  else return ((frame.drop 4).dropLast, rest)

/-- A text with its length before it and a NUL behind it. -/
def takeText (bs : List UInt8) : Option (String × List UInt8) := do
  let (head, rest) ← takeBytes 4 bs
  let (body, rest) ← takeBytes (ofLittleEndian head) rest
  if body.getLast? ≠ some 0 then none
  else return (← textOf? body.dropLast, rest)

/-- Puts an entry among others, in place of an earlier one of its name. -/
def putEntry (name : String) (x : Node) : List (String × Node) → List (String × Node)
  | [] => [(name, x)]
  | (n, y) :: es => if n = name then (n, x) :: es else (n, y) :: putEntry name x es

mutual

/-- The value of a type at the start of some bytes, and the rest. -/
def takeValue : Nat → UInt8 → List UInt8 → Option (Node × List UInt8)
  | 0, _, _ => none
  | n + 1, t, bs =>
    match t.toNat with
    | 0x01 => do
      let (w, rest) ← takeBytes 8 bs
      return (.double (.ofWord (ofLittleEndian w)), rest)
    | 0x02 | 0x0e => do
      let (s, rest) ← takeText bs
      return (.text s, rest)
    | 0x03 => do
      let (body, rest) ← takeFrame bs
      return (.document (← takeEntries n [] body), rest)
    | 0x04 => do
      let (body, rest) ← takeFrame bs
      return (.list (← takeItems n body), rest)
    | 0x05 => do
      let (head, rest) ← takeBytes 4 bs
      let (_, rest) ← takeBytes 1 rest
      let (body, rest) ← takeBytes (ofLittleEndian head) rest
      return (.bytes body, rest)
    | 0x06 | 0x0a => some (.null, bs)
    | 0x08 => match bs with
      | b :: rest => if b = 0 then some (.bool false, rest)
        else if b = 1 then some (.bool true, rest) else none
      | [] => none
    | 0x09 => do
      let (w, rest) ← takeBytes 8 bs
      let millis := ofSignedBytes w
      let _ ← DateTime.ofEpoch? (1000 * millis) none
      return (.datetime millis, rest)
    | 0x10 => do
      let (w, rest) ← takeBytes 4 bs
      return (.int32 (ofSignedBytes w), rest)
    | 0x12 => do
      let (w, rest) ← takeBytes 8 bs
      return (.int64 (ofSignedBytes w), rest)
    | 0x13 => do
      let (w, rest) ← takeBytes 16 bs
      return (.decimal (ofLittleEndian w), rest)
    | _ => none

/-- The entries of a document, behind those that were read. -/
def takeEntries : Nat → List (String × Node) → List UInt8 → Option (List (String × Node))
  | _, es, [] => some es
  | 0, _, _ => none
  | n + 1, es, t :: bs => do
    let (name, bs) ← takeName bs
    let (x, rest) ← takeValue n t bs
    takeEntries n (putEntry name x es) rest

/-- The items of a list; their names are passed over. -/
def takeItems : Nat → List UInt8 → Option (List Node)
  | _, [] => some []
  | 0, _ => none
  | n + 1, t :: bs =>
    match bs.dropWhile (· ≠ 0) with
    | [] => none
    | _ :: bs => do
      let (x, rest) ← takeValue n t bs
      return x :: (← takeItems n rest)

end

/-- Reads a whole document. Every step takes at least a byte. -/
def decode (bs : List UInt8) : Except Fault Node :=
  match takeFrame bs with
  | some (body, []) => match takeEntries (bs.length + 1) [] body with
    | some es => .ok (.document es)
    | none => .error .badBinary
  | _ => .error .badBinary

end DocDelta.Bson
