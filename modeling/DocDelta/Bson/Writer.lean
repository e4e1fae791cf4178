import DocDelta.Bson.Node

/-! Writing the BSON notation.

A document is its length, its elements and a closing NUL; an element is a type byte, a name
ended by a NUL, and a value. Numbers stand with their lowest byte first. A list is a document
whose names are the places of its items. -/
namespace DocDelta.Bson
open Number

/-- A number in a fixed count of bytes, the lowest first. -/
def littleEndian : Nat → Nat → List UInt8
  | 0, _ => []
  | count + 1, n => UInt8.ofNat (n % 256) :: littleEndian count (n / 256)

/-- A signed number in a fixed count of bytes, as a two's complement. -/
def signedBytes (count : Nat) (n : Int) : List UInt8 :=
  littleEndian count (n % power 2 (8 * count)).toNat

/-- A text and a NUL. -/
def nameBytes (s : String) : List UInt8 := s.toUTF8.toList ++ [0]

/-- Elements between their length and a NUL. -/
def framed (elements : List UInt8) : List UInt8 :=
  littleEndian 4 (elements.length + 5) ++ elements ++ [0]

mutual

/-- The type byte of a value and its bytes. -/
def valueBytes : Node → UInt8 × List UInt8
  | .null => (0x0a, [])
  | .bool b => (0x08, [if b then 1 else 0])
  | .int32 n => (0x10, signedBytes 4 n)
  | .int64 n => (0x12, signedBytes 8 n)
  | .double x => (0x01, littleEndian 8 x.toWord)
  | .text s =>
    let bs := nameBytes s
    (0x02, littleEndian 4 bs.length ++ bs)
  | .bytes bs => (0x05, littleEndian 4 bs.length ++ 0 :: bs)
  | .datetime millis => (0x09, signedBytes 8 millis)
  | .decimal w => (0x13, littleEndian 16 w)
  | .list xs => (0x04, framed (itemBytes 0 xs))
  | .document es => (0x03, framed (entryBytes es))

/-- The items of a list, named by their places. -/
def itemBytes (place : Nat) : List Node → List UInt8
  | [] => []
  | x :: xs =>
    let (t, bs) := valueBytes x
    t :: nameBytes (decimalText place) ++ bs ++ itemBytes (place + 1) xs

/-- The entries of a document. -/
def entryBytes : List (String × Node) → List UInt8
  | [] => []
  | e :: es => elementBytes e ++ entryBytes es

/-- One element. -/
def elementBytes : String × Node → List UInt8
  | (name, x) =>
    let (t, bs) := valueBytes x
    t :: nameBytes name ++ bs

end

/-- The bytes of a whole document. -/
def encode (x : Node) : List UInt8 := (valueBytes x).2

/-- The update document of a patch, written. -/
def writePatch (h : Heap) (p : Patch) : Except Fault (List UInt8) := return encode (← ofPatch? h p)

end DocDelta.Bson
