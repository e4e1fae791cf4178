import DocDelta.Number.Digits
import DocDelta.Text.Printable

/-! Quoted literals of texts and byte strings.

A literal stands in single quotes, or in double quotes when it holds a single quote and no
double one. The quote, the backslash and everything unprintable is escaped. -/
namespace DocDelta.Text
open Number

/-- The quote around a literal. -/
def quoteFor (cs : List Char) : Char :=
  if cs.contains '\x27' && !cs.contains '"' then '"' else '\x27'

/-- One character inside a literal. -/
def escaped (quote c : Char) : List Char :=
  if c = quote || c = '\\' then ['\\', c]
  else if c = '\t' then ['\\', 't']
  else if c = '\n' then ['\\', 'n']
  else if c = '\r' then ['\\', 'r']
  else if isPrintable c then [c]
  else
    let n := c.toNat
    if n < 0x100 then '\\' :: 'x' :: (hexText 2 n).toList
    else if n < 0x10000 then '\\' :: 'u' :: (hexText 4 n).toList
    else '\\' :: 'U' :: (hexText 8 n).toList

/-- The literal of a text. -/
def quotedChars (cs : List Char) : String :=
  let quote := quoteFor cs
  String.ofList (quote :: cs.flatMap (escaped quote) ++ [quote])

/-- The literal of a text. -/
def quoted (s : String) : String := quotedChars s.toList

/-- One byte inside a literal; bytes outside ASCII are escaped. -/
def escapedByte (quote : Char) (b : UInt8) : List Char :=
  let n := b.toNat
  if n < 0x7f then escaped quote (Char.ofNat n) else '\\' :: 'x' :: (hexText 2 n).toList

/-- A literal of bytes, where `escape` says what stands for a byte between the quotes. -/
def bytesBetween (escape : Char → UInt8 → List Char) (bs : List UInt8) : String :=
  let quote := quoteFor (bs.map fun b => Char.ofNat b.toNat)
  String.ofList ('b' :: quote :: bs.flatMap (escape quote) ++ [quote])

/-- The literal of a byte string. -/
def quotedBytes (bs : List UInt8) : String := bytesBetween escapedByte bs

/-- The literal of the bytes of a buffer, where a single quote is escaped in any quotes. -/
def quotedBuffer (bs : List UInt8) : String :=
  bytesBetween (fun quote b => if b = 0x27 then ['\\', '\x27'] else escapedByte quote b) bs

end DocDelta.Text
