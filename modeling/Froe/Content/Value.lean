import Froe.Content.List

/-!
# Value records

The high bits of the first byte give the size class: small and medium values
inline, long values as a list of blocks, external binaries by their identifier.
Strings are decoded as UTF-8 with replacement characters.
-/

namespace Froe

def smallValueLimit : Nat := 128

def mediumValueLimit : Nat := 2 ^ 14 + 128

def blockSize : Nat := 4096

/-- A byte as two hexadecimal digits in an error. -/
def hex8 (byte : UInt8) : String :=
  Utf8.ascii (Digits.fixed 16 2 byte.toNat)

/-- The blocks of a long value, one after the other.  The last one may be shorter. -/
def readBlocks (provider : SegmentProvider) : List RecordIdentifier → Nat → Result Bytes
  | [], _ => .ok []
  | block :: blocks, remaining => do
    let blockLength := min remaining blockSize
    let view ← provider block.segment
    let content ← view.readBytes block.recordNumber 0 blockLength
    let rest ← readBlocks provider blocks (remaining - blockLength)
    return content ++ rest

/-- Concatenates the blocks of a long value. -/
def readBlockList (provider : SegmentProvider) (listIdentifier : RecordIdentifier) (length : Nat) :
    Result Bytes := do
  let blocks ← uncountedListEntries provider listIdentifier ((length + blockSize - 1) / blockSize)
  readBlocks provider blocks length

def readStringStoredLength (provider : SegmentProvider) (identifier : RecordIdentifier) :
    Result Nat := do
  let view ← provider identifier.segment
  let head ← view.readU8 identifier.recordNumber 0
  if head &&& 0x80 = 0 then return head.toNat
  else if head &&& 0x40 = 0 then
    let stored ← view.readU16 identifier.recordNumber 0
    return (stored &&& 0x3FFF).toNat + smallValueLimit
  else if head &&& 0xE0 ≠ 0xC0 then
    invalid s!"record {identifier.display} starts with binary marker 0x{hex8 head} and is not a string"
  else
    let stored ← view.readU64 identifier.recordNumber 0
    let length := (stored &&& 0x3FFFFFFFFFFFFFFF).toNat + mediumValueLimit
    if length ≥ 2 ^ 31 - 1 then
      invalid s!"string of {length} bytes in record {identifier.display} is too long"
    else return length

def readString (provider : SegmentProvider) (identifier : RecordIdentifier) : Result String := do
  let view ← provider identifier.segment
  let head ← view.readU8 identifier.recordNumber 0
  if head &&& 0x80 = 0 then
    let bytes ← view.readBytes identifier.recordNumber 1 head.toNat
    return Utf8.decodeLossy bytes
  else if head &&& 0x40 = 0 then
    let stored ← view.readU16 identifier.recordNumber 0
    let bytes ← view.readBytes identifier.recordNumber 2
      ((stored &&& 0x3FFF).toNat + smallValueLimit)
    return Utf8.decodeLossy bytes
  else if head &&& 0x20 ≠ 0 then
    invalid s!"record {identifier.display} starts with binary marker 0x{hex8 head} and is not a string"
  else
    let stored ← view.readU64 identifier.recordNumber 0
    let length := (stored &&& 0x3FFFFFFFFFFFFFFF).toNat + mediumValueLimit
    if length ≥ 2 ^ 31 - 1 then
      invalid s!"string of {length} bytes in record {identifier.display} is too long"
    else
      let listIdentifier ← view.readRecordIdentifier identifier.recordNumber 8 0
      let bytes ← readBlockList provider listIdentifier length
      return Utf8.decodeLossy bytes

end Froe
