import Froe.Content.Value

/-!
# Binary values

An inline binary has the size classes of a string; an external one is the
identifier under which a blob store knows it.  The content of an inline binary
is read as a stream of chunks that stop at the block boundaries.
-/

namespace Froe

def readValueLength (provider : SegmentProvider) (identifier : RecordIdentifier) :
    Result Nat := do
  let view ← provider identifier.segment
  let head ← view.readU8 identifier.recordNumber 0
  if head &&& 0x80 = 0 then return head.toNat
  else if head &&& 0x40 = 0 then
    let stored ← view.readU16 identifier.recordNumber 0
    return (stored &&& 0x3FFF).toNat + smallValueLimit
  else if head &&& 0x20 = 0 then
    let stored ← view.readU64 identifier.recordNumber 0
    return (stored &&& 0x1FFFFFFFFFFFFFFF).toNat + mediumValueLimit
  else
    invalid s!"value record {identifier.display} starts with external binary marker 0x{hex8 head}; its length is not stored in the segment"

/-- A binary as far as the segment store knows it. -/
inductive BinaryValue where
  | inline (length : Nat) (recordIdentifier : RecordIdentifier)
  | external (blobIdentifier : String)
deriving DecidableEq

/-- Tells an inline binary from an external one. -/
def readBinaryValue (provider : SegmentProvider) (identifier : RecordIdentifier) :
    Result BinaryValue := do
  let view ← provider identifier.segment
  let head ← view.readU8 identifier.recordNumber 0
  if head &&& 0x80 = 0 ∨ head &&& 0x40 = 0 ∨ head &&& 0x20 = 0 then
    return .inline (← readValueLength provider identifier) identifier
  else if head &&& 0x10 = 0 then
    let stored ← view.readU16 identifier.recordNumber 0
    let bytes ← view.readBytes identifier.recordNumber 2 (stored &&& 0x0FFF).toNat
    return .external (Utf8.decodeLossy bytes)
  else if head &&& 0x08 = 0 then
    let stringIdentifier ← view.readRecordIdentifier identifier.recordNumber 1 0
    return .external (← readString provider stringIdentifier)
  else
    invalid s!"unexpected value record marker 0x{hex8 head} in record {identifier.display}"

/-! ## Streams -/

/-- Where the content of a stream is. -/
inductive BinaryStreamSource where
  | direct (recordIdentifier : RecordIdentifier) (contentOffset : Nat)
  | blocks (listIdentifier : RecordIdentifier) (blockCount : Nat)

/-- A reader over an inline binary.  The block resolved last is not kept: resolving is a function
of the provider. -/
structure BinaryStream where
  source : BinaryStreamSource
  length : Nat
  position : Nat

/-- Opens a stream over the blocks of a long value. -/
def openBlockStream (view : SegmentView) (identifier : RecordIdentifier) (length : Nat) :
    Result BinaryStream :=
  let blockCount := (length + blockSize - 1) / blockSize
  if blockCount > maximumListSize then
    invalid s!"binary of {length} bytes in record {identifier.display} needs {blockCount} blocks, exceeding the list maximum of {maximumListSize}"
  else do
    let listIdentifier ← view.readRecordIdentifier identifier.recordNumber 8 0
    return ⟨.blocks listIdentifier blockCount, length, 0⟩

/-- Opens a stream over an inline binary. -/
def readBinaryStream (provider : SegmentProvider) (identifier : RecordIdentifier) :
    Result BinaryStream := do
  let view ← provider identifier.segment
  let head ← view.readU8 identifier.recordNumber 0
  if head &&& 0x80 = 0 then return ⟨.direct identifier 1, head.toNat, 0⟩
  else if head &&& 0x40 = 0 then
    let stored ← view.readU16 identifier.recordNumber 0
    return ⟨.direct identifier 2, (stored &&& 0x3FFF).toNat + smallValueLimit, 0⟩
  else if head &&& 0x20 = 0 then
    let stored ← view.readU64 identifier.recordNumber 0
    openBlockStream view identifier ((stored &&& 0x1FFFFFFFFFFFFFFF).toNat + mediumValueLimit)
  else if head &&& 0x10 = 0 then
    let stored ← view.readU16 identifier.recordNumber 0
    let bytes ← view.readBytes identifier.recordNumber 2 (stored &&& 0x0FFF).toNat
    throw (.externalBinaryContentUnavailable (Utf8.decodeLossy bytes))
  else if head &&& 0x08 = 0 then
    let stringIdentifier ← view.readRecordIdentifier identifier.recordNumber 1 0
    throw (.externalBinaryContentUnavailableByRecord identifier stringIdentifier)
  else
    invalid s!"unexpected value record marker 0x{hex8 head} in record {identifier.display}"

namespace BinaryStream

/-- Reads a chunk for a buffer.  A long value is read up to the end of a block. -/
def readChunk (provider : SegmentProvider) (stream : BinaryStream) (capacity : Nat) :
    Result Bytes := do
  if capacity = 0 ∨ stream.position = stream.length then return []
  else
    let maximumRead := min (stream.length - stream.position) capacity
    match stream.source with
    | .direct recordIdentifier contentOffset =>
      let view ← provider recordIdentifier.segment
      view.readBytes recordIdentifier.recordNumber (contentOffset + stream.position) maximumRead
    | .blocks listIdentifier blockCount =>
      let blockOffset := stream.position % blockSize
      let blockIdentifier ← uncountedListEntry provider listIdentifier blockCount
        (stream.position / blockSize)
      let view ← provider blockIdentifier.segment
      view.readBytes blockIdentifier.recordNumber blockOffset
        (min maximumRead (blockSize - blockOffset))

/-- Reads chunks of 8192 bytes until one is empty.  Every other chunk has a byte, so that the
length bounds the number of rounds. -/
def readChunks (provider : SegmentProvider) : Nat → BinaryStream → Result Bytes
  | 0, _ => .ok []
  | rounds + 1, stream => do
    let chunk ← stream.readChunk provider 8192
    if chunk.length = 0 then return []
    else
      let rest ← readChunks provider rounds
        { stream with position := stream.position + chunk.length }
      return chunk ++ rest

end BinaryStream

def readBinaryContent (provider : SegmentProvider) (identifier : RecordIdentifier) :
    Result Bytes :=
  match readBinaryStream provider identifier with
  | .ok stream => stream.readChunks provider (stream.length + 1)
  | .error (.externalBinaryContentUnavailableByRecord ..) => do
    match ← readBinaryValue provider identifier with
    | .external blobIdentifier => throw (.externalBinaryContentUnavailable blobIdentifier)
    | .inline .. =>
      invalid s!"binary value {identifier.display} changed classification while resolving its external identifier"
  | .error error => .error error

/-! ## Lengths -/

theorem length_readBytes {view : SegmentView} {number : UInt32} {offset length : Nat}
    {bytes : Bytes} (h : view.readBytes number offset length = .ok bytes) :
    bytes.length = length := by
  obtain ⟨position, -, h⟩ := Except.bind_ok_iff.mp h
  split at h
  · rename_i hrange
    cases h
    have := Bytes.length_of_range? hrange
    omega
  · cases h

/-- A chunk fills the buffer, unless the value or the block ends before. -/
theorem length_readChunk {provider : SegmentProvider} {stream : BinaryStream} {capacity : Nat}
    {chunk : Bytes} (h : stream.readChunk provider capacity = .ok chunk) :
    chunk.length = if stream.position = stream.length then 0 else
      match stream.source with
      | .direct .. => min (stream.length - stream.position) capacity
      | .blocks .. => min (min (stream.length - stream.position) capacity)
        (blockSize - stream.position % blockSize) := by
  rw [BinaryStream.readChunk] at h
  split at h
  · rename_i hend
    cases h
    rcases hend with rfl | hend
    · split
      · rfl
      · split
        · simp
        · simp
    · rw [if_pos hend]
      rfl
  · rename_i hend
    rw [if_neg fun h => hend (.inr h)]
    dsimp only at h
    split at h
    · obtain ⟨view, -, h⟩ := Except.bind_ok_iff.mp h
      exact length_readBytes h
    · obtain ⟨block, -, h⟩ := Except.bind_ok_iff.mp h
      obtain ⟨view, -, h⟩ := Except.bind_ok_iff.mp h
      exact length_readBytes h

end Froe
