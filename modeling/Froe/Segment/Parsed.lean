import Froe.Tar.Trailers

/-!
# Parsed segments and segment views

A data segment starts with a 32-byte header, the table of referenced segments
and the table of records; the record data fills the tail of the buffer.  Record
offsets are positions in a virtual segment of 256 KiB whose end is the end of
the stored buffer.  A bulk segment has no header, and its record numbers are
the virtual offsets themselves.
-/

namespace Froe

/-! ## Records -/

/-- The types of records. -/
inductive RecordType where
  | mapLeaf
  | mapBranch
  | listBucket
  | list
  | value
  | block
  | template
  | node
  | externalBlobIdentifier
deriving DecidableEq, Repr

/-- The byte of a type. -/
def RecordType.toByte : RecordType → UInt8
  | .mapLeaf => 0
  | .mapBranch => 1
  | .listBucket => 2
  | .list => 3
  | .value => 4
  | .block => 5
  | .template => 6
  | .node => 7
  | .externalBlobIdentifier => 8

/-- The type of a byte. -/
def RecordType.fromByte (byte : UInt8) : Option RecordType :=
  match byte.toNat with
  | 0 => some .mapLeaf
  | 1 => some .mapBranch
  | 2 => some .listBucket
  | 3 => some .list
  | 4 => some .value
  | 5 => some .block
  | 6 => some .template
  | 7 => some .node
  | 8 => some .externalBlobIdentifier
  | _ => none

theorem RecordType.fromByte_toByte (type : RecordType) : fromByte type.toByte = some type := by
  cases type <;> rfl

/-- A row of the record table. -/
structure RecordTableEntry where
  recordNumber : UInt32
  /-- The raw type byte; a lookup by number never consults it. -/
  typeByte : UInt8
  /-- The offset in the virtual segment. -/
  offset : UInt32
deriving DecidableEq, Repr

/-- The type of a record, when its byte is a known one. -/
def RecordTableEntry.recordType (entry : RecordTableEntry) : Option RecordType :=
  RecordType.fromByte entry.typeByte

/-- What the rows are sorted by. -/
def RecordTableEntry.key (entry : RecordTableEntry) : Nat := entry.recordNumber.toNat

/-! ## The structure of a segment -/

/-- The virtual segment size, which is the largest stored size as well. -/
def maximumSegmentSize : Nat := 2 ^ 18

/-- The tables of a segment. -/
structure ParsedSegment where
  identifier : SegmentIdentifier
  kind : SegmentKind
  /-- The stored length. -/
  size : Nat
  /-- The format version of a data segment. -/
  version : Option UInt8
  generation : Int32
  fullGeneration : Int32
  isCompacted : Bool
  /-- The referenced segments.  Reference `n` is entry `n - 1`, and 0 is the segment. -/
  referencedSegments : List SegmentIdentifier
  recordTable : List RecordTableEntry
  /-- Record numbers strictly increase. -/
  sorted : Search.StrictlySorted RecordTableEntry.key recordTable

/-- The generation of a segment. -/
def ParsedSegment.garbageCollectionGeneration (segment : ParsedSegment) :
    GarbageCollectionGeneration :=
  ⟨segment.generation, segment.fullGeneration, segment.isCompacted⟩

/-- The checked header of a data segment. -/
structure DataSegmentHeader where
  version : UInt8
  generation : Int32
  fullGeneration : Int32
  isCompacted : Bool
  segmentReferenceCount : Nat
  recordCount : Nat
  recordTableStart : Nat
deriving DecidableEq, Repr

/-- The generation fields of the header.  Version 13 keeps the compacted flag in the sign
bit of the full generation; version 12 repeats the generation. -/
def headerGeneration (version : UInt8) (bytes : Bytes) : GarbageCollectionGeneration :=
  let generation := (bytes.u32At 10).toInt32
  if version = 13 then
    let raw := bytes.u32At 4
    ⟨generation, (raw &&& 0x7FFFFFFF).toInt32, signed32 raw < 0⟩
  else ⟨generation, generation, true⟩

/-- Validates the fixed header and that both tables fit in the buffer. -/
def validateDataSegmentHeader (identifier : SegmentIdentifier) (bytes : Bytes) :
    Result DataSegmentHeader :=
  if bytes.length < 32 then
    invalid s!"data segment {identifier.display} has only {bytes.length} bytes, the header needs 32"
  else if bytes.take 3 ≠ "0aK".utf8 then
    invalid s!"data segment {identifier.display} does not start with the magic bytes \"0aK\""
  else
    let version := bytes.getD 3 0
    if version ≠ 12 ∧ version ≠ 13 then
      invalid s!"data segment {identifier.display} has unsupported format version {version}"
    else
      let generation := headerGeneration version bytes
      let segmentReferenceCount := signed32 (bytes.u32At 14)
      let recordCount := signed32 (bytes.u32At 18)
      if segmentReferenceCount < 0 ∨ 0xFFFD < segmentReferenceCount then
        invalid s!"data segment {identifier.display} declares {segmentReferenceCount} segment references, the limit is 65533"
      else if recordCount < 0 then
        invalid s!"data segment {identifier.display} declares a negative record count"
      else
        let recordTableStart := 32 + segmentReferenceCount.toNat * 16
        if recordTableStart + recordCount.toNat * 9 > bytes.length then
          invalid s!"data segment {identifier.display} of {bytes.length} bytes cannot hold {segmentReferenceCount} segment references and {recordCount} record references"
        else
          .ok ⟨version, generation.generation, generation.fullGeneration, generation.isCompacted,
            segmentReferenceCount.toNat, recordCount.toNat, recordTableStart⟩

/-- Reads `count` entries of the record table from the rest of the table on, each held to
the ranges and to the order. -/
def parseRecordTable (identifier : SegmentIdentifier) :
    Nat → Option Nat → Bytes → Result (List RecordTableEntry)
  | 0, _, _ => .ok []
  | count + 1, previous, table =>
    let recordNumber := signed32 (table.u32At 0)
    let offset := signed32 (table.u32At 5)
    if recordNumber < 0 then
      invalid s!"data segment {identifier.display} contains negative record number {recordNumber}"
    else if offset < 0 ∨ maximumSegmentSize ≤ offset then
      invalid s!"data segment {identifier.display} contains out-of-range record offset {offset}"
    else if ∃ number ∈ previous, recordNumber ≤ number then
      invalid s!"record table of segment {identifier.display} is not sorted by record number"
    else do
      let entry : RecordTableEntry := ⟨table.u32At 0, table.getD 4 0, table.u32At 5⟩
      let rest ← parseRecordTable identifier count (some entry.key) (table.drop 9)
      return entry :: rest

variable {identifier : SegmentIdentifier} {previous : Option Nat}
  {entries : List RecordTableEntry}

theorem parseRecordTable_succ {count : Nat} {table : Bytes} :
    parseRecordTable identifier (count + 1) previous table = .ok entries ↔
      0 ≤ signed32 (table.u32At 0) ∧ 0 ≤ signed32 (table.u32At 5) ∧
        signed32 (table.u32At 5) < maximumSegmentSize ∧
        (∀ number ∈ previous, number < (table.u32At 0).toNat) ∧
        ∃ rest, entries = ⟨table.u32At 0, table.getD 4 0, table.u32At 5⟩ :: rest ∧
          parseRecordTable identifier count (some (table.u32At 0).toNat) (table.drop 9) =
            .ok rest := by
  rw [parseRecordTable]
  simp only [RecordTableEntry.key]
  split
  · rename_i hneg
    simp only [invalid, reduceCtorEq, false_iff]
    rintro ⟨h, -⟩
    omega
  rename_i hneg
  have hnumber : signed32 (table.u32At 0) = (table.u32At 0).toNat :=
    signed32_of_nonneg (by omega)
  split
  · rename_i hoffset
    simp only [invalid, reduceCtorEq, false_iff]
    rintro ⟨-, h0, h1, -⟩
    omega
  split
  · rename_i hoffset hsorted
    simp only [invalid, reduceCtorEq, false_iff]
    rintro ⟨-, -, -, habove, -⟩
    obtain ⟨number, hin, hle⟩ := hsorted
    have := habove number hin
    omega
  · rename_i hoffset hsorted
    rw [Except.bind_ok_iff]
    constructor
    · rintro ⟨rest, hrest, heq⟩
      cases heq
      refine ⟨by omega, by omega, by omega, ?_, rest, rfl, hrest⟩
      intro number hin
      by_contra hge
      exact hsorted ⟨number, hin, by omega⟩
    · rintro ⟨-, -, -, -, rest, rfl, hrest⟩
      exact ⟨rest, hrest, rfl⟩

/-- The record numbers of a parsed table strictly increase. -/
theorem parseRecordTable_spec {count : Nat} {table : Bytes}
    (h : parseRecordTable identifier count previous table = .ok entries) :
    Search.StrictlySorted RecordTableEntry.key entries ∧
      ∀ number ∈ previous, ∀ entry ∈ entries, number < entry.key := by
  induction count generalizing previous table entries with
  | zero =>
    cases h
    exact ⟨List.Pairwise.nil, by simp⟩
  | succ count ih =>
    obtain ⟨-, -, -, hprevious, rest, rfl, hrest⟩ := parseRecordTable_succ.mp h
    obtain ⟨hsorted, habove⟩ := ih hrest
    have hlater : ∀ later ∈ rest, (table.u32At 0).toNat < later.key := habove _ rfl
    refine ⟨List.pairwise_cons.mpr ⟨hlater, hsorted⟩, ?_⟩
    intro number hin later hmem
    rcases List.mem_cons.mp hmem with rfl | hmem
    · exact hprevious number hin
    · exact lt_trans (hprevious number hin) (hlater later hmem)

/-- Parses a data segment. -/
def parseDataSegment (identifier : SegmentIdentifier) (bytes : Bytes) : Result ParsedSegment :=
  match validateDataSegmentHeader identifier bytes with
  | .error error => .error error
  | .ok header =>
    match h : parseRecordTable identifier header.recordCount none
      (bytes.drop header.recordTableStart) with
    | .error error => .error error
    | .ok recordTable =>
      .ok {
        identifier := identifier
        kind := .data
        size := bytes.length
        version := some header.version
        generation := header.generation
        fullGeneration := header.fullGeneration
        isCompacted := header.isCompacted
        referencedSegments := (readIdentifiers header.segmentReferenceCount (bytes.drop 32)).1
        recordTable := recordTable
        sorted := (parseRecordTable_spec h).1 }

/-- A bulk segment, which has no tables. -/
def ParsedSegment.bulk (identifier : SegmentIdentifier) (size : Nat) : ParsedSegment :=
  ⟨identifier, .bulk, size, none, 0, 0, false, [], [], List.Pairwise.nil⟩

/-- Parses a segment, by the kind in its identifier. -/
def ParsedSegment.parse (identifier : SegmentIdentifier) (bytes : Bytes) : Result ParsedSegment :=
  if bytes.length > maximumSegmentSize then
    invalid s!"segment {identifier.display} has {bytes.length} bytes, exceeding the {maximumSegmentSize}-byte format limit"
  else
    match identifier.kind with
    | none => invalid s!"segment {identifier.display} is neither a data nor a bulk segment"
    | some .bulk => .ok (.bulk identifier bytes.length)
    | some .data => parseDataSegment identifier bytes

namespace ParsedSegment

/-- The virtual offset of a record. -/
def recordOffset (segment : ParsedSegment) (recordNumber : UInt32) : Option UInt32 :=
  match segment.kind with
  | .bulk => some recordNumber
  | .data =>
    (Search.binarySearch RecordTableEntry.key recordNumber.toNat segment.recordTable).map
      RecordTableEntry.offset

/-- The type of a record, when the table knows it. -/
def recordType (segment : ParsedSegment) (recordNumber : UInt32) : Option RecordType :=
  (Search.binarySearch RecordTableEntry.key recordNumber.toNat segment.recordTable).bind
    RecordTableEntry.recordType

/-- The position of a virtual offset in the buffer. -/
def bufferPosition (segment : ParsedSegment) (virtualOffset : UInt32) : Result Nat :=
  let position : Int := (segment.size : Int) - maximumSegmentSize + virtualOffset.toNat
  if position < 0 ∨ (segment.size : Int) ≤ position then
    invalid s!"virtual offset {virtualOffset} is outside segment {segment.identifier.display} of {segment.size} bytes"
  else .ok position.toNat

/-- Resolves the segment reference of a serialized record identifier. -/
def resolveSegmentReference (segment : ParsedSegment) (reference : UInt16) :
    Result SegmentIdentifier :=
  if reference = 0 then .ok segment.identifier
  else
    match segment.referencedSegments[reference.toNat - 1]? with
    | some identifier => .ok identifier
    | none =>
      invalid s!"segment reference {reference} is out of bounds in segment {segment.identifier.display} with {segment.referencedSegments.length} references"

end ParsedSegment

/-! ## Segment views -/

/-- One parsed segment with its bytes. -/
structure SegmentView where
  structure_ : ParsedSegment
  bytes : Bytes

namespace SegmentView

/-- Where a record begins in the buffer. -/
def recordPosition (view : SegmentView) (recordNumber : UInt32) : Result Nat :=
  match view.structure_.recordOffset recordNumber with
  | some offset => view.structure_.bufferPosition offset
  | none =>
    invalid s!"record {recordNumber} does not exist in segment {view.structure_.identifier.display}"

/-- Reads bytes of a record. -/
def readBytes (view : SegmentView) (recordNumber : UInt32) (offset length : Nat) : Result Bytes := do
  let position ← view.recordPosition recordNumber
  match view.bytes.range? (position + offset) (position + offset + length) with
  | some bytes => .ok bytes
  | none =>
    invalid s!"read of {length} bytes at offset {offset} of record {recordNumber} overruns segment {view.structure_.identifier.display}"

/-- Reads one byte. -/
def readU8 (view : SegmentView) (recordNumber : UInt32) (offset : Nat) : Result UInt8 := do
  return (← view.readBytes recordNumber offset 1).getD 0 0

/-- Reads a 16-bit word. -/
def readU16 (view : SegmentView) (recordNumber : UInt32) (offset : Nat) : Result UInt16 := do
  return (← view.readBytes recordNumber offset 2).u16At 0

/-- Reads a 32-bit word. -/
def readU32 (view : SegmentView) (recordNumber : UInt32) (offset : Nat) : Result UInt32 := do
  return (← view.readBytes recordNumber offset 4).u32At 0

/-- Reads a 64-bit word. -/
def readU64 (view : SegmentView) (recordNumber : UInt32) (offset : Nat) : Result UInt64 := do
  return (← view.readBytes recordNumber offset 8).u64At 0

/-- Reads the serialized record identifier with the given index behind `rawOffset`. -/
def readRecordIdentifier (view : SegmentView) (recordNumber : UInt32)
    (rawOffset identifierIndex : Nat) : Result RecordIdentifier := do
  let offset := rawOffset + identifierIndex * 6
  let reference ← view.readU16 recordNumber offset
  let target ← view.readU32 recordNumber (offset + 2)
  let segment ← view.structure_.resolveSegmentReference reference
  return ⟨segment, target⟩

end SegmentView

end Froe
