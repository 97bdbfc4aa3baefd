import Froe.Segment.Parsed
import Froe.Tar.Writer

/-!
# Building one segment

Records accumulate from the end of a virtual buffer of 256 KiB toward the
header, so that an offset stays valid after the final trim.  A finished segment
has the header, the table of referenced segments and the table of records in
front of the record data.

The builder is kept as the list of its records in the order of their numbers;
the buffer is what `recordData` makes of it.
-/

namespace Froe

/-- The size of the header. -/
def headerSize : Nat := 32

/-- The size of a segment reference. -/
def segmentReferenceSize : Nat := 16

/-- The size of a row of the record table. -/
def recordReferenceSize : Nat := 9

/-- The most referenced segments a reader accepts. -/
def maximumSegmentReferences : Nat := 0xFFFD

/-- A record under construction. -/
structure BufferedRecord where
  recordType : RecordType
  content : Bytes
deriving DecidableEq, Repr

/-- A size rounded up to four bytes. -/
def alignedSize (size : Nat) : Nat := (size + 3) / 4 * 4

/-- A finished segment. -/
structure BuiltSegment where
  identifier : SegmentIdentifier
  bytes : Bytes
  generation : GarbageCollectionGeneration
  referencedSegments : List SegmentIdentifier
  /-- The external binary identifiers of the segment, for the catalog of the archive. -/
  binaryReferenceIdentifiers : List String

/-- One data segment under construction. -/
structure SegmentBufferBuilder where
  identifier : SegmentIdentifier
  generation : GarbageCollectionGeneration
  /-- The records, by number. -/
  records : List BufferedRecord
  referencedSegments : List SegmentIdentifier
  binaryReferenceIdentifiers : List String

/-- The bytes of some records, each aligned. -/
def dataLength (records : List BufferedRecord) : Nat :=
  (records.map fun record => alignedSize record.content.length).sum

/-- The records, the last one first. -/
def recordData : List BufferedRecord → Bytes
  | [] => []
  | record :: records =>
    recordData records ++ (record.content ++
      List.replicate (alignedSize record.content.length - record.content.length) 0)

namespace SegmentBufferBuilder

variable (b : SegmentBufferBuilder)

/-- A segment without records. -/
def new (identifier : SegmentIdentifier) (generation : GarbageCollectionGeneration) :
    SegmentBufferBuilder :=
  ⟨identifier, generation, [], [], []⟩

/-- Registers a reference to a binary. -/
def registerBinaryReference (blobIdentifier : String) : SegmentBufferBuilder :=
  { b with binaryReferenceIdentifiers := b.binaryReferenceIdentifiers ++ [blobIdentifier] }

/-- How many of some segments are new to the table. -/
def newReferences (referenced : List SegmentIdentifier) : Nat :=
  (referenced.filter fun segment =>
    segment ≠ b.identifier ∧ segment ∉ b.referencedSegments).length

/-- Whether a record of a size fits, with all it references taken as new entries. -/
def fits (size : Nat) (referenced : List SegmentIdentifier) : Bool :=
  let references := b.referencedSegments.length + b.newReferences referenced
  let tablesLength := headerSize + references * segmentReferenceSize +
    (b.records.length + 1) * recordReferenceSize
  references ≤ maximumSegmentReferences ∧
    tablesLength + (dataLength b.records + alignedSize size) ≤ maximumSegmentSize

/-- Allocates a record of zero bytes, unless the segment is full. -/
def allocate (recordType : RecordType) (size : Nat) (referenced : List SegmentIdentifier) :
    Option (Nat × SegmentBufferBuilder) :=
  if b.fits size referenced then
    some (b.records.length,
      { b with records := b.records ++ [⟨recordType, List.replicate size 0⟩] })
  else none

/-- Copies bytes into a record. -/
def copyInto (recordNumber offset : Nat) (bytes : Bytes) : SegmentBufferBuilder :=
  { b with records := b.records.modify recordNumber fun record =>
      { record with content := record.content.splice offset bytes } }

/-- The reference under which the segment addresses another one: 0 for itself, else the position
in the table, counted from 1. -/
def referenceFor (segment : SegmentIdentifier) : Nat × SegmentBufferBuilder :=
  if segment = b.identifier then (0, b)
  else if segment ∈ b.referencedSegments then (b.referencedSegments.idxOf segment + 1, b)
  else
    (b.referencedSegments.length + 1,
      { b with referencedSegments := b.referencedSegments ++ [segment] })

/-- Writes an identifier into a record. -/
def writeIdentifierAt (recordNumber offset : Nat) (identifier : RecordIdentifier) :
    SegmentBufferBuilder :=
  let (reference, b) := b.referenceFor identifier.segment
  b.copyInto recordNumber offset (Bytes.be 2 reference ++ Bytes.be32 identifier.recordNumber)

/-- The header of a finished segment. -/
def header : Bytes :=
  let fullGenerationWord := (b.generation.fullGeneration.toUInt32 &&& 0x7FFFFFFF) |||
    if b.generation.isCompacted then 0x80000000 else 0
  "0aK".utf8 ++ [13] ++ Bytes.be32 fullGenerationWord ++ [0, 0] ++
    Bytes.be32 b.generation.generation.toUInt32 ++ Bytes.be 4 b.referencedSegments.length ++
    Bytes.be 4 b.records.length ++ List.replicate 10 0

/-- The rows of the record table. -/
def tableRows : Nat → Nat → List BufferedRecord → Bytes
  | _, _, [] => []
  | number, start, record :: records =>
    Bytes.be 4 number ++ [record.recordType.toByte] ++
      Bytes.be 4 (start - alignedSize record.content.length) ++
      tableRows (number + 1) (start - alignedSize record.content.length) records

/-- The header and the two tables. -/
def tables : Bytes :=
  b.header ++ b.referencedSegments.flatMap identifierBytes ++
    tableRows 0 maximumSegmentSize b.records

/-- Finishes the segment: the tables, zeros up to a multiple of sixteen bytes in all, and the
record data. -/
def finish : BuiltSegment :=
  let tablesLength := headerSize + b.referencedSegments.length * segmentReferenceSize +
    b.records.length * recordReferenceSize
  let contentLength := tablesLength + dataLength b.records
  let totalLength := (contentLength + 15) / 16 * 16
  { identifier := b.identifier
    bytes := b.tables ++ List.replicate (totalLength - contentLength) 0 ++ recordData b.records
    generation := b.generation
    referencedSegments := b.referencedSegments
    binaryReferenceIdentifiers := b.binaryReferenceIdentifiers }

end SegmentBufferBuilder

end Froe
