import Froe.Lib.OrderedMap
import Froe.Tar.Archive
import Mathlib.Data.String.Basic

/-!
# Writing one segment archive

The file is created by the first segment write.  Segment entries pad after
their payload; graph edges and binary references accumulate in memory and reach
the file in `close`, as the `.brf`, `.gph` and `.idx` trailers and two zero
blocks.  The first two trailers pad in front of their payload, and the payload
of the index is itself padded in front, so that each ends on a block boundary.
-/

namespace Froe

/-! ## The orders of the trailers -/

/-- Identifiers in the order of their unsigned halves. -/
instance : LinearOrder SegmentIdentifier :=
  LinearOrder.lift' (fun s => toLex (s.mostSignificantBits.toNat, s.leastSignificantBits.toNat)) <| by
    rintro ⟨a, b⟩ ⟨c, d⟩ h
    simpa [UInt64.toNat_inj] using toLex.injective h

instance SegmentIdentifier.isTrans_le : IsTrans SegmentIdentifier (· ≤ ·) := ⟨fun _ _ _ => le_trans⟩

instance SegmentIdentifier.antisymm_le : Std.Antisymm fun s t : SegmentIdentifier => s ≤ t :=
  ⟨fun _ _ => le_antisymm⟩

instance SegmentIdentifier.total_le : Std.Total fun s t : SegmentIdentifier => s ≤ t :=
  ⟨le_total⟩

/-- Generations in the order of their fields. -/
instance : LinearOrder GarbageCollectionGeneration :=
  LinearOrder.lift' (fun g => toLex (g.generation.toInt, toLex (g.fullGeneration.toInt,
      g.isCompacted))) <| by
    rintro ⟨a, b, c⟩ ⟨d, e, f⟩ h
    simpa [Int32.toInt_inj] using toLex.injective h

/-! ## The writer -/

/-- One segment recorded for the index. -/
structure PendingIndexEntry where
  /-- The identifier. -/
  identifier : SegmentIdentifier
  /-- The file offset of the first payload byte. -/
  dataOffset : UInt32
  /-- The size of the payload. -/
  size : UInt32
  /-- The generation. -/
  generation : GarbageCollectionGeneration
deriving DecidableEq, Repr

/-- The targets of every source. -/
abbrev GraphEdges := Finmap fun _ : SegmentIdentifier => Finset SegmentIdentifier

/-- The references of every segment. -/
abbrev SegmentReferences := Finmap fun _ : SegmentIdentifier => Finset String

/-- The references of every generation. -/
abbrev BinaryReferencesByGeneration :=
  Finmap fun _ : GarbageCollectionGeneration => SegmentReferences

/-- An archive that is being written. -/
structure TarArchiveWriter where
  /-- The archive name that the trailer entries carry. -/
  fileName : String
  /-- The bytes written so far, once the file is created. -/
  file : Option Bytes
  /-- The length of the file. -/
  length : Nat
  /-- The segments in the order of their writes. -/
  indexEntries : List PendingIndexEntry
  /-- The edges of the graph trailer. -/
  graphEdges : GraphEdges
  /-- The references of the catalog trailer. -/
  binaryReferences : BinaryReferencesByGeneration
  /-- Whether the archive is closed. -/
  closed : Bool

namespace TarArchiveWriter

/-- A writer that has not created its file yet. -/
def new (fileName : String) : TarArchiveWriter := ⟨fileName, none, 0, [], ∅, ∅, false⟩

/-- The catalog with references of a segment added under a generation. -/
def insertReferences (catalog : BinaryReferencesByGeneration)
    (generation : GarbageCollectionGeneration) (source : SegmentIdentifier)
    (references : List String) : BinaryReferencesByGeneration :=
  catalog.upsert generation ∅ fun segments =>
    segments.upsert source ∅ fun existing => existing ∪ references.toFinset

/-- Registers references under an explicit generation. -/
def addBinaryReferences (writer : TarArchiveWriter) (generation : GarbageCollectionGeneration)
    (source : SegmentIdentifier) (references : List String) : TarArchiveWriter :=
  { writer with
    binaryReferences := insertReferences writer.binaryReferences generation source references }

/-- A segment entry: header, content and padding. -/
def segmentEntryBytes (seconds : UInt64) (identifier : SegmentIdentifier) (content : Bytes) :
    Bytes :=
  entryHeader seconds (segmentEntryName identifier (crc32 content)) (UInt64.ofNat content.length) ++
    content ++ List.replicate (paddingSize content.length) 0

/-- Writes one segment entry and registers its graph edges and binary references.  The
result is the file length; past the limit the bytes are in the file but the segment is
not recorded. -/
def writeSegment (writer : TarArchiveWriter) (seconds : UInt64) (identifier : SegmentIdentifier)
    (content : Bytes) (generation : GarbageCollectionGeneration)
    (referencedSegments : List SegmentIdentifier) (binaryReferenceIdentifiers : List String) :
    TarArchiveWriter × Result Nat :=
  if writer.closed then
    (writer, invalid s!"archive {writer.fileName} is already closed")
  else
    let dataOffset := writer.length + tarBlockSize
    let length := dataOffset + content.length + paddingSize content.length
    let written := { writer with
      file := some (writer.file.getD [] ++ segmentEntryBytes seconds identifier content)
      length := length }
    if length > 2 ^ 31 - 1 then
      (written,
        invalid s!"archive {writer.fileName} exceeds the 2 GiB limit; rotation is overdue")
    else
      ({ written with
        indexEntries := writer.indexEntries ++
          [⟨identifier, UInt32.ofNat dataOffset, UInt32.ofNat content.length, generation⟩]
        graphEdges :=
          if referencedSegments.isEmpty then writer.graphEdges
          else writer.graphEdges.upsert identifier ∅ (· ∪ referencedSegments.toFinset)
        binaryReferences :=
          if binaryReferenceIdentifiers.isEmpty then writer.binaryReferences
          else insertReferences writer.binaryReferences generation identifier
            binaryReferenceIdentifiers }, .ok length)

/-! ## The trailers -/

/-- A reference behind its length. -/
def referenceBytes (reference : String) : Bytes :=
  Bytes.be 4 reference.utf8.length ++ reference.utf8

/-- The references of one segment. -/
def referencingSegmentBytes (row : SegmentIdentifier × Finset String) : Bytes :=
  identifierBytes row.1 ++ Bytes.be 4 row.2.card ++ (row.2.sort (· ≤ ·)).flatMap referenceBytes

/-- A signed 32-bit integer in four bytes. -/
def int32Bytes (value : Int32) : Bytes := Bytes.be32 value.toUInt32

/-- The references of one generation. -/
def catalogGenerationBytes (row : GarbageCollectionGeneration × SegmentReferences) : Bytes :=
  int32Bytes row.1.generation ++ int32Bytes row.1.fullGeneration ++
    [if row.1.isCompacted then 1 else 0] ++ Bytes.be 4 row.2.rows.length ++
    row.2.rows.flatMap referencingSegmentBytes

/-- The checksummed data and its footer. -/
def trailerPayload (data : Bytes) (count : Nat) (magic : UInt32) : Bytes :=
  data ++ footerBytes data count (data.length + footerSize) magic

/-- The catalog payload, unpadded. -/
def serializeBinaryReferences (writer : TarArchiveWriter) : Bytes :=
  trailerPayload (writer.binaryReferences.rows.flatMap catalogGenerationBytes)
    writer.binaryReferences.rows.length binaryReferencesVersion2Magic

/-- The targets of one source. -/
def graphRowBytes (row : SegmentIdentifier × Finset SegmentIdentifier) : Bytes :=
  identifierBytes row.1 ++ Bytes.be 4 row.2.card ++ (row.2.sort (· ≤ ·)).flatMap identifierBytes

/-- The graph payload, unpadded. -/
def serializeGraph (writer : TarArchiveWriter) : Bytes :=
  trailerPayload (writer.graphEdges.rows.flatMap graphRowBytes) writer.graphEdges.rows.length
    graphMagic

/-- One row of the index. -/
def indexEntryBytes (entry : PendingIndexEntry) : Bytes :=
  identifierBytes entry.identifier ++ Bytes.be32 entry.dataOffset ++ Bytes.be32 entry.size ++
    int32Bytes entry.generation.generation ++ int32Bytes entry.generation.fullGeneration ++
    [if entry.generation.isCompacted then 1 else 0]

/-- The entries sorted by signed UUID halves. -/
def sortedIndexEntries (writer : TarArchiveWriter) : List PendingIndexEntry :=
  writer.indexEntries.mergeSort fun a b => signedOrderKey a.identifier ≤ signedOrderKey b.identifier

/-- The index payload: front padding, sorted entries and the footer. -/
def serializeIndex (writer : TarArchiveWriter) : Bytes :=
  let dataSize := writer.indexEntries.length * 33 + footerSize
  let totalSize := (dataSize + 511) / 512 * 512
  let entriesBytes := writer.sortedIndexEntries.flatMap indexEntryBytes
  List.replicate (totalSize - dataSize) 0 ++ entriesBytes ++
    footerBytes entriesBytes writer.indexEntries.length totalSize indexVersion2Magic

/-- A `.brf` or `.gph` entry: header with the padded size, front padding, payload. -/
def trailerEntryBytes (seconds : UInt64) (entryName : String) (payload : Bytes) : Bytes :=
  let padding := paddingSize payload.length
  entryHeader seconds entryName.utf8 (UInt64.ofNat (payload.length + padding)) ++
    List.replicate padding 0 ++ payload

/-- When each of the three trailer headers is stamped. -/
structure CloseTimes where
  /-- The catalog. -/
  binaryReferences : UInt64
  /-- The graph. -/
  graph : UInt64
  /-- The index. -/
  index : UInt64
deriving DecidableEq, Repr

/-- The bytes `close` appends. -/
def trailerBytes (writer : TarArchiveWriter) (times : CloseTimes) : Bytes :=
  trailerEntryBytes times.binaryReferences (writer.fileName ++ ".brf")
      writer.serializeBinaryReferences ++
    trailerEntryBytes times.graph (writer.fileName ++ ".gph") writer.serializeGraph ++
    (entryHeader times.index (writer.fileName ++ ".idx").utf8
        (UInt64.ofNat writer.serializeIndex.length) ++ writer.serializeIndex) ++
    List.replicate (2 * tarBlockSize) 0

/-- Finalizes the archive: the finished file, or `none` when no segment was written. -/
def close (writer : TarArchiveWriter) (times : CloseTimes) : Option Bytes :=
  writer.file.map (· ++ writer.trailerBytes times)

end TarArchiveWriter

/-! ## Sequences of calls -/

/-- The arguments of one segment write, with the clock that stamps its header. -/
structure SegmentWrite where
  seconds : UInt64
  identifier : SegmentIdentifier
  content : Bytes
  generation : GarbageCollectionGeneration
  referencedSegments : List SegmentIdentifier
  binaryReferenceIdentifiers : List String
deriving DecidableEq

/-- One call on an open archive writer. -/
inductive ArchiveCall where
  | writeSegment (write : SegmentWrite)
  | addBinaryReferences (generation : GarbageCollectionGeneration) (source : SegmentIdentifier)
      (references : List String)
deriving DecidableEq

/-- One call of the writer. -/
def TarArchiveWriter.call (writer : TarArchiveWriter) : ArchiveCall → Result TarArchiveWriter
  | .writeSegment write =>
    let (writer, result) := writer.writeSegment write.seconds write.identifier write.content
      write.generation write.referencedSegments write.binaryReferenceIdentifiers
    result.map fun _ => writer
  | .addBinaryReferences generation source references =>
    .ok (writer.addBinaryReferences generation source references)

/-- The writer after a sequence of calls that all succeed. -/
def TarArchiveWriter.run (writer : TarArchiveWriter) (calls : List ArchiveCall) :
    Result TarArchiveWriter :=
  calls.foldlM TarArchiveWriter.call writer

end Froe
