import Froe.Tar.Trailers

/-!
# Reading one segment archive

The fast path finds segments through the index at the end of the file.  When
there is no valid index, a linear recovery scan over the tar entry headers
collects the segments whose names, and checksums where the names carry them,
are valid.
-/

namespace Froe

/-- A range of the file, from `start` up to `stop`. -/
structure DataRange where
  /-- The first byte. -/
  start : Nat
  /-- The byte behind the last one. -/
  stop : Nat
deriving DecidableEq, Repr

/-- How the segments of an archive were located. -/
inductive ArchiveContent where
  /-- Through a valid index. -/
  | indexed (index : SegmentIndex)
  /-- By scanning the headers: why the index was rejected, and the segments in scan
  order.  No identifier occurs twice, so the list is its own lookup table. -/
  | recovered (reason : String) (entries : List (SegmentIdentifier × DataRange))

/-- A read-only view of one segment archive. -/
structure TarArchiveReader where
  /-- The file name. -/
  fileName : String
  /-- The bytes of the file. -/
  bytes : Bytes
  /-- How its segments were located. -/
  content : ArchiveContent

/-! ## The recovery scan -/

def putRecovered (entries : List (SegmentIdentifier × DataRange)) (identifier : SegmentIdentifier)
    (data : DataRange) : List (SegmentIdentifier × DataRange) :=
  if (entries.lookup identifier).isSome then
    entries.map fun entry => if entry.1 = identifier then (identifier, data) else entry
  else entries ++ [(identifier, data)]

/-- The distance the scan seeks past the data of an entry: the size rounded up to whole
blocks with truncating division, and nothing for a wrapped size. -/
def skipPastData (size : Int) : Nat := ((size + 511).tdiv 512 * 512).toNat

/-- One header of the scan at `position`: `none` ends the scan, and otherwise the
distance to skip behind the header and the entries collected so far. -/
def recoverStep (bytes : Bytes) (indexEntryName : String) (position : Nat)
    (entries : List (SegmentIdentifier × DataRange)) :
    Option (Nat × List (SegmentIdentifier × DataRange)) :=
  let positionAfterHeader := position + 512
  match TarEntryHeader.parse (bytes.slice position 512) with
  | none =>
    -- a zero block ends the scan only when exactly two more blocks follow
    if positionAfterHeader + 1024 = bytes.length then none else some (0, entries)
  | some header =>
    if (positionAfterHeader : Int) + header.size > bytes.length then none
    else
      match parseSegmentEntryName header.name with
      | some (identifier, checksum) =>
        if 0 ≤ header.size ∧ (checksum.isSome ∨ (entries.lookup identifier).isNone) then
          let data : DataRange := ⟨positionAfterHeader, positionAfterHeader + header.size.toNat⟩
          if checksum.isSome ∧
              checksum ≠ some (crc32 (bytes.slice data.start header.size.toNat)) then
            some (skipPastData header.size, entries)
          else some (skipPastData header.size, putRecovered entries identifier data)
        -- a second copy without checksum and a wrapped size advance by the header only
        else some (0, entries)
      | none =>
        -- the index entry itself is walked into, any other entry is skipped whole
        if header.name ≠ indexEntryName then some (skipPastData header.size, entries)
        else some (0, entries)

/-- The scan from `position` on. -/
def recoverFrom (bytes : Bytes) (indexEntryName : String) (position : Nat)
    (entries : List (SegmentIdentifier × DataRange)) : List (SegmentIdentifier × DataRange) :=
  if position + 512 ≤ bytes.length then
    match recoverStep bytes indexEntryName position entries with
    | none => entries
    | some (skip, entries) => recoverFrom bytes indexEntryName (position + 512 + skip) entries
  else entries
termination_by bytes.length - position

/-- Scans an archive without a valid index. -/
def recoverSegmentEntries (bytes : Bytes) (archiveFileName : String) :
    List (SegmentIdentifier × DataRange) :=
  recoverFrom bytes (archiveFileName ++ ".idx") 0 []

/-! ## Opening and looking up -/

/-- What an archive keeps of the error that made it fall back to the scan. -/
def Error.details : Error → String
  | .invalidFormat details => details
  | other => other.display

namespace TarArchiveReader

/-- Opens an archive: the index first, and the recovery scan when there is none. -/
def openFile (fileName : String) (bytes : Bytes) : Result TarArchiveReader :=
  if bytes.length = 0 then invalid s!"archive {fileName} is empty"
  else
    match parseSegmentIndex bytes with
    | .ok index => .ok ⟨fileName, bytes, .indexed index⟩
    | .error error =>
      .ok ⟨fileName, bytes, .recovered error.details (recoverSegmentEntries bytes fileName)⟩

/-- The index, when the archive was opened through it. -/
def index (archive : TarArchiveReader) : Option SegmentIndex :=
  match archive.content with
  | .indexed index => some index
  | .recovered .. => none

/-- Whether the archive was opened through the recovery scan. -/
def isRecovered (archive : TarArchiveReader) : Bool :=
  match archive.content with
  | .indexed _ => false
  | .recovered .. => true

/-- The number of segments the archive provides. -/
def segmentCount (archive : TarArchiveReader) : Nat :=
  match archive.content with
  | .indexed index => index.entries.length
  | .recovered _ entries => entries.length

def segmentData (archive : TarArchiveReader) (identifier : SegmentIdentifier) : Option Bytes :=
  match archive.content with
  | .indexed index => do
    let entry ← index.findEntry identifier
    archive.bytes.range? entry.position.toNat (entry.position.toNat + entry.size.toNat)
  | .recovered _ entries => do
    let data ← entries.lookup identifier
    archive.bytes.range? data.start data.stop

/-- All segments, in index order or in scan order. -/
def segmentIdentifiers (archive : TarArchiveReader) : List SegmentIdentifier :=
  match archive.content with
  | .indexed index => index.entries.map SegmentIndexEntry.segmentIdentifier
  | .recovered _ entries => entries.map Prod.fst

def indexEntry (archive : TarArchiveReader) (identifier : SegmentIdentifier) :
    Option SegmentIndexEntry := do
  (← archive.index).findEntry identifier

/-- The segment graph, when present and valid. -/
def segmentGraph (archive : TarArchiveReader) : Option SegmentGraph := do
  parseSegmentGraph archive.bytes (← archive.index)

/-- The binary references catalog, when present and valid.  It sits before the graph,
so that a valid graph is needed to find it. -/
def binaryReferences (archive : TarArchiveReader) : Option BinaryReferences := do
  let index ← archive.index
  let graph ← archive.segmentGraph
  let graphDiskSize := 512 + (graph.diskStructureSize + 511) / 512 * 512
  let trailing := terminatingZeroBlocks + indexEntryDiskSize index + graphDiskSize
  guard (trailing ≤ archive.bytes.length)
  parseBinaryReferences archive.bytes (archive.bytes.length - trailing)

/-! ## Certifying an indexed entry -/

/-- The header block right before the payload of an index entry, and its parse. -/
def indexedEntryHeader (archive : TarArchiveReader) (entry : SegmentIndexEntry)
    (identifier : SegmentIdentifier) : Result (Bytes × TarEntryHeader) :=
  let payloadStart := entry.position.toNat
  if payloadStart < 512 then
    invalid s!"archive {archive.fileName} indexes segment {identifier.display} before a complete tar header"
  else
    match archive.bytes.range? (payloadStart - 512) payloadStart with
    | none =>
      invalid s!"archive {archive.fileName} truncates the tar header for segment {identifier.display}"
    | some headerBlock =>
      match TarEntryHeader.parse headerBlock with
      | none =>
        invalid s!"archive {archive.fileName} has no tar entry header for indexed segment {identifier.display}"
      | some header => .ok (headerBlock, header)

/-- The checksum in the entry name, once the name is the canonical one of the segment.  `quote` is
`{:?}` up to characters that do not print. -/
def certifiedEntryName (archive : TarArchiveReader) (header : TarEntryHeader)
    (identifier : SegmentIdentifier) : Result UInt32 :=
  match parseSegmentEntryName header.name with
  | some (headerIdentifier, some expectedChecksum) =>
    if headerIdentifier ≠ identifier then
      invalid s!"archive {archive.fileName} index names segment {identifier.display}, but its tar entry names {headerIdentifier.display}"
    else
      let canonicalName := Utf8.ascii (segmentEntryName identifier expectedChecksum)
      if header.name ≠ canonicalName then
        invalid s!"archive {archive.fileName} tar entry name {header.name.quote} is not the canonical indexed-segment name {canonicalName.quote}"
      else .ok expectedChecksum
  | _ =>
    invalid s!"archive {archive.fileName} has malformed or checksum-free tar entry name {header.name.quote} for indexed segment {identifier.display}"

/-- The index entry and the header agree on the size, and the header checksum is valid. -/
def rejectHeaderDisagreement (archive : TarArchiveReader) (entry : SegmentIndexEntry)
    (header : TarEntryHeader) (headerBlock : Bytes) (identifier : SegmentIdentifier) :
    Result Unit :=
  if header.size ≠ entry.size.toNat then
    invalid s!"archive {archive.fileName} index size {entry.size.toNat} disagrees with tar entry size {header.size} for segment {identifier.display}"
  else if !tarHeaderChecksumIsValid headerBlock then
    invalid s!"archive {archive.fileName} has an invalid tar-header checksum for segment {identifier.display}"
  else .ok ()

def verifyPayloadChecksum (archive : TarArchiveReader) (entry : SegmentIndexEntry)
    (expectedChecksum : UInt32) (identifier : SegmentIdentifier) : Result Unit :=
  match archive.bytes.range? entry.position.toNat (entry.position.toNat + entry.size.toNat) with
  | none =>
    invalid s!"archive {archive.fileName} truncates the payload for segment {identifier.display}"
  | some payload =>
    let actualChecksum := crc32 payload
    if actualChecksum ≠ expectedChecksum then
      invalid s!"archive {archive.fileName} payload CRC {hex32 actualChecksum} disagrees with tar entry CRC {hex32 expectedChecksum} for segment {identifier.display}"
    else .ok ()

/-- Validates the tar entry that an index entry names: the UUID, the size and the
checksum of the payload. -/
def validateIndexedSegmentEntry (archive : TarArchiveReader) (identifier : SegmentIdentifier) :
    Result Unit := do
  match archive.indexEntry identifier with
  | none =>
    invalid s!"archive {archive.fileName} has no index entry for segment {identifier.display}"
  | some entry =>
    let (headerBlock, header) ← archive.indexedEntryHeader entry identifier
    let expectedChecksum ← archive.certifiedEntryName header identifier
    archive.rejectHeaderDisagreement entry header headerBlock identifier
    archive.verifyPayloadChecksum entry expectedChecksum identifier

end TarArchiveReader

end Froe
