import Froe.Reclaim.Certificate
import Froe.Reclaim.Mark

/-!
# Rewriting an archive without its reclaimed segments

The survivors are copied in physical order into a staged archive.  Its graph and
catalog are filtered from the trailers of the source and not recomputed; only a
trailer that is missing is rebuilt from the segments.  Before the replacement is
published it is opened and compared with the source, entry by entry, and its
trailers with what the copy registered.
-/

namespace Froe

/-! ## The trailers carried over -/

/-- The trailers of an archive being swept, filtered to the surviving segments. -/
structure FilteredTrailers where
  graphPresent : Bool
  /-- The surviving catalog rows with their generations, when there is a catalog. -/
  catalog : Option (List (GarbageCollectionGeneration × SegmentIdentifier × List String))
  graphBySource : SegmentIdentifier → Option (List SegmentIdentifier)

/-- The targets that are still there after the rewrite. -/
def availableTargets (previouslyUnavailable currentRewriteTargets : Finset SegmentIdentifier)
    (targets : List SegmentIdentifier) : List SegmentIdentifier :=
  targets.filter fun target =>
    target ∉ previouslyUnavailable ∧ target ∉ currentRewriteTargets

def FilteredTrailers.fromArchive (reader : TarArchiveReader)
    (reclaimableSources previouslyUnavailable currentRewriteTargets : Finset SegmentIdentifier) :
    FilteredTrailers where
  graphPresent := reader.segmentGraph.isSome
  catalog := reader.binaryReferences.map fun catalog =>
    catalog.generations.flatMap fun group =>
      (group.segments.filter fun row => row.1 ∉ reclaimableSources).map fun row =>
        (group.key, row.1, row.2)
  graphBySource source := do
    let targets ← (← reader.segmentGraph).references? source
    return availableTargets previouslyUnavailable currentRewriteTargets targets

/-- The graph edges of a surviving data segment and, when there was no catalog to carry
over, its blob identifiers. -/
def FilteredTrailers.forSegment (trailers : FilteredTrailers) (identifier : SegmentIdentifier)
    (bytes : Bytes) (previouslyUnavailable currentRewriteTargets : Finset SegmentIdentifier)
    (scanProvider : Option SegmentProvider) : Result (List SegmentIdentifier × List String) := do
  let references ←
    match trailers.graphBySource identifier with
    | some filtered => pure filtered
    | none =>
      if !trailers.graphPresent then do
        let segment ← ParsedSegment.parse identifier bytes
        pure (availableTargets previouslyUnavailable currentRewriteTargets
          segment.referencedSegments)
      else pure []
  let binaryReferences ←
    match scanProvider with
    | none => pure []
    | some provider => do
      let segment ← provider identifier
      (readBlobIdentifiers provider segment).mapError fun error => .invalidFormat
        s!"cannot rebuild the binary references catalog while sweeping: an external blob identifier in segment {identifier.display} does not resolve within the archive ({error.display}); refusing to publish an incomplete catalog, which could let blob garbage collection delete referenced binaries"
  return (references, binaryReferences)

/-! ## Copying the survivors -/

/-- The staged archive and what validation will hold it to. -/
structure StagedCopy where
  writer : TarArchiveWriter
  expectedGraph : ExpectedGraph
  expectedBinaryReferences : ExpectedBinaryReferences

/-- Everything the copy reads. -/
structure SurvivorSources where
  reader : TarArchiveReader
  trailers : FilteredTrailers
  previouslyUnavailable : Finset SegmentIdentifier
  currentRewriteTargets : Finset SegmentIdentifier
  scanProvider : Option SegmentProvider

/-- Carries one catalog row over. -/
def copyCatalogEntry (copy : StagedCopy)
    (row : GarbageCollectionGeneration × SegmentIdentifier × List String) : StagedCopy :=
  { copy with
    writer := copy.writer.addBinaryReferences row.1 row.2.1 row.2.2
    expectedBinaryReferences :=
      TarArchiveWriter.insertReferences copy.expectedBinaryReferences row.1 row.2.1 row.2.2 }

/-- The graph edges and blob identifiers to register with a survivor. -/
def survivorReferences (sources : SurvivorSources) (identifier : SegmentIdentifier)
    (bytes : Bytes) : Result (List SegmentIdentifier × List String) :=
  if identifier.isDataSegment then
    sources.trailers.forSegment identifier bytes sources.previouslyUnavailable
      sources.currentRewriteTargets sources.scanProvider
  else .ok ([], [])

/-- Copies one survivor.  `clock` stamps its header. -/
def copySurvivor (sources : SurvivorSources) (clock : SegmentIndexEntry → UInt64)
    (copy : StagedCopy) (entry : SegmentIndexEntry) : Result StagedCopy := do
  let identifier := entry.segmentIdentifier
  let generation := entry.garbageCollectionGeneration
  match sources.reader.segmentData identifier with
  | none => .error (.segmentNotFound identifier)
  | some bytes =>
    let (references, binaryReferences) ← survivorReferences sources identifier bytes
    let writer ← copy.writer.call
      (.writeSegment ⟨clock entry, identifier, bytes, generation, references, binaryReferences⟩)
    return {
      writer := writer
      expectedGraph :=
        if references.isEmpty then copy.expectedGraph
        else copy.expectedGraph.upsert identifier ∅ (· ∪ references.toFinset)
      expectedBinaryReferences :=
        if sources.trailers.catalog.isNone && !binaryReferences.isEmpty then
          TarArchiveWriter.insertReferences copy.expectedBinaryReferences generation identifier
            binaryReferences
        else copy.expectedBinaryReferences }

/-- Copies every survivor into the staged replacement. -/
def copySurvivors (sources : SurvivorSources) (clock : SegmentIndexEntry → UInt64)
    (survivors : List SegmentIndexEntry) (writer : TarArchiveWriter) : Result StagedCopy :=
  survivors.foldlM (copySurvivor sources clock)
    ((sources.trailers.catalog.getD []).foldl copyCatalogEntry ⟨writer, ∅, ∅⟩)

/-! ## Staging a replacement -/

def reclaimableInArchive (index : SegmentIndex) (reclaimable : Finset SegmentIdentifier) :
    Finset SegmentIdentifier :=
  (index.entries.map SegmentIndexEntry.segmentIdentifier).toFinset.filter (· ∈ reclaimable)

/-- The index entries in physical order. -/
def entriesByPosition (index : SegmentIndex) : List SegmentIndexEntry :=
  index.entries.insertionSort fun a b => a.position ≤ b.position

/-- The surviving entries in physical order. -/
def partitionEntries (index : SegmentIndex) (reclaimable : Finset SegmentIdentifier) :
    List SegmentIndexEntry :=
  (entriesByPosition index).filter fun entry => entry.segmentIdentifier ∉ reclaimable

/-- Parses every segment of the archives, newest archive first.  The first copy of a
segment wins. -/
def archiveSegmentsProvider (readers : List TarArchiveReader) : Result SegmentProvider := do
  let segments ← (readers.flatMap fun reader =>
      reader.segmentIdentifiers.filterMap fun identifier =>
        (reader.segmentData identifier).map (identifier, ·)).foldlM
    (fun (segments : List (SegmentIdentifier × SegmentView)) (identifier, bytes) =>
      if (segments.lookup identifier).isSome then .ok segments
      else do
        let structure_ ← ParsedSegment.parse identifier bytes
        return segments ++ [(identifier, ⟨structure_, bytes⟩)]) []
  return fun identifier =>
    match segments.lookup identifier with
    | some view => .ok view
    | none => .error (.segmentNotFound identifier)

/-- The provider for blob identifiers, which only a source without catalog needs. -/
def scanProviderFor (trailers : FilteredTrailers) (allArchives : List TarArchiveReader) :
    Result (Option SegmentProvider) :=
  if trailers.catalog.isSome then .ok none
  else (archiveSegmentsProvider allArchives).map some

/-- A replacement that is written and closed, but not published. -/
structure StagedReplacement where
  survivors : List SegmentIndexEntry
  expectedGraph : ExpectedGraph
  expectedBinaryReferences : ExpectedBinaryReferences
  file : Option Bytes

/-- The part of `sweep_one_archive` from the plan to the closed staging file. -/
def stageReplacement (reader : TarArchiveReader) (index : SegmentIndex)
    (reclaimable previouslyUnavailable : Finset SegmentIdentifier)
    (allArchives : List TarArchiveReader) (replacementName : String)
    (clock : SegmentIndexEntry → UInt64) (times : TarArchiveWriter.CloseTimes) :
    Result StagedReplacement := do
  let survivors := partitionEntries index reclaimable
  let currentRewriteTargets := reclaimableInArchive index reclaimable
  let trailers := FilteredTrailers.fromArchive reader reclaimable previouslyUnavailable
    currentRewriteTargets
  let scanProvider ← scanProviderFor trailers allArchives
  let copy ← copySurvivors
    ⟨reader, trailers, previouslyUnavailable, currentRewriteTargets, scanProvider⟩ clock survivors
    (TarArchiveWriter.new replacementName)
  return ⟨survivors, copy.expectedGraph, copy.expectedBinaryReferences, copy.writer.close times⟩

/-! ## Validating a replacement -/

def proveSurvivor (source swept : TarArchiveReader) (sweptPath : String)
    (expected : SegmentIndexEntry) : Result Unit := do
  let identifier := expected.segmentIdentifier
  swept.validateIndexedSegmentEntry identifier
  match swept.indexEntry identifier with
  | none => invalid s!"{sweptPath} omits surviving segment {identifier.display}"
  | some actual =>
    if actual.size ≠ expected.size ∨ actual.generation ≠ expected.generation ∨
        actual.fullGeneration ≠ expected.fullGeneration ∨
        actual.isCompacted ≠ expected.isCompacted then
      invalid s!"{sweptPath} changed generation metadata for surviving segment {identifier.display}"
    else
      match source.segmentData identifier, swept.segmentData identifier with
      | some sourceBytes, some sweptBytes =>
        if sourceBytes ≠ sweptBytes then
          invalid s!"{sweptPath} changed the payload of surviving segment {identifier.display}"
        else .ok ()
      | _, _ => .error (.segmentNotFound identifier)

/-- The replacement has an index with the survivors in their order, and each is intact. -/
def proveSurvivorCountOrderAndEntries (source swept : TarArchiveReader) (sweptPath : String)
    (survivors : List SegmentIndexEntry) : Result Unit :=
  match swept.index with
  | none => invalid s!"{sweptPath} has no valid index"
  | some index =>
    if swept.segmentCount ≠ survivors.length then
      invalid s!"{sweptPath} contains {swept.segmentCount} segments, expected {survivors.length}"
    else if (entriesByPosition index).map SegmentIndexEntry.segmentIdentifier ≠
        survivors.map SegmentIndexEntry.segmentIdentifier then
      invalid s!"{sweptPath} changed the physical order of surviving segments"
    else survivors.forM (proveSurvivor source swept sweptPath)

/-- The certificate of a staged replacement. -/
def validateOpenSweptArchive (source swept : TarArchiveReader) (sweptPath : String)
    (survivors : List SegmentIndexEntry) (expectedGraph : ExpectedGraph)
    (expectedBinaryReferences : ExpectedBinaryReferences) : Result Unit := do
  proveSurvivorCountOrderAndEntries source swept sweptPath survivors
  validateExactArchiveTrailers swept sweptPath expectedGraph expectedBinaryReferences

end Froe
