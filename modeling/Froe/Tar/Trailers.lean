import Froe.Tar.Index

/-!
# The segment graph and the binary references catalog

The `.gph` trailer sits right before the index entry and the `.brf` trailer
right before the graph.  Both end with the footer of the index.  Neither is
needed to read content, so every problem with one of them means that the
archive has none.  The readers walk the checksummed data with a cursor; here a
cursor is the rest of the data.
-/

namespace Froe

def identifierAt (data : Bytes) : SegmentIdentifier := ⟨data.u64At 0, data.u64At 8⟩

def identifierBytes (identifier : SegmentIdentifier) : Bytes :=
  Bytes.be64 identifier.mostSignificantBits ++ Bytes.be64 identifier.leastSignificantBits

/-! ## The segment graph -/

/-- The adjacency data of one archive: source segment to referenced segments. -/
structure SegmentGraph where
  /-- The rows in their order on disk. -/
  adjacency : List (SegmentIdentifier × List SegmentIdentifier)
deriving DecidableEq, Repr

/-- The result of parsing a graph under a work limit. -/
inductive BoundedSegmentGraph where
  /-- A valid graph and the bytes inspected to parse it. -/
  | available (graph : SegmentGraph) (workUnits : Nat)
  /-- No valid graph is present. -/
  | unavailable (workUnits : Nat)
  /-- The declared data exceeds the remaining work. -/
  | workBudgetExceeded (attemptedWorkUnits : Nat)
  /-- The graph declares more rows or edges than permitted. -/
  | graphBudgetExceeded (attemptedRows attemptedEdges : Nat)
deriving DecidableEq, Repr

/-- The unpadded size of the graph on disk with its footer. -/
def SegmentGraph.diskStructureSize (graph : SegmentGraph) : Nat :=
  footerSize + (graph.adjacency.map fun row => 20 + 16 * row.2.length).sum

/-- The references of a source segment.  A later row replaces an earlier one. -/
def SegmentGraph.references? (graph : SegmentGraph) (source : SegmentIdentifier) :
    Option (List SegmentIdentifier) :=
  graph.adjacency.reverse.lookup source

def graphMagic : UInt32 := 0x0A30470A

/-- Reads `count` identifiers, and leaves the rest. -/
def readIdentifiers : Nat → Bytes → List SegmentIdentifier × Bytes
  | 0, data => ([], data)
  | count + 1, data =>
    let (identifiers, rest) := readIdentifiers count (data.drop 16)
    (identifierAt data :: identifiers, rest)

/-- Reads `rows` graph rows.  `totalEdges` counts the edges of the rows before. -/
def parseGraphRows (workUnits entryCount maximumEdges : Nat) :
    Nat → Nat → Bytes → Except BoundedSegmentGraph (List (SegmentIdentifier × List SegmentIdentifier))
  | 0, _, _ => .ok []
  | rows + 1, totalEdges, data =>
    if data.length < 20 then .error (.unavailable workUnits)
    else
      let referenceCount := signed32 (data.u32At 16)
      if referenceCount < 0 then .error (.unavailable workUnits)
      else if (data.drop 20).length < referenceCount.toNat * 16 then .error (.unavailable workUnits)
      else
        -- the addition saturates at the largest machine word
        let totalEdges := min (totalEdges + referenceCount.toNat) (2 ^ 64 - 1)
        if totalEdges > maximumEdges then .error (.graphBudgetExceeded entryCount totalEdges)
        else do
          let (references, rest) := readIdentifiers referenceCount.toNat (data.drop 20)
          let adjacency ← parseGraphRows workUnits entryCount maximumEdges rows totalEdges rest
          return (identifierAt data, references) :: adjacency

/-- Parses a graph with bounds on the work, the rows and the edges. -/
def parseSegmentGraphWithLimits (archiveBytes : Bytes) (index : SegmentIndex)
    (maximumWorkUnits maximumRows maximumEdges : Nat) : BoundedSegmentGraph :=
  let trailing := terminatingZeroBlocks + indexEntryDiskSize index
  if archiveBytes.length < trailing then .unavailable 0
  else
    let anchor := archiveBytes.length - trailing
    if anchor < footerSize then .unavailable 0
    else
      let footer := readFooter archiveBytes anchor
      if footer.magic ≠ graphMagic ∨ footer.count < 0 then .unavailable 0
      -- the first bound keeps a constant of an older graph format
      else if footer.declaredSize < 4 + footer.count * 34 then .unavailable 0
      else if footer.declaredSize < footerSize then .unavailable 0
      else if anchor < footer.declaredSize.toNat then .unavailable 0
      else
        let data := archiveBytes.slice (anchor - footer.declaredSize.toNat)
          (footer.declaredSize.toNat - footerSize)
        if data.length > maximumWorkUnits then .workBudgetExceeded data.length
        else if crc32 data ≠ footer.storedChecksum then .unavailable data.length
        else if footer.count.toNat > maximumRows then .graphBudgetExceeded footer.count.toNat 0
        else
          match parseGraphRows data.length footer.count.toNat maximumEdges footer.count.toNat 0
            data with
          | .error outcome => outcome
          | .ok adjacency => .available ⟨adjacency⟩ data.length

/-- Parses the graph of a complete archive; every problem means that there is none. -/
def parseSegmentGraph (archiveBytes : Bytes) (index : SegmentIndex) : Option SegmentGraph :=
  match parseSegmentGraphWithLimits archiveBytes index (2 ^ 64 - 1) (2 ^ 64 - 1) (2 ^ 64 - 1) with
  | .available graph _ => some graph
  | _ => none

/-! ## The binary references catalog -/

structure GenerationBinaryReferences where
  /-- The generation of the segments. -/
  generation : Int32
  /-- The full generation, which repeats the generation in version 1. -/
  fullGeneration : Int32
  /-- Whether a compaction produced the segments.  Always set in version 1. -/
  isCompacted : Bool
  /-- The identifiers of the referenced binaries by referencing segment. -/
  segments : List (SegmentIdentifier × List String)
deriving DecidableEq, Repr

/-- The parsed catalog of one archive. -/
structure BinaryReferences where
  /-- One entry per generation, in their order on disk. -/
  generations : List GenerationBinaryReferences
deriving DecidableEq, Repr

/-- The magic number of a version 1 catalog. -/
def binaryReferencesVersion1Magic : UInt32 := 0x0A30420A

/-- The magic number of a version 2 catalog. -/
def binaryReferencesVersion2Magic : UInt32 := 0x0A31420A

/-- Reads `count` reference strings, decoded leniently. -/
def readReferences : Nat → Bytes → Option (List String × Bytes)
  | 0, data => some ([], data)
  | count + 1, data => do
    guard (4 ≤ data.length)
    let length := signed32 (data.u32At 0)
    let data : Bytes := data.drop 4
    guard (0 ≤ length ∧ length.toNat ≤ data.length)
    let (references, rest) ← readReferences count (data.drop length.toNat)
    return (Utf8.decodeLossy (data.take length.toNat) :: references, rest)

/-- Reads `count` segments with their references. -/
def readReferencingSegments :
    Nat → Bytes → Option (List (SegmentIdentifier × List String) × Bytes)
  | 0, data => some ([], data)
  | count + 1, data => do
    guard (20 ≤ data.length)
    let referenceCount := signed32 (data.u32At 16)
    guard (0 ≤ referenceCount)
    let (references, rest) ← readReferences referenceCount.toNat (data.drop 20)
    let (segments, rest) ← readReferencingSegments count rest
    return ((identifierAt data, references) :: segments, rest)

/-- Reads the generation in front of its segments. -/
def readCatalogGeneration (version : Nat) (data : Bytes) :
    Option (GarbageCollectionGeneration × Bytes) :=
  if version = 2 then do
    guard (9 ≤ data.length)
    return (⟨(data.u32At 0).toInt32, (data.u32At 4).toInt32, data.getD 8 0 != 0⟩, data.drop 9)
  else do
    guard (4 ≤ data.length)
    let generation := (data.u32At 0).toInt32
    return (⟨generation, generation, true⟩, data.drop 4)

/-- Reads `count` generations. -/
def readGenerations (version : Nat) : Nat → Bytes → Option (List GenerationBinaryReferences)
  | 0, _ => some []
  | count + 1, data => do
    let (generation, data) ← readCatalogGeneration version data
    guard (4 ≤ data.length)
    let segmentCount := signed32 (data.u32At 0)
    guard (0 ≤ segmentCount)
    let (segments, rest) ← readReferencingSegments segmentCount.toNat (data.drop 4)
    let generations ← readGenerations version count rest
    return ⟨generation.generation, generation.fullGeneration, generation.isCompacted, segments⟩ ::
      generations

/-- Parses the catalog that ends at `anchor`; every problem means that there is none. -/
def parseBinaryReferences (archiveBytes : Bytes) (anchor : Nat) : Option BinaryReferences := do
  guard (footerSize ≤ anchor ∧ anchor ≤ archiveBytes.length)
  let footer := readFooter archiveBytes anchor
  let version ←
    if footer.magic = binaryReferencesVersion1Magic then some 1
    else if footer.magic = binaryReferencesVersion2Magic then some 2
    else none
  guard (0 ≤ footer.count)
  -- the bound counts 22 bytes per generation in both versions
  guard (footer.count * 22 + footerSize ≤ footer.declaredSize)
  guard (footer.declaredSize.toNat ≤ anchor)
  let data := archiveBytes.slice (anchor - footer.declaredSize.toNat)
    (footer.declaredSize.toNat - footerSize)
  guard (crc32 data = footer.storedChecksum)
  let generations ← readGenerations version footer.count.toNat data
  return ⟨generations⟩

end Froe
