import Froe.Content.Value
import Froe.Tar.RoundTrip

/-!
# The archive certificate

Before an archive is a source of the mark phase or is destroyed, its segments
must be what its index says, and its graph and catalog what its payloads say.
The trailers are compared as maps of sets: a row or an identifier that repeats
is refused, and the order of the rows is not looked at.
-/

namespace Froe

open Finmap (lookup_empty notMem_empty)
open Except (bind_ok_iff)

/-- Graph edges by source, as a certificate compares them. -/
abbrev ExpectedGraph := GraphEdges

/-- Binary references by generation and segment, as a certificate compares them. -/
abbrev ExpectedBinaryReferences := BinaryReferencesByGeneration

/-! ## Blob identifiers of a segment -/

/-- The blob identifier in one record of external blob type.  Records with another head
have none. -/
def readBlobIdentifier (provider : SegmentProvider) (segment : SegmentView)
    (recordNumber : UInt32) : Result (Option String) := do
  let head ← segment.readU8 recordNumber 0
  if head &&& 0xF0 = 0xE0 then
    let stored ← segment.readU16 recordNumber 0
    let reference ← segment.readBytes recordNumber 2 (stored &&& 0x0FFF).toNat
    return some (Utf8.decodeLossy reference)
  else if head &&& 0xF8 = 0xF0 then
    let stringIdentifier ← segment.readRecordIdentifier recordNumber 1 0
    return some (← readString provider stringIdentifier)
  else return none

def readBlobIdentifiers (provider : SegmentProvider) (segment : SegmentView) :
    Result (List String) := do
  let records := segment.structure_.recordTable.filter fun entry =>
    entry.recordType = some .externalBlobIdentifier
  let identifiers ← records.mapM fun entry =>
    readBlobIdentifier provider segment entry.recordNumber
  return identifiers.reduceOption

/-! ## Trailers as maps -/

section Rows

variable {κ α : Type} [DecidableEq κ] [DecidableEq α]

/-- Collects rows into a map of sets, and fails on a repeated key or value. -/
def normalizedRows (error : Error) :
    List (κ × List α) → (Finmap fun _ : κ => Finset α) → Result (Finmap fun _ : κ => Finset α)
  | [], normalized => .ok normalized
  | (source, values) :: rows, normalized =>
    if values.toFinset.card ≠ values.length ∨ source ∈ normalized then .error error
    else normalizedRows error rows (normalized.insert source values.toFinset)

end Rows

section Rows

variable {κ α : Type} [DecidableEq κ] [DecidableEq α] {error : Error} {rows : List (κ × List α)}
  {normalized result : Finmap fun _ : κ => Finset α}

theorem card_toFinset_eq_iff {values : List α} :
    values.toFinset.card = values.length ↔ values.Nodup := by
  constructor
  · intro h
    exact Multiset.toFinset_card_eq_card_iff_nodup.mp h
  · exact List.toFinset_card_of_nodup

/-- Rows are collected exactly when nothing repeats. -/
theorem normalizedRows_isOk_iff :
    (∃ result, normalizedRows error rows normalized = .ok result) ↔
      (∀ row ∈ rows, row.2.Nodup) ∧ (rows.map Prod.fst).Nodup ∧
        ∀ row ∈ rows, row.1 ∉ normalized := by
  induction rows generalizing normalized with
  | nil => simp [normalizedRows]
  | cons row rows ih =>
    obtain ⟨source, values⟩ := row
    rw [normalizedRows]
    split
    · rename_i hrepeat
      simp only [reduceCtorEq, exists_false, false_iff]
      rintro ⟨hnodup, -, hfresh⟩
      rcases hrepeat with hvalues | hsource
      · exact hvalues (card_toFinset_eq_iff.mpr (hnodup _ (List.mem_cons_self ..)))
      · exact hfresh _ (List.mem_cons_self ..) hsource
    · rename_i hclean
      rw [not_or, not_not] at hclean
      rw [ih]
      simp only [List.forall_mem_cons, List.map_cons, List.nodup_cons, Finmap.mem_insert, not_or,
        List.mem_map, not_exists, not_and]
      constructor
      · rintro ⟨hnodup, hkeys, hfresh⟩
        exact ⟨⟨card_toFinset_eq_iff.mp hclean.1, hnodup⟩,
          ⟨fun row hrow => (hfresh row hrow).1, hkeys⟩, hclean.2, fun row hrow =>
            (hfresh row hrow).2⟩
      · rintro ⟨⟨-, hnodup⟩, ⟨hsource, hkeys⟩, -, hfresh⟩
        exact ⟨hnodup, hkeys, fun row hrow => ⟨hsource row hrow, hfresh row hrow⟩⟩

/-- The map holds each row under its key. -/
theorem normalizedRows_lookup (h : normalizedRows error rows normalized = .ok result) {key : κ}
    {set : Finset α} :
    result.lookup key = some set ↔
      normalized.lookup key = some set ∨ ∃ values, (key, values) ∈ rows ∧ values.toFinset = set := by
  induction rows generalizing normalized with
  | nil =>
    cases h
    simp
  | cons row rows ih =>
    obtain ⟨source, values⟩ := row
    rw [normalizedRows] at h
    split at h
    · cases h
    · rename_i hclean
      rw [not_or, ← Finmap.lookup_eq_none] at hclean
      rw [ih h]
      by_cases hkey : key = source
      · subst hkey
        rw [Finmap.lookup_insert, hclean.2]
        simp only [Option.some.injEq, reduceCtorEq, false_or, List.mem_cons, Prod.mk.injEq,
          true_and, or_and_right, exists_or, exists_eq_left]
      · rw [Finmap.lookup_insert_of_ne _ hkey]
        simp [hkey]

/-- A map listed in the order of its keys, its sets in their order, is collected back. -/
theorem normalizedRows_rows {κ α : Type} [LinearOrder κ] [LinearOrder α] [DecidableEq κ]
    [DecidableEq α] (error : Error) (m : Finmap fun _ : κ => Finset α) :
    normalizedRows error (m.rows.map fun row => (row.1, row.2.sort (· ≤ ·))) ∅ = .ok m := by
  have hkeys : ((m.rows.map fun row => (row.1, row.2.sort (· ≤ ·))).map Prod.fst).Nodup := by
    rw [List.map_map]
    refine List.pairwise_map.mpr (m.pairwise_rows.imp ?_)
    intro a b hab
    exact ne_of_lt hab
  have hnodup : ∀ row ∈ m.rows.map fun row => (row.1, row.2.sort (· ≤ ·)), row.2.Nodup := by
    intro row hrow
    obtain ⟨row', -, rfl⟩ := List.mem_map.mp hrow
    exact Finset.sort_nodup ..
  obtain ⟨result, hresult⟩ : ∃ result, normalizedRows error
      (m.rows.map fun row => (row.1, row.2.sort (· ≤ ·))) ∅ = .ok result :=
    normalizedRows_isOk_iff.mpr ⟨hnodup, hkeys, fun row _ => notMem_empty⟩
  rw [hresult]
  congr 1
  refine Finmap.ext_lookup fun key => Option.ext fun set => ?_
  rw [normalizedRows_lookup hresult, lookup_empty]
  simp only [reduceCtorEq, false_or, List.mem_map, Prod.mk.injEq, Prod.exists]
  constructor
  · rintro ⟨values, ⟨key', set', hrow, rfl, rfl⟩, rfl⟩
    rw [Finset.sort_toFinset]
    exact Finmap.mem_rows.mp hrow
  · intro hlookup
    exact ⟨_, ⟨key, set, Finmap.mem_rows.mpr hlookup, rfl, rfl⟩, Finset.sort_toFinset ..⟩

end Rows

def normalizedArchiveGraph (archive : TarArchiveReader) (description : String) :
    Result ExpectedGraph :=
  match archive.segmentGraph with
  | none => invalid s!"{description} has no valid segment graph"
  | some graph =>
    normalizedRows (.invalidFormat s!"{description} contains duplicate graph rows or edges")
      graph.adjacency ∅

/-- The generation triple of a catalog group. -/
def GenerationBinaryReferences.key (group : GenerationBinaryReferences) :
    GarbageCollectionGeneration :=
  ⟨group.generation, group.fullGeneration, group.isCompacted⟩

/-- The segments of a catalog group as a map. -/
def GenerationBinaryReferences.sources (group : GenerationBinaryReferences)
    (description : String) : Result SegmentReferences :=
  normalizedRows (.invalidFormat
    s!"{description} contains duplicate binary-reference rows or identifiers") group.segments ∅

/-- Collects catalog groups into a map of maps. -/
def normalizedGroups (description : String) :
    List GenerationBinaryReferences → ExpectedBinaryReferences → Result ExpectedBinaryReferences
  | [], normalized => .ok normalized
  | group :: groups, normalized =>
    if group.key ∈ normalized then
      invalid s!"{description} repeats a binary-reference generation group"
    else do
      let sources ← group.sources description
      normalizedGroups description groups (normalized.insert group.key sources)

section Groups

variable {description : String} {groups : List GenerationBinaryReferences}
  {normalized result : ExpectedBinaryReferences}

theorem normalizedGroups_cons {group : GenerationBinaryReferences} :
    normalizedGroups description (group :: groups) normalized = .ok result ↔
      group.key ∉ normalized ∧ ∃ sources, group.sources description = .ok sources ∧
        normalizedGroups description groups (normalized.insert group.key sources) = .ok result := by
  rw [normalizedGroups]
  split
  · rename_i hrepeat
    simp [invalid, hrepeat]
  · rename_i hfresh
    rw [bind_ok_iff]
    exact ⟨fun h => ⟨hfresh, h⟩, fun h => h.2⟩

/-- Groups are collected exactly when no generation repeats and the rows of each are. -/
theorem normalizedGroups_isOk_iff :
    (∃ result, normalizedGroups description groups normalized = .ok result) ↔
      (∀ group ∈ groups, ∃ sources, group.sources description = .ok sources) ∧
        (groups.map GenerationBinaryReferences.key).Nodup ∧
        ∀ group ∈ groups, group.key ∉ normalized := by
  induction groups generalizing normalized with
  | nil => simp [normalizedGroups]
  | cons group groups ih =>
    simp only [normalizedGroups_cons, List.forall_mem_cons, List.map_cons, List.nodup_cons]
    constructor
    · rintro ⟨result, hfresh, sources, hsources, hrest⟩
      obtain ⟨hgroups, hkeys, hlater⟩ := ih.mp ⟨result, hrest⟩
      refine ⟨⟨⟨sources, hsources⟩, hgroups⟩, ⟨?_, hkeys⟩, hfresh, ?_⟩
      · intro hmem
        obtain ⟨later, hin, heq⟩ := List.mem_map.mp hmem
        exact hlater later hin (Finmap.mem_insert.mpr (.inl heq))
      · intro later hin hmem
        exact hlater later hin (Finmap.mem_insert.mpr (.inr hmem))
    · rintro ⟨⟨⟨sources, hsources⟩, hgroups⟩, ⟨hunique, hkeys⟩, hfresh, hlater⟩
      obtain ⟨result, hrest⟩ : ∃ result, normalizedGroups description groups
          (normalized.insert group.key sources) = .ok result := by
        refine ih.mpr ⟨hgroups, hkeys, ?_⟩
        intro later hin hmem
        rcases Finmap.mem_insert.mp hmem with heq | hmem
        · exact hunique (List.mem_map.mpr ⟨later, hin, heq⟩)
        · exact hlater later hin hmem
      exact ⟨result, hfresh, sources, hsources, hrest⟩

/-- The map holds the rows of each group under its generation. -/
theorem normalizedGroups_lookup (h : normalizedGroups description groups normalized = .ok result)
    {generation : GarbageCollectionGeneration} {sources : SegmentReferences} :
    result.lookup generation = some sources ↔ normalized.lookup generation = some sources ∨
      ∃ group ∈ groups, group.key = generation ∧ group.sources description = .ok sources := by
  induction groups generalizing normalized with
  | nil =>
    cases h
    simp
  | cons group groups ih =>
    obtain ⟨hfresh, found, hfound, hrest⟩ := normalizedGroups_cons.mp h
    rw [ih hrest]
    by_cases hkey : generation = group.key
    · subst hkey
      rw [Finmap.lookup_insert, Finmap.lookup_eq_none.mpr hfresh]
      simp only [Option.some.injEq, reduceCtorEq, false_or, List.mem_cons, or_and_right, exists_or,
        exists_eq_left, hfound, Except.ok.injEq, true_and]
    · rw [Finmap.lookup_insert_of_ne _ hkey]
      simp [Ne.symm hkey]

end Groups

/-- A catalog listed in the order of its keys is collected back. -/
theorem normalizedGroups_rows (description : String) (m : ExpectedBinaryReferences) :
    normalizedGroups description (m.rows.map catalogGeneration) ∅ = .ok m := by
  have hsources : ∀ row : GarbageCollectionGeneration × SegmentReferences,
      (catalogGeneration row).sources description = .ok row.2 := by
    intro row
    exact normalizedRows_rows _ row.2
  have hkey : ∀ row : GarbageCollectionGeneration × SegmentReferences,
      (catalogGeneration row).key = row.1 := fun _ => rfl
  have hkeys : ((m.rows.map catalogGeneration).map GenerationBinaryReferences.key).Nodup := by
    rw [List.map_map]
    refine List.pairwise_map.mpr (m.pairwise_rows.imp ?_)
    intro a b hab
    exact ne_of_lt hab
  have hgroups : ∀ group ∈ m.rows.map catalogGeneration,
      ∃ sources, group.sources description = .ok sources := by
    intro group hgroup
    obtain ⟨row, -, rfl⟩ := List.mem_map.mp hgroup
    exact ⟨row.2, hsources row⟩
  obtain ⟨result, hresult⟩ : ∃ result, normalizedGroups description
      (m.rows.map catalogGeneration) ∅ = .ok result :=
    normalizedGroups_isOk_iff.mpr ⟨hgroups, hkeys, fun _ _ => notMem_empty⟩
  rw [hresult]
  congr 1
  refine Finmap.ext_lookup fun generation => Option.ext fun sources => ?_
  rw [normalizedGroups_lookup hresult, lookup_empty]
  simp only [reduceCtorEq, false_or, List.mem_map, exists_exists_and_eq_and, hkey, hsources,
    Except.ok.injEq]
  constructor
  · rintro ⟨row, hrow, rfl, rfl⟩
    exact Finmap.mem_rows.mp hrow
  · intro hlookup
    exact ⟨_, Finmap.mem_rows.mpr hlookup, rfl, rfl⟩

/-- The catalog of an archive as a map of maps. -/
def normalizedArchiveBinaryReferences (archive : TarArchiveReader) (description : String) :
    Result ExpectedBinaryReferences :=
  match archive.binaryReferences with
  | none => invalid s!"{description} has no valid binary-references catalog"
  | some catalog => normalizedGroups description catalog.generations ∅

/-- The catalogued references of one segment under one generation. -/
def ExpectedBinaryReferences.referencesOf (catalog : ExpectedBinaryReferences)
    (generation : GarbageCollectionGeneration) (source : SegmentIdentifier) :
    Option (Finset String) :=
  (catalog.lookup generation).bind fun sources => sources.lookup source

variable {archive : TarArchiveReader} {graph : ExpectedGraph}
  {references : ExpectedBinaryReferences} {provider : SegmentProvider} {entry : SegmentIndexEntry}

/-- The map of a graph without repeated rows is its reference lookup. -/
theorem normalizedArchiveGraph_lookup {description : String} {normalized : ExpectedGraph}
    (h : normalizedArchiveGraph archive description = .ok normalized) :
    ∃ graph, archive.segmentGraph = some graph ∧
      ∀ source, normalized.lookup source = (graph.references? source).map List.toFinset := by
  rw [normalizedArchiveGraph] at h
  split at h
  · exact absurd h invalid_ne_ok
  · rename_i graph hgraph
    refine ⟨graph, hgraph, fun source => Option.ext fun targets => ?_⟩
    have hkeys : (graph.adjacency.reverse.map Prod.fst).Nodup := by
      rw [List.map_reverse, List.nodup_reverse]
      exact (normalizedRows_isOk_iff.mp ⟨_, h⟩).2.1
    rw [normalizedRows_lookup h, lookup_empty, Option.map_eq_some_iff]
    simp only [reduceCtorEq, false_or, SegmentGraph.references?, List.lookup_eq_some_iff_mem hkeys,
      List.mem_reverse]

/-- The map of a catalog without repeated rows holds the rows of its groups. -/
theorem normalizedArchiveBinaryReferences_lookup
    {description : String} {normalized : ExpectedBinaryReferences}
    (h : normalizedArchiveBinaryReferences archive description = .ok normalized) :
    ∃ catalog, archive.binaryReferences = some catalog ∧
      ∀ generation source references,
        ExpectedBinaryReferences.referencesOf normalized generation source = some references ↔
          ∃ group ∈ catalog.generations, group.key = generation ∧
            ∃ values, (source, values) ∈ group.segments ∧ values.toFinset = references := by
  rw [normalizedArchiveBinaryReferences] at h
  split at h
  · exact absurd h invalid_ne_ok
  · rename_i catalog hcatalog
    refine ⟨catalog, hcatalog, fun generation source references => ?_⟩
    simp only [ExpectedBinaryReferences.referencesOf, Option.bind_eq_some_iff,
      normalizedGroups_lookup h, lookup_empty, reduceCtorEq, false_or]
    constructor
    · rintro ⟨sources, ⟨group, hgroup, hkey, hsources⟩, hlookup⟩
      rw [normalizedRows_lookup hsources, lookup_empty] at hlookup
      simp only [reduceCtorEq, false_or] at hlookup
      exact ⟨group, hgroup, hkey, hlookup⟩
    · rintro ⟨group, hgroup, hkey, hrow⟩
      obtain ⟨sources, hsources⟩ := (normalizedGroups_isOk_iff.mp ⟨_, h⟩).1 group hgroup
      refine ⟨sources, ⟨group, hgroup, hkey, hsources⟩, ?_⟩
      rw [normalizedRows_lookup hsources]
      exact .inr hrow

/-- The trailers are exactly the expected ones. -/
def validateExactArchiveTrailers (archive : TarArchiveReader) (description : String)
    (expectedGraph : ExpectedGraph) (expectedBinaryReferences : ExpectedBinaryReferences) :
    Result Unit := do
  if (← normalizedArchiveGraph archive description) ≠ expectedGraph then
    invalid s!"{description} segment graph differs from the exact reconstructed graph"
  else if (← normalizedArchiveBinaryReferences archive description) ≠ expectedBinaryReferences then
    invalid s!"{description} binary-reference catalog differs from the exact reconstructed catalog"
  else .ok ()

theorem validateExactArchiveTrailers_ok_iff {description : String} :
    validateExactArchiveTrailers archive description graph references = .ok () ↔
      normalizedArchiveGraph archive description = .ok graph ∧
        normalizedArchiveBinaryReferences archive description = .ok references := by
  rw [validateExactArchiveTrailers, bind_ok_iff]
  constructor
  · rintro ⟨foundGraph, hgraph, h⟩
    split at h
    · exact absurd h invalid_ne_ok
    · rename_i hsame
      obtain ⟨foundReferences, hreferences, h⟩ := bind_ok_iff.mp h
      split at h
      · exact absurd h invalid_ne_ok
      · rename_i hsameReferences
        rw [not_not] at hsame hsameReferences
        exact ⟨hsame ▸ hgraph, hsameReferences ▸ hreferences⟩
  · rintro ⟨hgraph, hreferences⟩
    refine ⟨graph, hgraph, ?_⟩
    simp [hreferences]

/-- The trailers of an archive that lists two maps in order are these maps. -/
theorem validateExactArchiveTrailers_of_rows (description : String)
    (hgraph : archive.segmentGraph = some ⟨graph.rows.map graphRow⟩)
    (hreferences : archive.binaryReferences = some ⟨references.rows.map catalogGeneration⟩) :
    validateExactArchiveTrailers archive description graph references = .ok () := by
  rw [validateExactArchiveTrailers_ok_iff]
  constructor
  · rw [normalizedArchiveGraph, hgraph]
    exact normalizedRows_rows _ graph
  · rw [normalizedArchiveBinaryReferences, hreferences]
    exact normalizedGroups_rows description references

/-! ## The certificate -/

/-- The trailers that the payloads of an archive call for. -/
structure ExpectedTrailers where
  graph : ExpectedGraph
  binaryReferences : ExpectedBinaryReferences

/-- The expected trailers with the references of one data segment added. -/
def ExpectedTrailers.record (expected : ExpectedTrailers) (segment : ParsedSegment)
    (blobIdentifiers : List String) : ExpectedTrailers where
  graph :=
    if segment.referencedSegments.isEmpty then expected.graph
    else expected.graph.insert segment.identifier segment.referencedSegments.toFinset
  binaryReferences :=
    if blobIdentifiers.isEmpty then expected.binaryReferences
    else
      expected.binaryReferences.upsert segment.garbageCollectionGeneration ∅ fun sources =>
        sources.insert segment.identifier blobIdentifiers.toFinset

/-- Certifies one index entry and records what its payload refers to. -/
def certifyEntry (provider : SegmentProvider) (archive : TarArchiveReader) (description : String)
    (expected : ExpectedTrailers) (entry : SegmentIndexEntry) : Result ExpectedTrailers := do
  let identifier := entry.segmentIdentifier
  archive.validateIndexedSegmentEntry identifier
  if !identifier.isDataSegment then return expected
  else
    match archive.segmentData identifier with
    | none => .error (.segmentNotFound identifier)
    | some bytes =>
      let structure_ ← ParsedSegment.parse identifier bytes
      if entry.generation ≠ structure_.generation ∨
          entry.fullGeneration ≠ structure_.fullGeneration ∨
          entry.isCompacted ≠ structure_.isCompacted then
        invalid s!"{description} has index/header generation disagreement for segment {identifier.display}"
      else
        let blobIdentifiers ← (readBlobIdentifiers provider ⟨structure_, bytes⟩).mapError
          fun error => .invalidFormat s!"{description} cannot reconstruct binary references for segment {identifier.display} through the complete active repository ({error.display})"
        return expected.record structure_ blobIdentifiers

/-- The certificate that cleanup asks of an archive. -/
def certifyActiveArchive (provider : SegmentProvider) (archive : TarArchiveReader) :
    Result Unit := do
  let description := s!"active archive {archive.fileName}"
  match archive.index with
  | none => invalid s!"{description} is recovered and has no valid index"
  | some index =>
    let expected ← index.entries.foldlM (certifyEntry provider archive description) ⟨∅, ∅⟩
    validateExactArchiveTrailers archive description expected.graph expected.binaryReferences

/-! ## What a certificate says -/

theorem ParsedSegment.parse_identifier {identifier : SegmentIdentifier} {bytes : Bytes}
    {segment : ParsedSegment} (h : ParsedSegment.parse identifier bytes = .ok segment) :
    segment.identifier = identifier := by
  unfold ParsedSegment.parse at h
  split at h
  · exact absurd h invalid_ne_ok
  split at h
  · exact absurd h invalid_ne_ok
  · cases h
    rfl
  · unfold parseDataSegment at h
    split at h
    · cases h
    split at h
    · cases h
    · cases h
      rfl

/-- The expected trailers speak only of data segments among the given ones. -/
structure ExpectedTrailers.Within (expected : ExpectedTrailers)
    (identifiers : List SegmentIdentifier) : Prop where
  graph : ∀ source ∈ expected.graph, source ∈ identifiers ∧ source.isDataSegment
  references : ∀ generation sources, expected.binaryReferences.lookup generation = some sources →
    ∀ source ∈ sources, source ∈ identifiers

theorem ExpectedTrailers.Within.record {expected : ExpectedTrailers}
    {identifiers : List SegmentIdentifier} (h : expected.Within identifiers)
    {segment : ParsedSegment} (blobIdentifiers : List String)
    (hmem : segment.identifier ∈ identifiers) (hdata : segment.identifier.isDataSegment) :
    (expected.record segment blobIdentifiers).Within identifiers := by
  constructor
  · intro source hsource
    simp only [ExpectedTrailers.record] at hsource
    split at hsource
    · exact h.graph source hsource
    · rcases Finmap.mem_insert.mp hsource with rfl | hsource
      · exact ⟨hmem, hdata⟩
      · exact h.graph source hsource
  · intro generation sources hsources source hsource
    simp only [ExpectedTrailers.record] at hsources
    split at hsources
    · exact h.references generation sources hsources source hsource
    · rw [Finmap.lookup_upsert] at hsources
      split at hsources
      · cases hsources
        rcases Finmap.mem_insert.mp hsource with rfl | hsource
        · exact hmem
        · cases hbefore : expected.binaryReferences.lookup segment.garbageCollectionGeneration with
          | none =>
            rw [hbefore] at hsource
            exact absurd hsource notMem_empty
          | some before =>
            rw [hbefore] at hsource
            exact h.references _ before hbefore source hsource
      · exact h.references generation sources hsources source hsource

theorem certifyEntry_ok {description : String} {expected next : ExpectedTrailers}
    (h : certifyEntry provider archive description expected entry = .ok next) :
    archive.validateIndexedSegmentEntry entry.segmentIdentifier = .ok () ∧
      (next = expected ∨ ∃ segment blobIdentifiers, entry.segmentIdentifier.isDataSegment ∧
        segment.identifier = entry.segmentIdentifier ∧
        next = expected.record segment blobIdentifiers) := by
  rw [certifyEntry] at h
  obtain ⟨⟨⟩, hvalid, h⟩ := bind_ok_iff.mp h
  refine ⟨hvalid, ?_⟩
  split at h
  · cases h
    exact .inl rfl
  · rename_i hdata
    rw [Bool.not_eq_true', Bool.not_eq_false] at hdata
    split at h
    · cases h
    · obtain ⟨segment, hparse, h⟩ := bind_ok_iff.mp h
      split at h
      · exact absurd h invalid_ne_ok
      · obtain ⟨blobIdentifiers, -, h⟩ := bind_ok_iff.mp h
        cases h
        exact .inr ⟨segment, blobIdentifiers, hdata, ParsedSegment.parse_identifier hparse, rfl⟩

/-- What the sweep uses of a certified archive. -/
structure Certified (archive : TarArchiveReader) (index : SegmentIndex) (graph : ExpectedGraph)
    (references : ExpectedBinaryReferences) : Prop where
  indexed : archive.index = some index
  valid : ∀ entry ∈ index.entries,
    archive.validateIndexedSegmentEntry entry.segmentIdentifier = .ok ()
  graphRows : normalizedArchiveGraph archive s!"active archive {archive.fileName}" = .ok graph
  catalogRows : normalizedArchiveBinaryReferences archive s!"active archive {archive.fileName}" =
    .ok references
  within : ExpectedTrailers.Within ⟨graph, references⟩
    (index.entries.map SegmentIndexEntry.segmentIdentifier)

/-- A certificate gives the trailers of the archive as maps over its own data segments. -/
theorem certified_of_certifyActiveArchive (h : certifyActiveArchive provider archive = .ok ()) :
    ∃ index graph references, Certified archive index graph references := by
  rw [certifyActiveArchive] at h
  cases hindex : archive.index with
  | none =>
    rw [hindex] at h
    exact absurd h invalid_ne_ok
  | some index =>
    rw [hindex] at h
    obtain ⟨expected, hloop, htrailers⟩ := bind_ok_iff.mp h
    obtain ⟨hgraph, hreferences⟩ := validateExactArchiveTrailers_ok_iff.mp htrailers
    refine ⟨index, expected.graph, expected.binaryReferences, hindex, ?_, hgraph, hreferences, ?_⟩
    · intro entry hentry
      obtain ⟨before, after, hstep⟩ := Except.foldlM_ok_mem hloop hentry
      exact (certifyEntry_ok hstep).1
    · have hwithin : expected.Within
          (index.entries.map SegmentIndexEntry.segmentIdentifier) := by
        refine Except.foldlM_invariant (P := fun expected => expected.Within
          (index.entries.map SegmentIndexEntry.segmentIdentifier)) ?_ hloop ?_
        · intro entry hentry before after hbefore hstep
          rcases (certifyEntry_ok hstep).2 with rfl | ⟨segment, blobs, hdata, hidentifier, rfl⟩
          · exact hbefore
          · refine hbefore.record blobs ?_ ?_
            · rw [hidentifier]
              exact List.mem_map_of_mem hentry
            · rw [hidentifier]
              exact hdata
        · constructor
          · intro source hsource
            exact absurd hsource notMem_empty
          · intro generation sources hsources
            rw [lookup_empty] at hsources
            cases hsources
      exact hwithin

/-- A validated entry has its payload in the archive. -/
theorem exists_segmentData_of_valid {index : SegmentIndex} (hindex : archive.index = some index)
    (hentry : entry ∈ index.entries)
    (hvalid : archive.validateIndexedSegmentEntry entry.segmentIdentifier = .ok ()) :
    ∃ bytes, archive.segmentData entry.segmentIdentifier = some bytes ∧
      bytes.length = entry.size.toNat := by
  have hfound : index.findEntry entry.segmentIdentifier = some entry :=
    SegmentIndex.findEntry_eq_some_iff.mpr ⟨hentry, rfl⟩
  have hindexed : archive.indexEntry entry.segmentIdentifier = some entry := by
    rw [TarArchiveReader.indexEntry, hindex]
    exact hfound
  rw [TarArchiveReader.validateIndexedSegmentEntry, hindexed] at hvalid
  obtain ⟨⟨block, header⟩, -, hvalid⟩ := bind_ok_iff.mp hvalid
  obtain ⟨checksum, -, hvalid⟩ := bind_ok_iff.mp hvalid
  obtain ⟨⟨⟩, -, hpayload⟩ := bind_ok_iff.mp hvalid
  rw [TarArchiveReader.verifyPayloadChecksum] at hpayload
  split at hpayload
  · exact absurd hpayload invalid_ne_ok
  · rename_i payload hrange
    refine ⟨payload, ?_, ?_⟩
    · obtain ⟨name, bytes, content⟩ := archive
      cases content with
      | recovered reason entries => cases hindex
      | indexed found =>
        cases hindex
        simp only [TarArchiveReader.segmentData, hfound, Option.bind_eq_bind, Option.bind_some]
        exact hrange
    · have hlength := Bytes.length_of_range? hrange
      omega

end Froe
