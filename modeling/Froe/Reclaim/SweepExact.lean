import Froe.Reclaim.Sweep

/-!
# The replacement is exact

The copy of a certified archive is a run of the archive writer
(`copySurvivors_eq_run`), so that what the closed replacement holds follows from
the round trip of the writer.  The filter over entries, graph rows and catalog
rows is computed from the trailers of the source; the validator reads the result
back from the trailers of the replacement, and the two agree
(`sweep_rewrite_exact_iff`).
-/

namespace Froe

open Except (ok_bind_eq)
open List (append_assoc length_map map_cons map_map mem_map mem_range)
open Option (getD_some map_some)
open FilteredTrailers (fromArchive)
open ExpectedBinaryReferences (referencesOf)
open TarArchiveWriter (int32Bytes trailerEntryBytes trailerPayload)

/-! ## The copy is a run of the archive writer -/

/-- The copy whose expectations are what its writer registered. -/
def StagedCopy.ofWriter (writer : TarArchiveWriter) : StagedCopy :=
  ⟨writer, writer.graphEdges, writer.binaryReferences⟩

/-- The write of a survivor whose source has a graph and a catalog. -/
def survivorWrite (sources : SurvivorSources) (clock : SegmentIndexEntry → UInt64)
    (entry : SegmentIndexEntry) : SegmentWrite :=
  ⟨clock entry, entry.segmentIdentifier,
    (sources.reader.segmentData entry.segmentIdentifier).getD [],
    entry.garbageCollectionGeneration,
    if entry.segmentIdentifier.isDataSegment then
      (sources.trailers.graphBySource entry.segmentIdentifier).getD []
    else [], []⟩

/-- The calls that a copy makes on the archive writer. -/
def copyCalls (sources : SurvivorSources) (clock : SegmentIndexEntry → UInt64)
    (survivors : List SegmentIndexEntry) : List ArchiveCall :=
  ((sources.trailers.catalog.getD []).map fun row => .addBinaryReferences row.1 row.2.1 row.2.2) ++
    survivors.map fun entry => .writeSegment (survivorWrite sources clock entry)

section Copy

variable {sources : SurvivorSources} {clock : SegmentIndexEntry → UInt64}

theorem forSegment_eq (hgraph : sources.trailers.graphPresent = true)
    (identifier : SegmentIdentifier) (bytes : Bytes) :
    sources.trailers.forSegment identifier bytes sources.previouslyUnavailable
      sources.currentRewriteTargets none =
      .ok ((sources.trailers.graphBySource identifier).getD [], []) := by
  rw [FilteredTrailers.forSegment, hgraph]
  cases sources.trailers.graphBySource identifier with
  | none => rfl
  | some filtered => rfl

/-- One survivor is one write, and the expectations stay those of the writer. -/
theorem copySurvivor_ofWriter {writer : TarArchiveWriter} {entry : SegmentIndexEntry}
    (hgraph : sources.trailers.graphPresent = true) (hscan : sources.scanProvider = none)
    (hopen : writer.closed = false)
    (hbytes : (sources.reader.segmentData entry.segmentIdentifier).isSome) :
    copySurvivor sources clock (.ofWriter writer) entry =
      (writer.call (.writeSegment (survivorWrite sources clock entry))).map .ofWriter := by
  obtain ⟨bytes, hbytes⟩ := Option.isSome_iff_exists.mp hbytes
  obtain ⟨write, hwrite⟩ : ∃ write, write = survivorWrite sources clock entry := ⟨_, rfl⟩
  have hreferences : survivorReferences sources entry.segmentIdentifier bytes =
      .ok (write.referencedSegments, write.binaryReferenceIdentifiers) := by
    rw [hwrite, survivorWrite, survivorReferences, hscan]
    split
    · rw [forSegment_eq hgraph]
    · rfl
  have hfields : (⟨clock entry, entry.segmentIdentifier, bytes, entry.garbageCollectionGeneration,
      write.referencedSegments, write.binaryReferenceIdentifiers⟩ : SegmentWrite) = write := by
    rw [hwrite, survivorWrite, hbytes, getD_some]
  have hidentifier : entry.segmentIdentifier = write.identifier := by
    rw [hwrite, survivorWrite]
  have hnone : write.binaryReferenceIdentifiers = [] := by
    rw [hwrite, survivorWrite]
  rw [← hwrite, copySurvivor]
  simp only [hbytes, hreferences, ok_bind_eq, hfields, StagedCopy.ofWriter]
  cases hcall : writer.call (.writeSegment write) with
  | error error => rfl
  | ok next =>
    obtain ⟨-, rfl⟩ := call_writeSegment_ok hopen hcall
    simp [Except.map, StagedCopy.ofWriter, hnone, hidentifier, pure, Except.pure]

theorem call_closed {writer next : TarArchiveWriter} {call : ArchiveCall}
    (hopen : writer.closed = false) (hcall : writer.call call = .ok next) :
    next.closed = false := by
  cases call with
  | addBinaryReferences generation source references =>
    cases hcall
    exact hopen
  | writeSegment write =>
    obtain ⟨-, rfl⟩ := call_writeSegment_ok hopen hcall
    exact hopen

variable {survivors : List SegmentIndexEntry}

theorem foldlM_copySurvivor {writer : TarArchiveWriter}
    (hgraph : sources.trailers.graphPresent = true) (hscan : sources.scanProvider = none)
    (hopen : writer.closed = false) (hbytes : ∀ entry ∈ survivors,
      (sources.reader.segmentData entry.segmentIdentifier).isSome) :
    survivors.foldlM (copySurvivor sources clock) (.ofWriter writer) =
      (writer.run (survivors.map fun entry =>
        .writeSegment (survivorWrite sources clock entry))).map .ofWriter := by
  induction survivors generalizing writer with
  | nil => rfl
  | cons entry survivors ih =>
    rw [List.foldlM_cons, copySurvivor_ofWriter hgraph hscan hopen
      (hbytes entry (List.mem_cons_self ..)), map_cons, TarArchiveWriter.run,
      List.foldlM_cons]
    cases hcall : writer.call (.writeSegment (survivorWrite sources clock entry)) with
    | error error => rfl
    | ok next =>
      exact ih (call_closed hopen hcall) fun later hin => hbytes later (List.mem_cons_of_mem _ hin)

theorem foldl_copyCatalogEntry
    (rows : List (GarbageCollectionGeneration × SegmentIdentifier × List String))
    (writer : TarArchiveWriter) :
    ∃ next, writer.run (rows.map fun row => .addBinaryReferences row.1 row.2.1 row.2.2) = .ok next ∧
      rows.foldl copyCatalogEntry (.ofWriter writer) = .ofWriter next ∧
      next.closed = writer.closed := by
  induction rows generalizing writer with
  | nil => exact ⟨writer, rfl, rfl, rfl⟩
  | cons row rows ih =>
    obtain ⟨next, hrun, hfold, hclosed⟩ := ih (writer.addBinaryReferences row.1 row.2.1 row.2.2)
    exact ⟨next, hrun, hfold, hclosed⟩

/-- The copy succeeds when its calls do, and expects what they register. -/
theorem copySurvivors_eq_run (name : String)
    (hgraph : sources.trailers.graphPresent = true) (hscan : sources.scanProvider = none)
    (hbytes : ∀ entry ∈ survivors,
      (sources.reader.segmentData entry.segmentIdentifier).isSome) :
    copySurvivors sources clock survivors (TarArchiveWriter.new name) =
      ((TarArchiveWriter.new name).run (copyCalls sources clock survivors)).map .ofWriter := by
  obtain ⟨next, hrun, hfold, hclosed⟩ := foldl_copyCatalogEntry
    (sources.trailers.catalog.getD []) (TarArchiveWriter.new name)
  have hstart : StagedCopy.ofWriter (TarArchiveWriter.new name) =
      ⟨TarArchiveWriter.new name, ∅, ∅⟩ := rfl
  rw [copySurvivors, ← hstart, hfold, foldlM_copySurvivor hgraph hscan hclosed hbytes, copyCalls,
    TarArchiveWriter.run, TarArchiveWriter.run, List.foldlM_append]
  rw [TarArchiveWriter.run] at hrun
  rw [hrun, ok_bind_eq]

theorem writes_copyCalls (survivors : List SegmentIndexEntry) :
    writes (copyCalls sources clock survivors) = survivors.map (survivorWrite sources clock) := by
  rw [copyCalls, writes_append, writes, writes, List.filterMap_map, List.filterMap_map]
  have hcatalog : (sources.trailers.catalog.getD []).filterMap (ArchiveCall.write? ∘ fun row =>
      .addBinaryReferences row.1 row.2.1 row.2.2) = [] :=
    List.filterMap_eq_nil_iff.mpr fun _ _ => rfl
  rw [hcatalog, List.nil_append, ← List.filterMap_eq_map]
  rfl

theorem registrations_copyCalls (survivors : List SegmentIndexEntry) :
    registrations (copyCalls sources clock survivors) =
      (sources.trailers.catalog.getD []).map fun row => ⟨row.1, row.2.1, row.2.2⟩ := by
  rw [copyCalls, registrations_append, registrations, registrations, List.filterMap_map,
    List.filterMap_map]
  have hsurvivors : survivors.filterMap (ArchiveCall.registration? ∘ fun entry =>
      .writeSegment (survivorWrite sources clock entry)) = [] :=
    List.filterMap_eq_nil_iff.mpr fun _ _ => rfl
  rw [hsurvivors, List.append_nil, ← List.filterMap_eq_map]
  rfl

end Copy

/-! ## The replacement in physical order -/

/-- What the index records of a segment besides its position. -/
def SegmentIndexEntry.metadata (entry : SegmentIndexEntry) :
    SegmentIdentifier × UInt32 × GarbageCollectionGeneration :=
  (entry.segmentIdentifier, entry.size, entry.garbageCollectionGeneration)

open SegmentIndexEntry (metadata)

theorem pairwise_layout {offset : Nat} {ws : List SegmentWrite}
    (hlimit : offset + bodySize ws ≤ 2 ^ 31 - 1) :
    (layout offset ws).Pairwise fun a b => a.dataOffset < b.dataOffset := by
  induction ws generalizing offset with
  | nil => exact List.Pairwise.nil
  | cons write ws ih =>
    rw [bodySize_cons] at hlimit
    rw [layout]
    refine List.pairwise_cons.mpr ⟨?_, ih (by rw [length_entryBytes]; omega)⟩
    intro row hrow
    obtain ⟨before, later, after, hsplit, rfl⟩ := mem_layout hrow
    rw [hsplit, bodySize_append, bodySize_cons] at hlimit
    simp only [SegmentWrite.indexRow, UInt32.lt_iff_toNat_lt, UInt32.toNat_ofNat', tarBlockSize,
      length_entryBytes, length_bodyBytes]
    omega

/-- Sorting the index of the replacement by position gives the order of the writes. -/
theorem entriesByPosition_eq {index : SegmentIndex} {calls : List ArchiveCall}
    (hentries : index.entries.Perm (writtenEntries calls))
    (hlimit : bodySize (writes calls) ≤ 2 ^ 31 - 1) :
    entriesByPosition index = writtenEntries calls := by
  have hlayout : (writtenEntries calls).Pairwise fun a b => a.position < b.position :=
    List.pairwise_map.mpr (pairwise_layout (by omega))
  have hsorted : (entriesByPosition index).Pairwise fun a b => a.position ≤ b.position := by
    have : Std.Total fun a b : SegmentIndexEntry => a.position ≤ b.position :=
      ⟨fun a b => UInt32.le_total a.position b.position⟩
    have : IsTrans SegmentIndexEntry fun a b => a.position ≤ b.position :=
      ⟨fun a b c hab hbc => UInt32.le_trans hab hbc⟩
    exact List.pairwise_insertionSort _ _
  have hperm : (entriesByPosition index).Perm (writtenEntries calls) :=
    (List.perm_insertionSort _ _).trans hentries
  refine hperm.eq_of_pairwise ?_ hsorted (hlayout.imp fun h => UInt32.le_of_lt h)
  -- two entries of one position are the same, as positions strictly increase
  intro a b ha hb hab hba
  have hposition : a.position = b.position := UInt32.le_antisymm hab hba
  have hinj := List.inj_on_of_nodup_map (f := SegmentIndexEntry.position)
    (List.pairwise_map.mpr (hlayout.imp fun h => UInt32.ne_of_lt h))
  exact hinj (hperm.mem_iff.mp ha) hb hposition

theorem layout_map_metadata (offset : Nat) (ws : List SegmentWrite) :
    ((layout offset ws).map PendingIndexEntry.indexed).map metadata =
      ws.map fun write => (write.identifier, UInt32.ofNat write.content.length, write.generation) := by
  induction ws generalizing offset with
  | nil => rfl
  | cons write ws ih =>
    rw [layout, map_cons, map_cons, map_cons, ih]
    rfl

/-! ## Exactness -/

/-- The replacement holds exactly the survivors of its source, in their order, with the
graph and the catalog of the source restricted to them. -/
structure RewritesExactly (source : TarArchiveReader) (index : SegmentIndex)
    (reclaimable previouslyUnavailable : Finset SegmentIdentifier) (swept : TarArchiveReader)
    (sweptPath : String) : Prop where
  entries : ∃ sweptIndex, swept.index = some sweptIndex ∧
    (entriesByPosition sweptIndex).map SegmentIndexEntry.metadata =
      (partitionEntries index reclaimable).map SegmentIndexEntry.metadata
  bytes : ∀ entry ∈ partitionEntries index reclaimable, ∃ bytes,
    source.segmentData entry.segmentIdentifier = some bytes ∧
      swept.segmentData entry.segmentIdentifier = some bytes
  graph : ∃ graph sweptGraph,
    normalizedArchiveGraph source s!"active archive {source.fileName}" = .ok graph ∧
    normalizedArchiveGraph swept sweptPath = .ok sweptGraph ∧
    ∀ segment, sweptGraph.lookup segment =
      if segment ∈ (partitionEntries index reclaimable).map SegmentIndexEntry.segmentIdentifier then
        ((graph.lookup segment).map fun targets =>
          targets \ (previouslyUnavailable ∪ reclaimableInArchive index reclaimable)).filter (· ≠ ∅)
      else none
  catalog : ∃ catalog sweptCatalog,
    normalizedArchiveBinaryReferences source s!"active archive {source.fileName}" = .ok catalog ∧
    normalizedArchiveBinaryReferences swept sweptPath = .ok sweptCatalog ∧
    ∀ generation segment,
      ExpectedBinaryReferences.referencesOf sweptCatalog generation segment =
      if segment ∈ (partitionEntries index reclaimable).map SegmentIndexEntry.segmentIdentifier then
        ExpectedBinaryReferences.referencesOf catalog generation segment
      else none

section

variable {index : SegmentIndex} {reclaimable : Finset SegmentIdentifier}

theorem mem_partitionEntries {entry : SegmentIndexEntry} :
    entry ∈ partitionEntries index reclaimable ↔
      entry ∈ index.entries ∧ entry.segmentIdentifier ∉ reclaimable := by
  simp [partitionEntries, entriesByPosition]

theorem mem_survivors {segment : SegmentIdentifier} :
    segment ∈ (partitionEntries index reclaimable).map SegmentIndexEntry.segmentIdentifier ↔
      segment ∈ index.entries.map SegmentIndexEntry.segmentIdentifier ∧ segment ∉ reclaimable := by
  simp only [mem_map, mem_partitionEntries]
  constructor
  · rintro ⟨entry, ⟨hentry, hkept⟩, rfl⟩
    exact ⟨⟨entry, hentry, rfl⟩, hkept⟩
  · rintro ⟨⟨entry, hentry, rfl⟩, hkept⟩
    exact ⟨entry, ⟨hentry, hkept⟩, rfl⟩

end

theorem nodup_identifiers (index : SegmentIndex) :
    (index.entries.map SegmentIndexEntry.segmentIdentifier).Nodup := by
  refine List.pairwise_map.mpr (index.sorted.imp ?_)
  intro a b hab heq
  exact ne_of_lt hab (congrArg signedOrderKey heq)

theorem nodup_survivors (index : SegmentIndex) (reclaimable : Finset SegmentIdentifier) :
    ((partitionEntries index reclaimable).map SegmentIndexEntry.segmentIdentifier).Nodup := by
  refine List.Nodup.sublist (List.filter_sublist.map _) ?_
  exact ((List.perm_insertionSort _ index.entries).map _).nodup_iff.mpr (nodup_identifiers index)

section Restriction

variable {source : TarArchiveReader} {index : SegmentIndex} {graph : ExpectedGraph}
  {catalog : ExpectedBinaryReferences} {reclaimable previouslyUnavailable : Finset SegmentIdentifier}

/-- What the copy of a certified archive reads. -/
def certifiedSources (source : TarArchiveReader) (index : SegmentIndex)
    (reclaimable previouslyUnavailable : Finset SegmentIdentifier) : SurvivorSources :=
  ⟨source, FilteredTrailers.fromArchive source reclaimable previouslyUnavailable
    (reclaimableInArchive index reclaimable), previouslyUnavailable,
    reclaimableInArchive index reclaimable, none⟩

/-- The calls that copy the survivors of a certified archive. -/
def replacementCalls (source : TarArchiveReader) (index : SegmentIndex)
    (reclaimable previouslyUnavailable : Finset SegmentIdentifier)
    (clock : SegmentIndexEntry → UInt64) : List ArchiveCall :=
  copyCalls (certifiedSources source index reclaimable previouslyUnavailable) clock
    (partitionEntries index reclaimable)

/-- The targets registered for a survivor are its targets in the source that stay. -/
theorem registeredTargets_replacementCalls (hcert : Certified source index graph catalog)
    (clock : SegmentIndexEntry → UInt64) (segment : SegmentIdentifier) :
    registeredTargets
        (writes (replacementCalls source index reclaimable previouslyUnavailable clock)) segment =
      if segment ∈ (partitionEntries index reclaimable).map SegmentIndexEntry.segmentIdentifier then
        ((graph.lookup segment).getD ∅) \
          (previouslyUnavailable ∪ reclaimableInArchive index reclaimable)
      else ∅ := by
  obtain ⟨parsed, hparsed, hlookup⟩ := normalizedArchiveGraph_lookup hcert.graphRows
  ext target
  rw [mem_registeredTargets, replacementCalls, writes_copyCalls]
  by_cases hsurvivor : segment ∈ (partitionEntries index reclaimable).map
      SegmentIndexEntry.segmentIdentifier
  · rw [if_pos hsurvivor]
    obtain ⟨entry, hentry, rfl⟩ := mem_map.mp hsurvivor
    cases hrow : parsed.references? entry.segmentIdentifier with
    | none =>
      rw [hlookup, hrow]
      simp only [Option.map_none, Option.getD_none, Finset.empty_sdiff, Finset.notMem_empty,
        iff_false]
      rintro ⟨write, hwrite, hidentifier, htarget⟩
      obtain ⟨other, -, rfl⟩ := mem_map.mp hwrite
      have hsame : other.segmentIdentifier = entry.segmentIdentifier := hidentifier
      simp [survivorWrite, certifiedSources, fromArchive, hparsed, hsame, hrow]
        at htarget
    | some targets =>
      have hdata : entry.segmentIdentifier.isDataSegment := by
        refine (hcert.within.graph entry.segmentIdentifier ?_).2
        rw [← Finmap.lookup_isSome, hlookup, hrow]
        rfl
      rw [hlookup, hrow]
      simp only [map_some, getD_some, Finset.mem_sdiff, List.mem_toFinset,
        Finset.mem_union, not_or]
      constructor
      · rintro ⟨write, hwrite, hidentifier, htarget⟩
        obtain ⟨other, -, rfl⟩ := mem_map.mp hwrite
        have hsame : other.segmentIdentifier = entry.segmentIdentifier := hidentifier
        simpa [survivorWrite, certifiedSources, fromArchive, hparsed, hsame, hrow,
          hdata, availableTargets] using htarget
      · intro htarget
        refine ⟨_, List.mem_map_of_mem hentry, rfl, ?_⟩
        simpa [survivorWrite, certifiedSources, fromArchive, hparsed, hrow, hdata,
          availableTargets] using htarget
  · rw [if_neg hsurvivor]
    simp only [Finset.notMem_empty, iff_false]
    rintro ⟨write, hwrite, hidentifier, -⟩
    obtain ⟨other, hother, rfl⟩ := mem_map.mp hwrite
    exact hsurvivor (mem_map.mpr ⟨other, hother, hidentifier⟩)

theorem mem_registrations_replacementCalls {parsed : BinaryReferences}
    (hparsed : source.binaryReferences = some parsed) {clock : SegmentIndexEntry → UInt64}
    {registration : Registration} :
    registration ∈
        registrations (replacementCalls source index reclaimable previouslyUnavailable clock) ↔
      registration.source ∉ reclaimable ∧ ∃ group ∈ parsed.generations,
        group.key = registration.generation ∧
          (registration.source, registration.references) ∈ group.segments := by
  obtain ⟨generation, segment, references⟩ := registration
  rw [replacementCalls, registrations_copyCalls]
  simp only [certifiedSources, fromArchive, hparsed, map_some,
    getD_some, mem_map, List.mem_flatMap, List.mem_filter, decide_eq_true_eq,
    Registration.mk.injEq]
  constructor
  · rintro ⟨_, ⟨group, hgroup, ⟨row, ⟨hrow, hkept⟩, rfl⟩⟩, rfl, rfl, rfl⟩
    exact ⟨hkept, group, hgroup, rfl, hrow⟩
  · rintro ⟨hkept, group, hgroup, rfl, hrow⟩
    exact ⟨_, ⟨group, hgroup, ⟨_, ⟨hrow, hkept⟩, rfl⟩⟩, rfl, rfl, rfl⟩

variable {registered : ExpectedBinaryReferences}

/-- The references a writer has registered for a segment. -/
theorem referencesOf_of_matches {rs : List Registration}
    (h : CatalogMatches registered rs) (generation : GarbageCollectionGeneration)
    (segment : SegmentIdentifier) :
    referencesOf registered generation segment =
      if segment ∈ registeredSegments rs generation then
        some (registeredReferences rs generation segment)
      else none := by
  cases hlookup : registered.lookup generation with
  | none =>
    have hnot : segment ∉ registeredSegments rs generation := by
      intro hmem
      obtain ⟨r, hr, hgeneration, -⟩ := mem_registeredSegments.mp hmem
      exact (h.generations generation).mp hlookup
        (mem_registeredGenerations.mpr ⟨r, hr, hgeneration⟩)
    rw [referencesOf, hlookup, if_neg hnot]
    rfl
  | some sources =>
    rw [referencesOf, hlookup]
    exact h.references generation sources segment hlookup

/-- The catalog registered by the copy is the catalog of the source without the
reclaimable segments. -/
theorem referencesOf_replacementCalls (hcert : Certified source index graph catalog)
    {clock : SegmentIndexEntry → UInt64} (hmatches : CatalogMatches registered
      (registrations (replacementCalls source index reclaimable previouslyUnavailable clock)))
    (generation : GarbageCollectionGeneration) (segment : SegmentIdentifier) :
    referencesOf registered generation segment =
      if segment ∈ (partitionEntries index reclaimable).map SegmentIndexEntry.segmentIdentifier then
        referencesOf catalog generation segment
      else none := by
  obtain ⟨parsed, hparsed, hlookup⟩ := normalizedArchiveBinaryReferences_lookup hcert.catalogRows
  rw [referencesOf_of_matches hmatches]
  have hsegments : segment ∈ registeredSegments (registrations
      (replacementCalls source index reclaimable previouslyUnavailable clock)) generation ↔
      segment ∉ reclaimable ∧ ∃ references,
        referencesOf catalog generation segment = some references := by
    simp only [mem_registeredSegments, mem_registrations_replacementCalls hparsed, hlookup]
    constructor
    · rintro ⟨r, ⟨hkept, group, hgroup, hkey, hrow⟩, hgeneration, rfl⟩
      exact ⟨hkept, _, group, hgroup, hkey.trans hgeneration, r.references, hrow, rfl⟩
    · rintro ⟨hkept, _, group, hgroup, hkey, values, hrow, rfl⟩
      exact ⟨⟨generation, segment, values⟩, ⟨hkept, group, hgroup, hkey, hrow⟩, rfl, rfl⟩
  cases hfound : referencesOf catalog generation segment with
  | none =>
    rw [if_neg (by rw [hsegments, hfound]; simp)]
    split <;> rfl
  | some references =>
    have hmem : segment ∈ index.entries.map SegmentIndexEntry.segmentIdentifier := by
      obtain ⟨sources, hsources, hsegment⟩ := Option.bind_eq_some_iff.mp hfound
      exact hcert.within.references generation sources hsources segment
        (Finmap.lookup_isSome.mp (by rw [hsegment]; rfl))
    by_cases hkept : segment ∈ reclaimable
    · rw [if_neg (by rw [hsegments]; simp [hkept]), if_neg (by rw [mem_survivors]; simp [hkept])]
    · rw [if_pos (hsegments.mpr ⟨hkept, references, hfound⟩),
        if_pos (mem_survivors.mpr ⟨hmem, hkept⟩)]
      congr 1
      ext reference
      -- every row of the pair holds the same set, as the source repeats none
      simp only [mem_registeredReferences, mem_registrations_replacementCalls hparsed]
      constructor
      · rintro ⟨r, ⟨-, group, hgroup, hkey, hrow⟩, hgeneration, rfl, hreference⟩
        have hrow' : referencesOf catalog generation r.source =
            some r.references.toFinset :=
          (hlookup ..).mpr ⟨group, hgroup, hkey.trans hgeneration, _, hrow, rfl⟩
        rw [hfound] at hrow'
        cases hrow'
        exact List.mem_toFinset.mpr hreference
      · intro hreference
        obtain ⟨group, hgroup, hkey, values, hrow, rfl⟩ := (hlookup ..).mp hfound
        exact ⟨⟨generation, segment, values⟩, ⟨hkept, group, hgroup, hkey, hrow⟩, rfl, rfl,
          List.mem_toFinset.mp hreference⟩

/-- A survivor of a certified archive has its bytes, as many as its entry says. -/
theorem exists_survivorData (hcert : Certified source index graph catalog)
    {entry : SegmentIndexEntry} (hentry : entry ∈ partitionEntries index reclaimable) :
    ∃ bytes, source.segmentData entry.segmentIdentifier = some bytes ∧
      bytes.length = entry.size.toNat := by
  have hmem := (mem_partitionEntries.mp hentry).1
  exact exists_segmentData_of_valid hcert.indexed hmem (hcert.valid entry hmem)

section Opened

variable {clock : SegmentIndexEntry → UInt64} {writer : TarArchiveWriter} {name path : String}
  {swept : TarArchiveReader} {sweptIndex : SegmentIndex}

section

variable (hcert : Certified source index graph catalog)
  (hholds : Holds swept sweptIndex (replacementCalls source index reclaimable
      previouslyUnavailable clock))
include hcert hholds

/-- The index of the replacement, by position, lists the survivors. -/
theorem metadata_replacement
    (hlimit : bodySize (writes (replacementCalls source index reclaimable previouslyUnavailable
      clock)) ≤ 2 ^ 31 - 1) :
    (entriesByPosition sweptIndex).map metadata =
      (partitionEntries index reclaimable).map metadata := by
  rw [entriesByPosition_eq hholds.entries hlimit, writtenEntries, layout_map_metadata,
    replacementCalls, writes_copyCalls, map_map]
  refine List.map_congr_left fun entry hentry => ?_
  obtain ⟨bytes, hbytes, hlength⟩ := exists_survivorData hcert hentry
  simp only [Function.comp_apply, survivorWrite, certifiedSources, hbytes, getD_some,
    hlength, metadata, UInt32.ofNat_toNat]

theorem segmentData_replacement
    {entry : SegmentIndexEntry} (hentry : entry ∈ partitionEntries index reclaimable) :
    ∃ bytes, source.segmentData entry.segmentIdentifier = some bytes ∧
      swept.segmentData entry.segmentIdentifier = some bytes := by
  obtain ⟨bytes, hbytes, -⟩ := exists_survivorData hcert hentry
  refine ⟨bytes, hbytes, ?_⟩
  have hwrite : survivorWrite (certifiedSources source index reclaimable previouslyUnavailable) clock
      entry ∈ writes (replacementCalls source index reclaimable previouslyUnavailable clock) := by
    rw [replacementCalls, writes_copyCalls]
    exact List.mem_map_of_mem hentry
  have hdata := (hholds.data _ hwrite).2
  simp only [survivorWrite, certifiedSources, hbytes, getD_some] at hdata
  exact hdata

end

/-- The trailers of the replacement are the maps of its writer. -/
theorem trailers_replacement {calls : List ArchiveCall} (hholds : Holds swept sweptIndex calls)
    (hrep : Represents writer name calls) (path : String) :
    validateExactArchiveTrailers swept path writer.graphEdges writer.binaryReferences = .ok () := by
  refine validateExactArchiveTrailers_of_rows path ?_ ?_
  · rw [hholds.graph, hrep.edges.map_rows]
  · rw [hholds.catalog, hrep.catalog.map_rows]

section

variable (hcert : Certified source index graph catalog)
  (hrep : Represents writer name (replacementCalls source index reclaimable previouslyUnavailable
      clock))
  (hindex : swept.index = some sweptIndex)
  (hholds : Holds swept sweptIndex (replacementCalls source index reclaimable
      previouslyUnavailable clock))
  (hlimit : bodySize (writes (replacementCalls source index reclaimable previouslyUnavailable
      clock)) ≤ 2 ^ 31 - 1)
include hcert hrep hindex hholds hlimit

/-- A replacement that opens with what the copy registered is exact. -/
theorem rewritesExactly_of_holds :
    RewritesExactly source index reclaimable previouslyUnavailable swept path := by
  obtain ⟨hgraph, hcatalog⟩ :=
    validateExactArchiveTrailers_ok_iff.mp (trailers_replacement hholds hrep path)
  refine ⟨⟨sweptIndex, hindex, metadata_replacement hcert hholds hlimit⟩,
    fun entry hentry => segmentData_replacement hcert hholds hentry,
    ⟨graph, writer.graphEdges, hcert.graphRows, hgraph, ?_⟩,
    ⟨catalog, writer.binaryReferences, hcert.catalogRows, hcatalog,
      referencesOf_replacementCalls hcert hrep.catalog⟩⟩
  intro segment
  rw [hrep.edges segment, registeredTargets_replacementCalls hcert]
  by_cases hsurvivor : segment ∈ (partitionEntries index reclaimable).map
      SegmentIndexEntry.segmentIdentifier
  · simp only [if_pos hsurvivor]
    cases graph.lookup segment with
    | none => simp
    | some targets =>
      simp only [getD_some, map_some, Option.filter_some]
      split <;> simp_all
  · simp only [if_neg hsurvivor, if_true]

/-- The validator accepts a replacement that opens with what the copy registered. -/
theorem validate_of_holds :
    validateOpenSweptArchive source swept path (partitionEntries index reclaimable)
      writer.graphEdges writer.binaryReferences = .ok () := by
  have hmetadata := metadata_replacement hcert hholds hlimit
  have horder : (entriesByPosition sweptIndex).map SegmentIndexEntry.segmentIdentifier =
      (partitionEntries index reclaimable).map SegmentIndexEntry.segmentIdentifier := by
    have hmap := congrArg (List.map Prod.fst) hmetadata
    rw [map_map, map_map] at hmap
    exact hmap
  have hcount : swept.segmentCount = (partitionEntries index reclaimable).length := by
    have hlength := congrArg List.length horder
    rw [length_map, length_map, entriesByPosition, List.length_insertionSort] at hlength
    obtain ⟨sweptName, sweptBytes, content⟩ := swept
    cases content with
    | recovered reason entries => cases hindex
    | indexed found =>
      cases hindex
      exact hlength
  have hsurvivors : ∀ entry ∈ partitionEntries index reclaimable,
      proveSurvivor source swept path entry = .ok () := by
    intro entry hentry
    have hmem : entry.metadata ∈ (entriesByPosition sweptIndex).map metadata := by
      rw [hmetadata]
      exact List.mem_map_of_mem hentry
    obtain ⟨actual, hactual, hsame⟩ := mem_map.mp hmem
    rw [entriesByPosition, List.mem_insertionSort] at hactual
    simp only [metadata, SegmentIndexEntry.garbageCollectionGeneration,
      Prod.mk.injEq, GarbageCollectionGeneration.mk.injEq] at hsame
    obtain ⟨hidentifier, hsize, hgeneration, hfull, hcompacted⟩ := hsame
    have hvalid := hholds.valid actual hactual
    have hfound : swept.indexEntry entry.segmentIdentifier = some actual := by
      rw [TarArchiveReader.indexEntry, hindex]
      exact SegmentIndex.findEntry_eq_some_iff.mpr ⟨hactual, hidentifier⟩
    rw [hidentifier] at hvalid
    obtain ⟨bytes, hbytes, hswept⟩ := segmentData_replacement hcert hholds hentry
    simp [proveSurvivor, hvalid, hfound, hsize, hgeneration, hfull, hcompacted, hbytes, hswept]
  have hloop : (partitionEntries index reclaimable).forM (proveSurvivor source swept path) =
      .ok () := Except.forM_ok hsurvivors
  rw [validateOpenSweptArchive, proveSurvivorCountOrderAndEntries, hindex]
  simp only [hcount, horder, ne_eq, not_true_eq_false, if_false, hloop, ok_bind_eq]
  exact trailers_replacement hholds hrep path

end

end Opened

end Restriction

/-! ## The sweep -/

/-- Staging a certified archive runs the copy, without a provider. -/
theorem stageReplacement_eq {source : TarArchiveReader} {index : SegmentIndex}
    {graph : ExpectedGraph} {catalog : ExpectedBinaryReferences}
    {reclaimable previouslyUnavailable : Finset SegmentIdentifier}
    (hcert : Certified source index graph catalog) (allArchives : List TarArchiveReader)
    (name : String) (clock : SegmentIndexEntry → UInt64) (times : TarArchiveWriter.CloseTimes) :
    stageReplacement source index reclaimable previouslyUnavailable allArchives name clock times =
      ((TarArchiveWriter.new name).run
        (replacementCalls source index reclaimable previouslyUnavailable clock)).map fun writer =>
          ⟨partitionEntries index reclaimable, writer.graphEdges, writer.binaryReferences,
            writer.close times⟩ := by
  obtain ⟨parsedGraph, hgraph, -⟩ := normalizedArchiveGraph_lookup hcert.graphRows
  obtain ⟨parsedCatalog, hcatalog, -⟩ :=
    normalizedArchiveBinaryReferences_lookup hcert.catalogRows
  have hscan : scanProviderFor (fromArchive source reclaimable
      previouslyUnavailable (reclaimableInArchive index reclaimable)) allArchives = .ok none := by
    simp [scanProviderFor, fromArchive, hcatalog]
  have hpresent : (certifiedSources source index reclaimable
      previouslyUnavailable).trailers.graphPresent = true := by
    simp [certifiedSources, fromArchive, hgraph]
  have hbytes : ∀ entry ∈ partitionEntries index reclaimable, ((certifiedSources source index
      reclaimable previouslyUnavailable).reader.segmentData entry.segmentIdentifier).isSome := by
    intro entry hentry
    obtain ⟨bytes, hbytes, -⟩ := exists_survivorData hcert hentry
    simp [certifiedSources, hbytes]
  have hcopy : copySurvivors (certifiedSources source index reclaimable previouslyUnavailable) clock
      (partitionEntries index reclaimable) (TarArchiveWriter.new name) =
      ((TarArchiveWriter.new name).run
        (replacementCalls source index reclaimable previouslyUnavailable clock)).map .ofWriter :=
    copySurvivors_eq_run name hpresent rfl hbytes
  rw [certifiedSources] at hcopy
  rw [stageReplacement]
  simp only [hscan, ok_bind_eq, hcopy]
  cases TarArchiveWriter.run (TarArchiveWriter.new name)
    (replacementCalls source index reclaimable previouslyUnavailable clock) with
  | error error => rfl
  | ok writer => rfl

/-- The sweep stages a replacement that opens, is exact and passes its validation. -/
def SweepSucceeds (source : TarArchiveReader) (index : SegmentIndex)
    (reclaimable previouslyUnavailable : Finset SegmentIdentifier)
    (allArchives : List TarArchiveReader) (replacementName stagingName stagingPath : String)
    (clock : SegmentIndexEntry → UInt64) (times : TarArchiveWriter.CloseTimes) : Prop :=
  ∃ staged file swept,
    stageReplacement source index reclaimable previouslyUnavailable allArchives replacementName
      clock times = .ok staged ∧ staged.file = some file ∧
    TarArchiveReader.openFile stagingName file = .ok swept ∧
    RewritesExactly source index reclaimable previouslyUnavailable swept stagingPath ∧
    validateOpenSweptArchive source swept stagingPath staged.survivors staged.expectedGraph
      staged.expectedBinaryReferences = .ok ()

section Sweep

variable {source : TarArchiveReader} {index : SegmentIndex} {graph : ExpectedGraph}
  {catalog : ExpectedBinaryReferences} {reclaimable previouslyUnavailable : Finset SegmentIdentifier}
  {allArchives : List TarArchiveReader} {replacementName stagingName stagingPath : String}
  {clock : SegmentIndexEntry → UInt64} {times : TarArchiveWriter.CloseTimes}

theorem sweepSucceeds_of_length (hcert : Certified source index graph catalog)
    (hsurvivor : ∃ entry ∈ index.entries, entry.segmentIdentifier ∉ reclaimable)
    (hlength : closedLength
      (replacementCalls source index reclaimable previouslyUnavailable clock) ≤ 2 ^ 31 - 1) :
    SweepSucceeds source index reclaimable previouslyUnavailable allArchives replacementName
      stagingName stagingPath clock times := by
  obtain ⟨calls, hcalls⟩ : ∃ calls, calls =
    replacementCalls source index reclaimable previouslyUnavailable clock := ⟨_, rfl⟩
  have hwrites : writes calls = (partitionEntries index reclaimable).map
      (survivorWrite (certifiedSources source index reclaimable previouslyUnavailable) clock) := by
    rw [hcalls, replacementCalls, writes_copyCalls]
  rw [← hcalls] at hlength
  have hlimit : bodySize (writes calls) ≤ 2 ^ 31 - 1 := by
    rw [closedLength] at hlength
    omega
  obtain ⟨writer, hrun⟩ : ∃ writer, (TarArchiveWriter.new replacementName).run calls = .ok writer :=
    run_ok_of_length (by rw [length_bodyBytes]; exact hlimit)
  have hrep := represents_run hrun
  have hdistinct : ((writes calls).map SegmentWrite.identifier).Nodup := by
    rw [hwrites, map_map]
    exact nodup_survivors index reclaimable
  have hcontent : ∀ write ∈ writes calls, write.content ≠ [] := by
    rw [hwrites]
    intro write hwrite
    obtain ⟨entry, hentry, rfl⟩ := mem_map.mp hwrite
    obtain ⟨bytes, hbytes, hbyteslength⟩ := exists_survivorData hcert hentry
    have hextent := index.extents entry (mem_partitionEntries.mp hentry).1
    have hsize := signed32_of_nonneg (le_trans (by decide) hextent.2.2)
    have hpos := hextent.2.2
    simp only [survivorWrite, certifiedSources, hbytes, getD_some]
    refine List.ne_nil_of_length_pos ?_
    omega
  have hne : writes calls ≠ [] := by
    obtain ⟨entry, hentry, hkept⟩ := hsurvivor
    rw [hwrites]
    exact List.ne_nil_of_mem (List.mem_map_of_mem (mem_partitionEntries.mpr ⟨hentry, hkept⟩))
  have hclose : writer.close times = some (bodyBytes (writes calls) ++ writer.trailerBytes times) := by
    rw [TarArchiveWriter.close, hrep.file, if_neg hne]
    rfl
  have hround : RoundTrips stagingName calls
      (bodyBytes (writes calls) ++ writer.trailerBytes times) :=
    roundTrips_of_length hrep hdistinct hcontent hne hlength
  obtain ⟨swept, sweptIndex, hopen, hindex, hholds⟩ := hround
  rw [hcalls] at hrep hholds hlimit
  refine ⟨⟨partitionEntries index reclaimable, writer.graphEdges, writer.binaryReferences,
    writer.close times⟩, _, swept, ?_, hclose, hopen,
    rewritesExactly_of_holds hcert hrep hindex hholds hlimit,
    validate_of_holds hcert hrep hindex hholds hlimit⟩
  rw [stageReplacement_eq hcert, ← hcalls, hrun]
  rfl

theorem not_sweepSucceeds_of_length (hcert : Certified source index graph catalog)
    (hlength : 2 ^ 31 - 1 < closedLength
      (replacementCalls source index reclaimable previouslyUnavailable clock)) :
    ¬ SweepSucceeds source index reclaimable previouslyUnavailable allArchives replacementName
      stagingName stagingPath clock times := by
  rintro ⟨staged, file, swept, hstaged, hfile, hopen, hexact, -⟩
  rw [stageReplacement_eq hcert] at hstaged
  cases hrun : (TarArchiveWriter.new replacementName).run
      (replacementCalls source index reclaimable previouslyUnavailable clock) with
  | error error =>
    rw [hrun] at hstaged
    cases hstaged
  | ok writer =>
    rw [hrun] at hstaged
    cases hstaged
    have hrep := represents_run hrun
    obtain ⟨-, rfl⟩ := hrep.close_eq hfile
    rw [← hrep.length_close times] at hlength
    obtain ⟨sweptIndex, hindex, -⟩ := hexact.entries
    rw [index_eq_none_of_length hlength hopen] at hindex
    cases hindex

/-- **Sweep rewrite.**  For every certified source, every reclaimable set that leaves a
survivor and every set of segments already unavailable, the sweep stages an exact
replacement that its validator accepts if and only if the closed replacement, trailers
included, has a length the reader addresses. -/
theorem sweep_rewrite_exact_iff {provider : SegmentProvider}
    (hcertificate : certifyActiveArchive provider source = .ok ())
    (hindex : source.index = some index)
    (hsurvivor : ∃ entry ∈ index.entries, entry.segmentIdentifier ∉ reclaimable) :
    SweepSucceeds source index reclaimable previouslyUnavailable allArchives replacementName
        stagingName stagingPath clock times ↔
      closedLength (replacementCalls source index reclaimable previouslyUnavailable clock) ≤
        2 ^ 31 - 1 := by
  obtain ⟨found, graph, catalog, hcert⟩ := certified_of_certifyActiveArchive hcertificate
  obtain rfl : found = index := Option.some.inj (hcert.indexed.symm.trans hindex)
  constructor
  · intro hsucceeds
    by_contra hlong
    exact not_sweepSucceeds_of_length hcert (Nat.lt_of_not_le hlong) hsucceeds
  · intro hlength
    exact sweepSucceeds_of_length hcert hsurvivor hlength

end Sweep

/-! ## Archives of bulk segments -/

/-- An archive of bulk segments, with trailers that are empty, is certified. -/
theorem certifyActiveArchive_of_bulk {archive : TarArchiveReader} {index : SegmentIndex}
    (provider : SegmentProvider) (hindex : archive.index = some index)
    (hvalid : ∀ entry ∈ index.entries,
      archive.validateIndexedSegmentEntry entry.segmentIdentifier = .ok ())
    (hbulk : ∀ entry ∈ index.entries, entry.segmentIdentifier.isDataSegment = false)
    (hgraph : archive.segmentGraph = some ⟨[]⟩) (hcatalog : archive.binaryReferences = some ⟨[]⟩) :
    certifyActiveArchive provider archive = .ok () := by
  have hloop : ∀ entries : List SegmentIndexEntry, (∀ entry ∈ entries, entry ∈ index.entries) →
      entries.foldlM (certifyEntry provider archive s!"active archive {archive.fileName}") ⟨∅, ∅⟩ =
        .ok ⟨∅, ∅⟩ := by
    intro entries
    induction entries with
    | nil => exact fun _ => rfl
    | cons entry entries ih =>
      intro hentries
      have hentry := hentries entry (List.mem_cons_self ..)
      have hstep : certifyEntry provider archive s!"active archive {archive.fileName}" ⟨∅, ∅⟩
          entry = .ok ⟨∅, ∅⟩ := by
        rw [certifyEntry, hvalid entry hentry, ok_bind_eq, hbulk entry hentry]
        rfl
      rw [List.foldlM_cons, hstep, ok_bind_eq]
      exact ih fun later hin => hentries later (List.mem_cons_of_mem _ hin)
  rw [certifyActiveArchive, hindex]
  simp only [hloop index.entries fun _ h => h, ok_bind_eq]
  refine validateExactArchiveTrailers_of_rows _ ?_ ?_
  · rw [hgraph, Finmap.rows_empty]
    rfl
  · rw [hcatalog, Finmap.rows_empty]
    rfl

theorem closedLength_replacementCalls_of_empty {source : TarArchiveReader} {index : SegmentIndex}
    {graph : ExpectedGraph} {catalog : ExpectedBinaryReferences}
    {reclaimable previouslyUnavailable : Finset SegmentIdentifier}
    {clock : SegmentIndexEntry → UInt64} {entries : List SegmentIndexEntry}
    (hcert : Certified source index graph catalog) (hgraph : source.segmentGraph = some ⟨[]⟩)
    (hcatalog : source.binaryReferences = some ⟨[]⟩) (hentries : index.entries.Perm entries) :
    closedLength (replacementCalls source index reclaimable previouslyUnavailable clock) =
      ((entries.filter fun entry => entry.segmentIdentifier ∉ reclaimable).map fun entry =>
        512 + blocks entry.size.toNat).sum + 2048 +
      (512 + blocks ((entries.filter fun entry =>
        entry.segmentIdentifier ∉ reclaimable).length * 33 + 16)) + 1024 := by
  obtain ⟨calls, hcalls⟩ : ∃ calls, calls =
    replacementCalls source index reclaimable previouslyUnavailable clock := ⟨_, rfl⟩
  have hperm : (partitionEntries index reclaimable).Perm
      (entries.filter fun entry => entry.segmentIdentifier ∉ reclaimable) :=
    ((List.perm_insertionSort _ index.entries).trans hentries).filter _
  have hwrites : writes calls = (partitionEntries index reclaimable).map
      (survivorWrite (certifiedSources source index reclaimable previouslyUnavailable) clock) := by
    rw [hcalls, replacementCalls, writes_copyCalls]
  have hregistrations : registrations calls = [] := by
    rw [hcalls, replacementCalls, registrations_copyCalls]
    simp [certifiedSources, fromArchive, hcatalog]
  have hsources : registeredSources (writes calls) = ∅ := by
    rw [Finset.eq_empty_iff_forall_notMem]
    intro segment hsegment
    obtain ⟨target, htarget⟩ :=
      Finset.nonempty_iff_ne_empty.mpr (mem_registeredSources.mp hsegment)
    obtain ⟨write, hwrite, -, hin⟩ := mem_registeredTargets.mp htarget
    rw [hwrites] at hwrite
    obtain ⟨entry, -, rfl⟩ := mem_map.mp hwrite
    simp [survivorWrite, certifiedSources, fromArchive, hgraph,
      SegmentGraph.references?] at hin
  have hbody : bodySize (writes calls) = ((entries.filter fun entry =>
      entry.segmentIdentifier ∉ reclaimable).map fun entry => 512 + blocks entry.size.toNat).sum := by
    rw [hwrites, bodySize, map_map, ← (hperm.map _).sum_eq]
    refine congrArg List.sum (List.map_congr_left fun entry hentry => ?_)
    obtain ⟨bytes, hbytes, hlength⟩ := exists_survivorData hcert hentry
    simp only [Function.comp_apply, survivorWrite, certifiedSources, hbytes, getD_some,
      hlength]
  have hcatalogSize : catalogSize (registrations calls) = 0 := by
    rw [hregistrations, catalogSize, registeredGenerations, List.map_nil, List.toFinset_nil,
      Finset.sum_empty]
  have hgraphSize : graphSize (writes calls) = 0 := by
    rw [graphSize, hsources, Finset.sum_empty]
  have hcount : (writes calls).length = (entries.filter fun entry =>
      entry.segmentIdentifier ∉ reclaimable).length := by
    rw [hwrites, length_map, hperm.length_eq]
  have hempty : 512 + blocks (0 + 16) = 1024 := rfl
  rw [← hcalls, closedLength, hcatalogSize, hgraphSize, hbody, hcount, hempty]

/-- A bulk segment without references, stamped as version 1 reads generations back. -/
def bulkSegment (seed size : Nat) : SegmentWrite :=
  ⟨0, ⟨UInt64.ofNat seed, 0xB000000000000000⟩, List.replicate size 0, ⟨0, 0, true⟩, [], []⟩

def twoBulkCalls : List ArchiveCall :=
  [.writeSegment (bulkSegment 1 3), .writeSegment (bulkSegment 2 5)]

theorem sweep_rewrite_exact_two_bulk : ∃ source index,
    certifyActiveArchive (fun identifier => .error (.segmentNotFound identifier)) source = .ok () ∧
      source.index = some index ∧
      SweepSucceeds source index {⟨1, 0xB000000000000000⟩} ∅ [source] "data00000b.tar"
        "data00000b.tar.cleaning.000" "data00000b.tar.cleaning.000" (fun _ => 0) ⟨0, 0, 0⟩ := by
  obtain ⟨writer, hrun⟩ : ∃ writer,
      (TarArchiveWriter.new "data00000a.tar").run twoBulkCalls = .ok writer :=
    run_ok_of_length (by rw [length_bodyBytes]; decide)
  obtain ⟨source, index, -, hindex, hholds⟩ :
      RoundTrips "data00000a.tar" twoBulkCalls
        (bodyBytes (writes twoBulkCalls) ++ writer.trailerBytes ⟨0, 0, 0⟩) :=
    roundTrips_of_length (represents_run hrun) (by decide) (by decide) (by decide) (by decide)
  have hentries : index.entries.Perm (writtenEntries twoBulkCalls) := hholds.entries
  have hgraph : source.segmentGraph = some ⟨[]⟩ := by
    have hsources : registeredSources (writes twoBulkCalls) = ∅ := by decide
    rw [hholds.graph, registeredGraph, hsources, Finset.sort_empty]
    rfl
  have hcatalog : source.binaryReferences = some ⟨[]⟩ := by
    have hgenerations : registeredGenerations (registrations twoBulkCalls) = ∅ := by decide
    rw [hholds.catalog, registeredCatalog, hgenerations, Finset.sort_empty]
    rfl
  have hcertificate : certifyActiveArchive (fun identifier => .error (.segmentNotFound identifier))
      source = .ok () := by
    refine certifyActiveArchive_of_bulk _ hindex hholds.valid ?_ hgraph hcatalog
    intro entry hentry
    have hbulk : ∀ entry ∈ writtenEntries twoBulkCalls,
        entry.segmentIdentifier.isDataSegment = false := by decide
    exact hbulk entry (hentries.mem_iff.mp hentry)
  refine ⟨source, index, hcertificate, hindex, ?_⟩
  refine (sweep_rewrite_exact_iff hcertificate hindex ?_).mpr ?_
  · have hkept : ∃ entry ∈ writtenEntries twoBulkCalls,
        entry.segmentIdentifier ∉ ({⟨1, 0xB000000000000000⟩} : Finset SegmentIdentifier) := by
      decide
    obtain ⟨entry, hentry, hkept⟩ := hkept
    exact ⟨entry, hentries.mem_iff.mpr hentry, hkept⟩
  · obtain ⟨found, graph, catalog, hcert⟩ := certified_of_certifyActiveArchive hcertificate
    obtain rfl : found = index := Option.some.inj (hcert.indexed.symm.trans hindex)
    rw [closedLength_replacementCalls_of_empty hcert hgraph hcatalog hentries]
    decide

/-! ## Past the limit

An index of version 1 spends 28 bytes on an entry and the replacement is always
written with version 2, which spends 33.  The replacement of an archive close to
the limit can so be longer than its source. -/

/-- An index entry in the layout of version 1. -/
def legacyIndexEntryBytes (entry : PendingIndexEntry) : Bytes :=
  identifierBytes entry.identifier ++ Bytes.be32 entry.dataOffset ++ Bytes.be32 entry.size ++
    TarArchiveWriter.int32Bytes entry.generation.generation

/-- Version 1 reads the generation back as full generation, of a compacted segment. -/
theorem encodesIndex_legacy {entries : List PendingIndexEntry}
    (h : ∀ entry ∈ entries, entry.generation.fullGeneration = entry.generation.generation ∧
      entry.generation.isCompacted = true) :
    EncodesIndex 1 indexVersion1Magic legacyIndexEntryBytes entries where
  magicNumber := .inl ⟨rfl, rfl⟩
  length := by
    intro entry _
    simp [legacyIndexEntryBytes, int32Bytes, indexEntrySize]
  decode := by
    intro entry hentry
    obtain ⟨hfull, hcompacted⟩ := h entry hentry
    obtain ⟨⟨high, low⟩, offset, size, ⟨number, full, compacted⟩⟩ := entry
    cases hfull
    cases hcompacted
    obtain ⟨bytes, hbytes⟩ : ∃ bytes, bytes =
      legacyIndexEntryBytes ⟨⟨high, low⟩, offset, size, ⟨number, number, true⟩⟩ := ⟨_, rfl⟩
    have h0 : bytes.drop 0 = Bytes.be64 high ++ (Bytes.be64 low ++ (Bytes.be32 offset ++
        (Bytes.be32 size ++ (int32Bytes number ++ [])))) := by
      rw [hbytes, List.drop_zero, legacyIndexEntryBytes, identifierBytes]
      simp only [append_assoc, List.append_nil]
    have h8 := Bytes.drop_be64 h0
    have h16 := Bytes.drop_be64 h8
    have h20 := Bytes.drop_be32 h16
    have h24 := Bytes.drop_be32 h20
    rw [← hbytes, decodeIndexEntry, Bytes.u64At_of_drop h0, Bytes.u64At_of_drop h8,
      Bytes.u32At_of_drop h16, Bytes.u32At_of_drop h20, toInt32_u32At h24]
    rfl

/-- The trailers behind the index entry of an archive. -/
def legacyIndexBytes (ws : List SegmentWrite) : Bytes :=
  entryHeader 0 "data00000a.tar.idx".utf8 (UInt64.ofNat (blocks (ws.length * 28 + 16))) ++
    List.replicate (blocks (ws.length * 28 + 16) - (ws.length * 28 + 16)) 0 ++
    (layout 0 ws).flatMap legacyIndexEntryBytes ++
    footerBytes ((layout 0 ws).flatMap legacyIndexEntryBytes) (layout 0 ws).length
      (blocks (ws.length * 28 + 16)) indexVersion1Magic ++
    List.replicate (2 * tarBlockSize) 0

/-- An archive with an index of version 1 and with empty graph and catalog. -/
def legacyArchive (ws : List SegmentWrite) : Bytes :=
  bodyBytes ws ++
    TarArchiveWriter.trailerEntryBytes 0 "data00000a.tar.brf"
      (TarArchiveWriter.trailerPayload [] 0 binaryReferencesVersion2Magic) ++
    TarArchiveWriter.trailerEntryBytes 0 "data00000a.tar.gph"
      (TarArchiveWriter.trailerPayload [] 0 graphMagic) ++ legacyIndexBytes ws

/-- The length of such an archive. -/
def legacyLength (ws : List SegmentWrite) : Nat :=
  bodySize ws + 2048 + (512 + blocks (ws.length * 28 + 16)) + 1024

section Legacy

variable {ws : List SegmentWrite} {name : String} {index : SegmentIndex}

/-- Writes that version 1 can describe, in the order of its index. -/
structure LegacyWrites (ws : List SegmentWrite) : Prop where
  nonempty : ws ≠ []
  content : ∀ write ∈ ws, write.content ≠ []
  generation : ∀ write ∈ ws, write.generation.fullGeneration = write.generation.generation ∧
    write.generation.isCompacted = true
  sorted : (ws.map SegmentWrite.identifier).Pairwise fun a b => signedOrderKey a < signedOrderKey b
  length : legacyLength ws ≤ 2 ^ 31 - 1

theorem LegacyWrites.bodySize_le (h : LegacyWrites ws) : bodySize ws ≤ 2 ^ 31 - 1 := by
  have := h.length
  unfold legacyLength at this
  omega

theorem LegacyWrites.encodes (h : LegacyWrites ws) :
    EncodesIndex 1 indexVersion1Magic legacyIndexEntryBytes (layout 0 ws) := by
  refine encodesIndex_legacy fun row hrow => ?_
  obtain ⟨before, write, after, hsplit, rfl⟩ := mem_layout hrow
  exact h.generation write (by rw [hsplit]; simp)

theorem LegacyWrites.length_index (h : LegacyWrites ws) :
    (legacyIndexBytes ws).length = 512 + blocks (ws.length * 28 + 16) + 1024 := by
  have hentries := h.encodes.length_flatMap
  have hle := le_blocks (ws.length * 28 + 16)
  have hsize : indexEntrySize 1 = 28 := rfl
  simp only [legacyIndexBytes, List.length_append, length_entryHeader, List.length_replicate,
    length_footerBytes, hentries, length_layout, hsize, tarBlockSize]
  omega

theorem length_emptyTrailer (name : String) (magic : UInt32) :
    (trailerEntryBytes 0 name
      (trailerPayload [] 0 magic)).length = 1024 := by
  rw [length_trailerEntryBytes, length_trailerPayload]
  rfl

theorem LegacyWrites.length_archive (h : LegacyWrites ws) :
    (legacyArchive ws).length = legacyLength ws := by
  simp only [legacyArchive, List.length_append, length_bodyBytes, length_emptyTrailer,
    h.length_index, legacyLength]
  omega

theorem LegacyWrites.validExtent (h : LegacyWrites ws) {row : PendingIndexEntry}
    (hrow : row ∈ layout 0 ws) : row.indexed.ValidExtent := by
  obtain ⟨before, write, after, rfl, rfl⟩ := mem_layout hrow
  rw [Nat.zero_add, length_bodyBytes]
  exact validExtent_indexRow (h.content write (by simp)) h.bodySize_le

/-- The archive opens through its index of version 1. -/
theorem LegacyWrites.opens (h : LegacyWrites ws) (name : String) :
    ∃ index, TarArchiveReader.openFile name (legacyArchive ws) =
        .ok ⟨name, legacyArchive ws, .indexed index⟩ ∧ index.version = 1 ∧
      index.entries = (layout 0 ws).map PendingIndexEntry.indexed := by
  obtain ⟨file, hfile⟩ : ∃ file, file = legacyArchive ws := ⟨_, rfl⟩
  have hfilelen : file.length = legacyLength ws := by
    rw [hfile, h.length_archive]
  have hparts : file = (bodyBytes ws ++
      trailerEntryBytes 0 "data00000a.tar.brf"
        (trailerPayload [] 0 binaryReferencesVersion2Magic) ++
      trailerEntryBytes 0 "data00000a.tar.gph"
        (trailerPayload [] 0 graphMagic) ++
      entryHeader 0 "data00000a.tar.idx".utf8 (UInt64.ofNat (blocks (ws.length * 28 + 16))) ++
      List.replicate (blocks (ws.length * 28 + 16) - (ws.length * 28 + 16)) 0) ++
      (layout 0 ws).flatMap legacyIndexEntryBytes ++
      footerBytes ((layout 0 ws).flatMap legacyIndexEntryBytes) (layout 0 ws).length
        (blocks (ws.length * 28 + 16)) indexVersion1Magic ++
      List.replicate (2 * tarBlockSize) 0 := by
    rw [hfile, legacyArchive, legacyIndexBytes]
    simp only [append_assoc]
  have hbody := bodySize_mod ws
  have hmod := blocks_mod (ws.length * 28 + 16)
  have hle := le_blocks (ws.length * 28 + 16)
  have hone : 1 ≤ ws.length := List.length_pos_iff.mpr h.nonempty
  have hshape : validateArchiveShape file.length = .ok () := by
    have hlength := h.length
    rw [hfilelen, validateArchiveShape, if_neg ?_, if_neg ?_, if_neg (Nat.not_lt.mpr hlength)]
    · rw [legacyLength]
      omega
    · rw [legacyLength]
      omega
  have hsorted : Search.StrictlySorted SegmentIndexEntry.key
      ((layout 0 ws).map PendingIndexEntry.indexed) := by
    have hkeys := h.sorted
    rw [← layout_map_identifier 0, List.pairwise_map] at hkeys
    exact List.pairwise_map.mpr hkeys
  obtain ⟨index, hparse, hversion, hentries⟩ := parseSegmentIndex_of_append h.encodes hparts hshape
    (by rw [length_layout]; exact hone) (by rw [length_layout]; exact hle) hmod
    (by rw [hfilelen, legacyLength]; omega) hsorted (fun row hrow => h.validExtent hrow)
  refine ⟨index, ?_, hversion, hentries⟩
  have hpos : file.length ≠ 0 := by
    rw [hfilelen, legacyLength]
    omega
  rw [← hfile, TarArchiveReader.openFile, if_neg hpos, hparse]

theorem LegacyWrites.diskSize (hversion : index.version = 1)
    (hentries : index.entries = (layout 0 ws).map PendingIndexEntry.indexed) :
    indexEntryDiskSize index = 512 + blocks (ws.length * 28 + 16) := by
  rw [indexEntryDiskSize, hversion, hentries, length_map, length_layout]
  rfl

section

variable (h : LegacyWrites ws) (hversion : index.version = 1)
  (hentries : index.entries = (layout 0 ws).map PendingIndexEntry.indexed)
include h hversion hentries

theorem LegacyWrites.segmentGraph :
    TarArchiveReader.segmentGraph ⟨name, legacyArchive ws, .indexed index⟩ = some ⟨[]⟩ := by
  obtain ⟨payload, hpayload⟩ : ∃ payload, payload =
    trailerPayload [] 0 graphMagic := ⟨_, rfl⟩
  have hparts : legacyArchive ws = (bodyBytes ws ++
      trailerEntryBytes 0 "data00000a.tar.brf"
        (trailerPayload [] 0 binaryReferencesVersion2Magic) ++
      entryHeader 0 "data00000a.tar.gph".utf8
        (UInt64.ofNat (payload.length + paddingSize payload.length)) ++
      List.replicate (paddingSize payload.length) 0) ++ payload ++ legacyIndexBytes ws := by
    rw [legacyArchive, ← hpayload]
    simp only [trailerEntryBytes, append_assoc]
  rw [hpayload] at hparts
  have hlimit : (legacyArchive ws).length < 2 ^ 31 := by
    have := h.length
    rw [h.length_archive]
    omega
  have hrest : (legacyIndexBytes ws).length = terminatingZeroBlocks + indexEntryDiskSize index := by
    rw [h.length_index, LegacyWrites.diskSize hversion hentries, terminatingZeroBlocks,
      Nat.add_comm]
  have hparse : parseSegmentGraph (legacyArchive ws) index =
      some ⟨([] : List (SegmentIdentifier × Finset SegmentIdentifier)).map graphRow⟩ :=
    parseSegmentGraph_of_append hparts hrest (by simp) hlimit
  exact hparse

theorem LegacyWrites.binaryReferences :
    TarArchiveReader.binaryReferences ⟨name, legacyArchive ws, .indexed index⟩ = some ⟨[]⟩ := by
  have hgraph : TarArchiveReader.segmentGraph ⟨name, legacyArchive ws, .indexed index⟩ = some ⟨[]⟩ :=
    h.segmentGraph hversion hentries
  obtain ⟨payload, hpayload⟩ : ∃ payload, payload =
    trailerPayload [] 0 binaryReferencesVersion2Magic := ⟨_, rfl⟩
  have hparts : legacyArchive ws = (bodyBytes ws ++ entryHeader 0 "data00000a.tar.brf".utf8
        (UInt64.ofNat (payload.length + paddingSize payload.length)) ++
      List.replicate (paddingSize payload.length) 0) ++ payload ++
      (trailerEntryBytes 0 "data00000a.tar.gph"
        (trailerPayload [] 0 graphMagic) ++ legacyIndexBytes ws) := by
    rw [legacyArchive, ← hpayload]
    simp only [trailerEntryBytes, append_assoc]
  rw [hpayload] at hparts
  have hlength := h.length
  have harchive := h.length_archive
  have hdisk := LegacyWrites.diskSize hversion hentries
  have hempty : 512 + ((⟨[]⟩ : SegmentGraph).diskStructureSize + 511) / 512 * 512 = 1024 := rfl
  have hfits : terminatingZeroBlocks + indexEntryDiskSize index +
      (512 + ((⟨[]⟩ : SegmentGraph).diskStructureSize + 511) / 512 * 512) ≤
      (legacyArchive ws).length := by
    rw [harchive, hdisk, hempty, legacyLength, terminatingZeroBlocks]
    omega
  have hparse : parseBinaryReferences (legacyArchive ws) ((legacyArchive ws).length -
      (terminatingZeroBlocks + indexEntryDiskSize index +
        (512 + ((⟨[]⟩ : SegmentGraph).diskStructureSize + 511) / 512 * 512))) =
      some ⟨([] : List (GarbageCollectionGeneration × SegmentReferences)).map catalogGeneration⟩ := by
    have hrest : (trailerEntryBytes 0 "data00000a.tar.gph"
        (trailerPayload [] 0 graphMagic) ++ legacyIndexBytes ws).length =
        terminatingZeroBlocks + indexEntryDiskSize index +
          (512 + ((⟨[]⟩ : SegmentGraph).diskStructureSize + 511) / 512 * 512) := by
      rw [hempty, List.length_append, length_emptyTrailer, h.length_index, hdisk,
        terminatingZeroBlocks, Nat.add_comm 1024 (_ + 1024), Nat.add_comm 1024 (512 + _)]
    refine parseBinaryReferences_of_append hparts ?_ (by simp) (by omega)
    rw [hrest, Nat.sub_add_cancel hfits]
  have hindex : TarArchiveReader.index ⟨name, legacyArchive ws, .indexed index⟩ = some index := rfl
  simp only [TarArchiveReader.binaryReferences, hindex, hgraph, Option.bind_eq_bind,
    Option.bind_some]
  rw [← Option.bind_eq_bind, guard_true hfits, hparse]
  rfl

end

/-- Every entry of the archive is valid. -/
theorem LegacyWrites.valid (h : LegacyWrites ws)
    (hentries : index.entries = (layout 0 ws).map PendingIndexEntry.indexed)
    {entry : SegmentIndexEntry} (hentry : entry ∈ index.entries) :
    TarArchiveReader.validateIndexedSegmentEntry ⟨name, legacyArchive ws, .indexed index⟩
      entry.segmentIdentifier = .ok () := by
  have hmem := hentry
  rw [hentries] at hmem
  obtain ⟨row, hrow, rfl⟩ := mem_map.mp hmem
  obtain ⟨before, write, after, hsplit, rfl⟩ := mem_layout hrow
  rw [Nat.zero_add, length_bodyBytes] at hentry
  have hlimit := h.bodySize_le
  rw [hsplit] at hlimit
  have hfound : index.findEntry write.identifier = some (write.indexRow (bodySize before)).indexed :=
    SegmentIndex.findEntry_eq_some_iff.mpr ⟨hentry, rfl⟩
  have hfile : legacyArchive ws = bodyBytes (before ++ write :: after) ++
      (trailerEntryBytes 0 "data00000a.tar.brf"
        (trailerPayload [] 0 binaryReferencesVersion2Magic) ++
      trailerEntryBytes 0 "data00000a.tar.gph"
        (trailerPayload [] 0 graphMagic) ++ legacyIndexBytes ws) := by
    rw [← hsplit, legacyArchive]
    simp only [append_assoc]
  exact validateIndexedSegmentEntry_of_mem hfile hlimit hfound

end Legacy

/-- Full bulk segments, and a small one that the sweep reclaims. -/
def crowdedWrites : List SegmentWrite :=
  ((List.range 8175).map fun seed => bulkSegment seed 262144) ++ [bulkSegment 8175 1]

def smallBulkSegment : SegmentIdentifier := ⟨8175, 0xB000000000000000⟩

theorem isDataSegment_bulkSegment (seed size : Nat) :
    (bulkSegment seed size).identifier.isDataSegment = false := by
  have hnibble : (0xB000000000000000 : UInt64).toNat / 2 ^ 60 ≠ 0xA := by decide
  rw [SegmentIdentifier.isDataSegment, SegmentIdentifier.kindNibble, bulkSegment]
  exact beq_eq_false_iff_ne.mpr hnibble

theorem length_bulkSegment (seed size : Nat) : (bulkSegment seed size).content.length = size :=
  List.length_replicate

theorem mem_crowdedWrites {write : SegmentWrite} (h : write ∈ crowdedWrites) :
    ∃ seed size, seed ≤ 8175 ∧ 1 ≤ size ∧ size ≤ 262144 ∧ write = bulkSegment seed size := by
  rcases List.mem_append.mp h with hfull | hsmall
  · obtain ⟨seed, hseed, rfl⟩ := mem_map.mp hfull
    exact ⟨seed, 262144, Nat.le_of_lt (mem_range.mp hseed), by decide, le_rfl, rfl⟩
  · rw [List.mem_singleton] at hsmall
    exact ⟨8175, 1, le_rfl, le_rfl, by decide, hsmall⟩

theorem bodySize_bulkSegments (n size : Nat) :
    bodySize ((List.range n).map fun seed => bulkSegment seed size) = n * (512 + blocks size) := by
  induction n with
  | zero => simp [bodySize]
  | succ n ih =>
    rw [List.range_succ, List.map_append, bodySize_append, ih, List.map_singleton, bodySize_cons,
      length_bulkSegment, Nat.add_mul, Nat.one_mul]
    rfl

theorem signedOrderKey_bulkSegment {a b sizeA sizeB : Nat} (hab : a < b) (hb : b ≤ 8175) :
    signedOrderKey (bulkSegment a sizeA).identifier <
      signedOrderKey (bulkSegment b sizeB).identifier := by
  have hword : ∀ n : Nat, n ≤ 8175 → (UInt64.ofNat n).toInt64.toInt = n := by
    intro n hn
    have htoNat : (UInt64.ofNat n).toNat = n := by
      rw [UInt64.toNat_ofNat']
      omega
    rw [← Int64.toInt_toBitVec, UInt64.toBitVec_toInt64, BitVec.toInt_eq_toNat_cond,
      UInt64.toNat_toBitVec, htoNat, if_pos (by omega)]
  refine Prod.Lex.toLex_lt_toLex.mpr (.inl ?_)
  change (UInt64.ofNat a).toInt64.toInt < (UInt64.ofNat b).toInt64.toInt
  rw [hword a (by omega), hword b hb]
  exact_mod_cast hab

theorem legacyWrites_crowded : LegacyWrites crowdedWrites where
  nonempty := by
    rw [crowdedWrites]
    exact List.append_ne_nil_of_right_ne_nil _ (List.cons_ne_nil _ _)
  content := by
    intro write hwrite
    obtain ⟨seed, size, -, hsize, -, rfl⟩ := mem_crowdedWrites hwrite
    exact List.ne_nil_of_length_pos (by rw [length_bulkSegment]; exact hsize)
  generation := by
    intro write hwrite
    obtain ⟨seed, size, -, -, -, rfl⟩ := mem_crowdedWrites hwrite
    exact ⟨rfl, rfl⟩
  sorted := by
    rw [List.pairwise_map, crowdedWrites]
    refine List.pairwise_append.mpr ⟨?_, List.pairwise_singleton _ _, ?_⟩
    · refine List.pairwise_map.mpr (List.pairwise_lt_range.imp_of_mem ?_)
      intro a b _ hb hab
      exact signedOrderKey_bulkSegment hab (Nat.le_of_lt (mem_range.mp hb))
    · intro write hfull small hsmall
      obtain ⟨seed, hseed, rfl⟩ := mem_map.mp hfull
      rw [List.mem_singleton] at hsmall
      subst hsmall
      exact signedOrderKey_bulkSegment (mem_range.mp hseed) le_rfl
  length := by
    have hsmall : bodySize [bulkSegment 8175 1] = 1024 := by
      rw [bodySize_cons, length_bulkSegment]
      rfl
    have hcount : crowdedWrites.length = 8176 := by
      rw [crowdedWrites, List.length_append, length_map, List.length_range,
        List.length_singleton]
    rw [legacyLength, hcount, crowdedWrites, bodySize_append, bodySize_bulkSegments, hsmall]
    decide

/-- The rows of the layout have the sizes of the writes. -/
theorem sum_layout (offset : Nat) {ws : List SegmentWrite}
    (hsize : ∀ write ∈ ws, write.content.length < 2 ^ 32) :
    (((layout offset ws).map PendingIndexEntry.indexed).map fun entry =>
      512 + blocks entry.size.toNat).sum = bodySize ws := by
  induction ws generalizing offset with
  | nil => rfl
  | cons write ws ih =>
    have hword : (UInt32.ofNat write.content.length).toNat = write.content.length := by
      rw [UInt32.toNat_ofNat']
      exact Nat.mod_eq_of_lt (hsize write (List.mem_cons_self ..))
    rw [layout, map_cons, map_cons, List.sum_cons,
      ih _ fun later hin => hsize later (List.mem_cons_of_mem _ hin), bodySize_cons]
    simp only [PendingIndexEntry.indexed, SegmentWrite.indexRow, hword]

/-- The entries that the sweep of the crowded archive keeps are the full segments. -/
theorem filter_crowded :
    ((layout 0 crowdedWrites).map PendingIndexEntry.indexed).filter
      (fun entry => entry.segmentIdentifier ∉ ({smallBulkSegment} : Finset SegmentIdentifier)) =
    (layout 0 ((List.range 8175).map fun seed => bulkSegment seed 262144)).map
      PendingIndexEntry.indexed := by
  rw [crowdedWrites, layout_append, List.map_append, List.filter_append]
  have hfull : ((layout 0 ((List.range 8175).map fun seed => bulkSegment seed 262144)).map
      PendingIndexEntry.indexed).filter (fun entry =>
        entry.segmentIdentifier ∉ ({smallBulkSegment} : Finset SegmentIdentifier)) =
      (layout 0 ((List.range 8175).map fun seed => bulkSegment seed 262144)).map
        PendingIndexEntry.indexed := by
    rw [List.filter_eq_self]
    intro entry hentry
    obtain ⟨row, hrow, rfl⟩ := mem_map.mp hentry
    obtain ⟨before, write, after, hsplit, rfl⟩ := mem_layout hrow
    have hmem : write ∈ (List.range 8175).map fun seed => bulkSegment seed 262144 := by
      rw [hsplit]
      simp
    obtain ⟨seed, hseed, rfl⟩ := mem_map.mp hmem
    rw [decide_eq_true_eq, Finset.mem_singleton]
    intro heq
    have hword := congrArg (fun s : SegmentIdentifier => s.mostSignificantBits.toNat) heq
    have hsmall : smallBulkSegment.mostSignificantBits.toNat = 8175 := rfl
    have hfirst : (bulkSegment seed 262144).identifier.mostSignificantBits.toNat = seed % 2 ^ 64 :=
      UInt64.toNat_ofNat'
    rw [mem_range] at hseed
    simp only [PendingIndexEntry.indexed, SegmentWrite.indexRow, hsmall, hfirst] at hword
    omega
  have hsmall : ∀ offset, ((layout offset [bulkSegment 8175 1]).map
      PendingIndexEntry.indexed).filter (fun entry =>
        entry.segmentIdentifier ∉ ({smallBulkSegment} : Finset SegmentIdentifier)) = [] := by
    intro offset
    rw [List.filter_eq_nil_iff]
    intro entry hentry
    obtain ⟨row, hrow, rfl⟩ := mem_map.mp hentry
    rw [layout, layout, List.mem_singleton] at hrow
    rw [hrow, decide_eq_true_eq, not_not, Finset.mem_singleton]
    rfl
  rw [hfull, hsmall, List.append_nil]

/-- An archive with an index of version 1 that a sweep cannot rewrite: the replacement
without its small segment closes past the limit of the reader. -/
theorem crowded_sweep_fails : ∃ source index,
    TarArchiveReader.openFile "data00000a.tar" (legacyArchive crowdedWrites) = .ok source ∧
      certifyActiveArchive (fun identifier => .error (.segmentNotFound identifier)) source = .ok () ∧
      source.index = some index ∧
      (∃ entry ∈ index.entries, entry.segmentIdentifier ∉
        ({smallBulkSegment} : Finset SegmentIdentifier)) ∧
      ¬ SweepSucceeds source index {smallBulkSegment} ∅ [source] "data00000b.tar"
        "data00000b.tar.cleaning.000" "data00000b.tar.cleaning.000" (fun _ => 0) ⟨0, 0, 0⟩ := by
  obtain ⟨index, hopen, hversion, hentries⟩ := legacyWrites_crowded.opens "data00000a.tar"
  obtain ⟨source, hsource⟩ : ∃ source : TarArchiveReader, source =
    ⟨"data00000a.tar", legacyArchive crowdedWrites, .indexed index⟩ := ⟨_, rfl⟩
  have hindex : source.index = some index := by
    rw [hsource]
    rfl
  have hgraph : source.segmentGraph = some ⟨[]⟩ := by
    rw [hsource]
    exact legacyWrites_crowded.segmentGraph hversion hentries
  have hcatalog : source.binaryReferences = some ⟨[]⟩ := by
    rw [hsource]
    exact legacyWrites_crowded.binaryReferences hversion hentries
  have hcertificate : certifyActiveArchive (fun identifier => .error (.segmentNotFound identifier))
      source = .ok () := by
    refine certifyActiveArchive_of_bulk _ hindex ?_ ?_ hgraph hcatalog
    · intro entry hentry
      rw [hsource]
      exact legacyWrites_crowded.valid hentries hentry
    · intro entry hentry
      rw [hentries] at hentry
      obtain ⟨row, hrow, rfl⟩ := List.mem_map.mp hentry
      obtain ⟨before, write, after, hsplit, rfl⟩ := mem_layout hrow
      have hwrite : write ∈ crowdedWrites := by
        rw [hsplit]
        simp
      obtain ⟨seed, size, -, -, -, rfl⟩ := mem_crowdedWrites hwrite
      exact isDataSegment_bulkSegment seed size
  obtain ⟨found, graph, catalog, hcert⟩ := certified_of_certifyActiveArchive hcertificate
  obtain rfl : found = index := Option.some.inj (hcert.indexed.symm.trans hindex)
  have hkept := filter_crowded
  rw [← hentries] at hkept
  refine ⟨source, found, by rw [hsource]; exact hopen, hcertificate, hindex, ?_, ?_⟩
  · have hmem : ∃ entry, entry ∈ found.entries.filter (fun entry => entry.segmentIdentifier ∉
        ({smallBulkSegment} : Finset SegmentIdentifier)) := by
      rw [hkept]
      refine List.exists_mem_of_length_pos ?_
      rw [List.length_map, length_layout, List.length_map, List.length_range]
      decide
    obtain ⟨entry, hentry⟩ := hmem
    rw [List.mem_filter, decide_eq_true_eq] at hentry
    exact ⟨entry, hentry⟩
  · refine not_sweepSucceeds_of_length hcert ?_
    have hcontent : ∀ write ∈ (List.range 8175).map fun seed => bulkSegment seed 262144,
        write.content.length < 2 ^ 32 := by
      intro write hwrite
      obtain ⟨seed, -, rfl⟩ := List.mem_map.mp hwrite
      rw [length_bulkSegment]
      decide
    rw [closedLength_replacementCalls_of_empty hcert hgraph hcatalog (List.Perm.refl _), hkept,
      sum_layout 0 hcontent, bodySize_bulkSegments, List.length_map, length_layout, List.length_map,
      List.length_range]
    decide

end Froe
