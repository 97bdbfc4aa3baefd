import Froe.Tar.TrailerRoundTrip
import Mathlib.Algebra.BigOperators.Group.Finset.Basic
import Mathlib.Algebra.Order.BigOperators.Group.Finset

/-!
# Closing and reopening an archive

What a sequence of writer calls registers, read off the calls alone, and the
invariant that ties the state of the writer to it (`Represents`).  A closed
archive is then a concatenation of entries whose lengths are known, and opening
it gives back what was registered as long as the reader accepts its length.
The limit the writer checks is on the segment entries only: the trailers can
carry a closed archive past the limit of the reader.
-/

namespace Froe

open List (append_assoc length_append map_map mem_map)

open TarArchiveWriter
open TarArchiveReader (certifiedEntryName indexedEntryHeader openFile segmentData)
open PendingIndexEntry (indexed)

/-! ## What a sequence of calls registers -/

/-- The segment that a call writes. -/
def ArchiveCall.write? : ArchiveCall → Option SegmentWrite
  | .writeSegment write => some write
  | .addBinaryReferences .. => none

/-- The segments that calls write. -/
def writes (calls : List ArchiveCall) : List SegmentWrite := calls.filterMap ArchiveCall.write?

/-- The targets of a source. -/
def registeredTargets (ws : List SegmentWrite) (source : SegmentIdentifier) :
    Finset SegmentIdentifier :=
  ((ws.filter fun write => write.identifier = source).flatMap
    SegmentWrite.referencedSegments).toFinset

/-- The sources of graph edges. -/
def registeredSources (ws : List SegmentWrite) : Finset SegmentIdentifier :=
  ((ws.filter fun write => write.referencedSegments ≠ []).map SegmentWrite.identifier).toFinset

/-- A registration of binary references: generation, segment and references. -/
structure Registration where
  generation : GarbageCollectionGeneration
  source : SegmentIdentifier
  references : List String
deriving DecidableEq

/-- The registration a call makes.  A write without references makes none. -/
def ArchiveCall.registration? : ArchiveCall → Option Registration
  | .writeSegment write =>
    if write.binaryReferenceIdentifiers.isEmpty then none
    else some ⟨write.generation, write.identifier, write.binaryReferenceIdentifiers⟩
  | .addBinaryReferences generation source references => some ⟨generation, source, references⟩

/-- The references that calls register. -/
def registrations (calls : List ArchiveCall) : List Registration :=
  calls.filterMap ArchiveCall.registration?

/-- The catalogued generations. -/
def registeredGenerations (rs : List Registration) : Finset GarbageCollectionGeneration :=
  (rs.map Registration.generation).toFinset

/-- The segments catalogued under a generation. -/
def registeredSegments (rs : List Registration) (generation : GarbageCollectionGeneration) :
    Finset SegmentIdentifier :=
  ((rs.filter fun r => r.generation = generation).map Registration.source).toFinset

/-- The references catalogued for a segment under a generation. -/
def registeredReferences (rs : List Registration) (generation : GarbageCollectionGeneration)
    (source : SegmentIdentifier) : Finset String :=
  ((rs.filter fun r => r.generation = generation ∧ r.source = source).flatMap
    Registration.references).toFinset

variable {source : SegmentIdentifier} {generation : GarbageCollectionGeneration}
  {next : TarArchiveWriter}

theorem mem_registeredTargets {ws : List SegmentWrite} {target : SegmentIdentifier} :
    target ∈ registeredTargets ws source ↔
      ∃ write ∈ ws, write.identifier = source ∧ target ∈ write.referencedSegments := by
  simp [registeredTargets, and_assoc]

theorem mem_registeredSources {ws : List SegmentWrite} :
    source ∈ registeredSources ws ↔ registeredTargets ws source ≠ ∅ := by
  rw [← Finset.nonempty_iff_ne_empty, Finset.Nonempty]
  simp only [mem_registeredTargets, registeredSources, List.mem_toFinset, mem_map,
    List.mem_filter, decide_eq_true_eq]
  constructor
  · rintro ⟨write, ⟨hwrite, hne⟩, hsource⟩
    obtain ⟨target, htarget⟩ := List.exists_mem_of_ne_nil _ hne
    exact ⟨target, write, hwrite, hsource, htarget⟩
  · rintro ⟨target, write, hwrite, hsource, htarget⟩
    exact ⟨write, ⟨hwrite, List.ne_nil_of_mem htarget⟩, hsource⟩

theorem mem_registeredGenerations {rs : List Registration} :
    generation ∈ registeredGenerations rs ↔ ∃ r ∈ rs, r.generation = generation := by
  simp [registeredGenerations]

theorem mem_registeredSegments {rs : List Registration} :
    source ∈ registeredSegments rs generation ↔
      ∃ r ∈ rs, r.generation = generation ∧ r.source = source := by
  simp [registeredSegments, and_assoc]

theorem mem_registeredReferences {rs : List Registration} {reference : String} :
    reference ∈ registeredReferences rs generation source ↔
      ∃ r ∈ rs, r.generation = generation ∧ r.source = source ∧ reference ∈ r.references := by
  simp [registeredReferences, and_assoc]

/-! ## Where the segments stand -/

/-- The entry of a segment. -/
def SegmentWrite.entryBytes (write : SegmentWrite) : Bytes :=
  segmentEntryBytes write.seconds write.identifier write.content

/-- All entries. -/
def bodyBytes (ws : List SegmentWrite) : Bytes := ws.flatMap SegmentWrite.entryBytes

/-- The index row of a write whose entry starts at `offset`. -/
def SegmentWrite.indexRow (write : SegmentWrite) (offset : Nat) : PendingIndexEntry :=
  ⟨write.identifier, UInt32.ofNat (offset + tarBlockSize), UInt32.ofNat write.content.length,
    write.generation⟩

/-- The index rows of writes laid out from `offset` on. -/
def layout : Nat → List SegmentWrite → List PendingIndexEntry
  | _, [] => []
  | offset, write :: ws => write.indexRow offset :: layout (offset + write.entryBytes.length) ws

/-- The size of a payload in whole blocks. -/
def blocks (size : Nat) : Nat := (size + 511) / 512 * 512

variable (offset : Nat) (write : SegmentWrite) (ws vs : List SegmentWrite)

@[simp] theorem length_entryBytes :
    write.entryBytes.length = 512 + blocks write.content.length := by
  rw [SegmentWrite.entryBytes, segmentEntryBytes]
  simp only [length_append, length_entryHeader, List.length_replicate, blocks]
  rw [Nat.add_assoc, add_paddingSize]

theorem bodyBytes_append :
    bodyBytes (ws ++ vs) = bodyBytes ws ++ bodyBytes vs := by
  simp [bodyBytes]

theorem length_bodyBytes_cons :
    (bodyBytes (write :: ws)).length = write.entryBytes.length + (bodyBytes ws).length := by
  simp [bodyBytes]

theorem layout_append :
    layout offset (ws ++ vs) = layout offset ws ++ layout (offset + (bodyBytes ws).length) vs := by
  induction ws generalizing offset with
  | nil => rfl
  | cons write ws ih =>
    rw [List.cons_append, layout, layout, ih, List.cons_append, length_bodyBytes_cons,
      Nat.add_assoc]

theorem length_layout :
    (layout offset ws).length = ws.length := by
  induction ws generalizing offset with
  | nil => rfl
  | cons write ws ih => rw [layout, List.length_cons, ih, List.length_cons]

/-- Every row of the layout belongs to a write, and stands behind the writes before it. -/
theorem mem_layout {offset : Nat} {ws : List SegmentWrite} {row : PendingIndexEntry}
    (h : row ∈ layout offset ws) :
    ∃ before write after, ws = before ++ write :: after ∧
      row = write.indexRow (offset + (bodyBytes before).length) := by
  induction ws generalizing offset with
  | nil => cases h
  | cons write ws ih =>
    rcases List.mem_cons.mp h with rfl | hrest
    · exact ⟨[], write, ws, rfl, rfl⟩
    · obtain ⟨before, later, after, rfl, rfl⟩ := ih hrest
      refine ⟨write :: before, later, after, rfl, ?_⟩
      rw [length_bodyBytes_cons, Nat.add_assoc]

theorem layout_map_identifier :
    (layout offset ws).map PendingIndexEntry.identifier = ws.map SegmentWrite.identifier := by
  induction ws generalizing offset with
  | nil => rfl
  | cons write ws ih => rw [layout, List.map_cons, ih, List.map_cons]; rfl

/-! ## The maps behind the trailers -/

/-- The edge map holds exactly the registered edges. -/
def EdgesMatch (edges : GraphEdges) (ws : List SegmentWrite) : Prop :=
  ∀ source, edges.lookup source =
    if registeredTargets ws source = ∅ then none else some (registeredTargets ws source)

/-- The catalog map holds exactly the registered references. -/
structure CatalogMatches (catalog : BinaryReferencesByGeneration) (rs : List Registration) :
    Prop where
  generations : ∀ generation, catalog.lookup generation = none ↔
    generation ∉ registeredGenerations rs
  references : ∀ generation segments source, catalog.lookup generation = some segments →
    segments.lookup source = if source ∈ registeredSegments rs generation then
      some (registeredReferences rs generation source) else none

theorem registeredTargets_append (write : SegmentWrite) (source : SegmentIdentifier) :
    registeredTargets (ws ++ [write]) source = if write.identifier = source then
      registeredTargets ws source ∪ write.referencedSegments.toFinset
    else registeredTargets ws source := by
  ext target
  split <;> simp_all [mem_registeredTargets, or_and_right, exists_or]

theorem EdgesMatch.append {edges : GraphEdges} {ws : List SegmentWrite} (h : EdgesMatch edges ws)
    (write : SegmentWrite) :
    EdgesMatch (if write.referencedSegments.isEmpty then edges
      else edges.upsert write.identifier ∅ (· ∪ write.referencedSegments.toFinset))
      (ws ++ [write]) := by
  intro source
  rw [registeredTargets_append]
  by_cases hnone : write.referencedSegments = []
  · simp only [hnone, List.isEmpty_nil, if_true, List.toFinset_nil, Finset.union_empty, ite_self]
    exact h source
  rw [if_neg (by simpa using hnone), Finmap.lookup_upsert]
  have hnonempty : (registeredTargets ws source ∪ write.referencedSegments.toFinset) ≠ ∅ := by
    obtain ⟨target, htarget⟩ := List.exists_mem_of_ne_nil _ hnone
    exact Finset.ne_empty_of_mem (Finset.mem_union_right _ (List.mem_toFinset.mpr htarget))
  by_cases hsource : source = write.identifier
  · have hold : (edges.lookup source).getD ∅ = registeredTargets ws source := by
      rw [h source]
      split <;> simp_all
    rw [if_pos hsource, if_pos hsource.symm, if_neg hnonempty, ← hsource, hold]
  · rw [if_neg hsource, if_neg (Ne.symm hsource)]
    exact h source

theorem CatalogMatches.append {catalog : BinaryReferencesByGeneration} {rs : List Registration}
    (h : CatalogMatches catalog rs) (r : Registration) :
    CatalogMatches (insertReferences catalog r.generation r.source r.references) (rs ++ [r]) := by
  -- what the generation of the new registration held before
  have hold : ∀ source, ((catalog.lookup r.generation).getD ∅).lookup source =
      if source ∈ registeredSegments rs r.generation then
        some (registeredReferences rs r.generation source) else none := by
    intro source
    cases hlookup : catalog.lookup r.generation with
    | some segments => exact h.references r.generation segments source hlookup
    | none =>
      have hno := (h.generations r.generation).mp hlookup
      have hempty : source ∉ registeredSegments rs r.generation := by
        rw [mem_registeredSegments]
        rintro ⟨r', hr', hgeneration, -⟩
        exact hno (mem_registeredGenerations.mpr ⟨r', hr', hgeneration⟩)
      rw [if_neg hempty]
      rfl
  refine ⟨?_, ?_⟩
  · intro generation
    rw [insertReferences, Finmap.lookup_upsert]
    by_cases hg : generation = r.generation
    · have hin : generation ∈ registeredGenerations (rs ++ [r]) :=
        mem_registeredGenerations.mpr ⟨r, by simp, hg.symm⟩
      rw [if_pos hg]
      simp [hin]
    · rw [if_neg hg, h.generations generation]
      simp [mem_registeredGenerations, Ne.symm hg]
  · intro generation segments source hsegments
    rw [insertReferences, Finmap.lookup_upsert] at hsegments
    by_cases hg : generation = r.generation
    · subst hg
      rw [if_pos rfl] at hsegments
      cases hsegments
      rw [Finmap.lookup_upsert, hold, hold]
      by_cases hs : source = r.source
      · subst hs
        have hin : r.source ∈ registeredSegments (rs ++ [r]) r.generation :=
          mem_registeredSegments.mpr ⟨r, by simp, rfl, rfl⟩
        rw [if_pos rfl, if_pos hin]
        congr 1
        ext reference
        have hrefs : reference ∈ registeredReferences (rs ++ [r]) r.generation r.source ↔
            reference ∈ registeredReferences rs r.generation r.source ∨
              reference ∈ r.references := by
          simp [mem_registeredReferences, or_and_right, exists_or]
        rw [hrefs, Finset.mem_union, List.mem_toFinset]
        by_cases hmem : r.source ∈ registeredSegments rs r.generation
        · rw [if_pos hmem, Option.getD_some]
        · have hnone : reference ∉ registeredReferences rs r.generation r.source := by
            rw [mem_registeredReferences]
            rintro ⟨r', hr', hgeneration, hsource, -⟩
            exact hmem (mem_registeredSegments.mpr ⟨r', hr', hgeneration, hsource⟩)
          rw [if_neg hmem, Option.getD_none]
          simp [hnone]
      · rw [if_neg hs]
        simp [mem_registeredSegments, registeredReferences, Ne.symm hs, List.filter_append]
    · rw [if_neg hg] at hsegments
      rw [h.references generation segments source hsegments]
      simp [mem_registeredSegments, registeredReferences, Ne.symm hg, List.filter_append]

/-! ## The invariant of the writer -/

/-- What holds of a writer after a sequence of calls that all succeeded. -/
structure Represents (writer : TarArchiveWriter) (fileName : String) (calls : List ArchiveCall) :
    Prop where
  fileName : writer.fileName = fileName
  open_ : writer.closed = false
  file : writer.file = if writes calls = [] then none else some (bodyBytes (writes calls))
  length : writer.length = (bodyBytes (writes calls)).length
  limit : writer.length ≤ 2 ^ 31 - 1
  index : writer.indexEntries = layout 0 (writes calls)
  edges : EdgesMatch writer.graphEdges (writes calls)
  catalog : CatalogMatches writer.binaryReferences (registrations calls)

theorem represents_new (fileName : String) : Represents (new fileName) fileName [] where
  fileName := rfl
  open_ := rfl
  file := rfl
  length := rfl
  limit := Nat.zero_le _
  index := rfl
  edges := fun _ => rfl
  catalog := ⟨fun generation => by simp [registeredGenerations, registrations, new],
    fun _ _ _ h => by cases h⟩

/-- A segment write succeeds exactly while the segment entries stay under the limit. -/
theorem call_writeSegment_ok {writer : TarArchiveWriter} {write : SegmentWrite}
    (hopen : writer.closed = false) (h : writer.call (.writeSegment write) = .ok next) :
    writer.length + write.entryBytes.length ≤ 2 ^ 31 - 1 ∧
      next = { writer with
        file := some (writer.file.getD [] ++ write.entryBytes)
        length := writer.length + write.entryBytes.length
        indexEntries := writer.indexEntries ++ [write.indexRow writer.length]
        graphEdges :=
          if write.referencedSegments.isEmpty then writer.graphEdges
          else writer.graphEdges.upsert write.identifier ∅ (· ∪ write.referencedSegments.toFinset)
        binaryReferences :=
          if write.binaryReferenceIdentifiers.isEmpty then writer.binaryReferences
          else insertReferences writer.binaryReferences write.generation write.identifier
            write.binaryReferenceIdentifiers } := by
  have hlength : writer.length + tarBlockSize + write.content.length +
      paddingSize write.content.length = writer.length + write.entryBytes.length := by
    rw [length_entryBytes, blocks, ← add_paddingSize, tarBlockSize]
    omega
  rw [call, TarArchiveWriter.writeSegment, if_neg (by simp [hopen])] at h
  simp only [hlength] at h
  split at h
  · cases h
  · rename_i hlimit
    cases h
    exact ⟨Nat.le_of_not_lt hlimit, rfl⟩

theorem writes_append (calls calls' : List ArchiveCall) :
    writes (calls ++ calls') = writes calls ++ writes calls' := List.filterMap_append

theorem registrations_append (calls calls' : List ArchiveCall) :
    registrations (calls ++ calls') = registrations calls ++ registrations calls' :=
  List.filterMap_append

section

variable {fileName : String} {calls : List ArchiveCall}

/-- One successful call keeps the invariant. -/
theorem Represents.call {writer : TarArchiveWriter} {call : ArchiveCall} (h : Represents writer fileName calls)
    (hcall : writer.call call = .ok next) : Represents next fileName (calls ++ [call]) := by
  cases call with
  | addBinaryReferences generation source references =>
    cases hcall
    have hwrites : writes (calls ++ [.addBinaryReferences generation source references]) =
        writes calls := by
      rw [writes_append]
      simp [writes, ArchiveCall.write?]
    refine ⟨h.fileName, h.open_, ?_, ?_, h.limit, ?_, ?_, ?_⟩
    · rw [hwrites]
      exact h.file
    · rw [hwrites]
      exact h.length
    · rw [hwrites]
      exact h.index
    · rw [hwrites]
      exact h.edges
    · rw [registrations_append]
      exact h.catalog.append ⟨generation, source, references⟩
  | writeSegment write =>
    obtain ⟨hlimit, rfl⟩ := call_writeSegment_ok h.open_ hcall
    have hwrites : writes (calls ++ [.writeSegment write]) = writes calls ++ [write] := by
      rw [writes_append]
      rfl
    have hsingle : bodyBytes [write] = write.entryBytes := by
      simp [bodyBytes]
    have hbody : writer.file.getD [] = bodyBytes (writes calls) := by
      rw [h.file]
      split
      · rename_i hnone
        rw [hnone]
        rfl
      · rfl
    refine ⟨h.fileName, h.open_, ?_, ?_, hlimit, ?_, ?_, ?_⟩
    · have hne : writes calls ++ [write] ≠ [] := by simp
      rw [hwrites, if_neg hne, bodyBytes_append, hbody, hsingle]
    · rw [hwrites, bodyBytes_append, length_append, hsingle, ← h.length]
    · rw [hwrites, layout_append, Nat.zero_add, ← h.length, ← h.index]
      rfl
    · rw [hwrites]
      exact h.edges.append write
    · rw [registrations_append]
      by_cases hnone : write.binaryReferenceIdentifiers.isEmpty
      · have hr : registrations [.writeSegment write] = [] := by
          simp [registrations, ArchiveCall.registration?, hnone]
        rw [hr, List.append_nil]
        simp only [hnone, if_true]
        exact h.catalog
      · have hr : registrations [.writeSegment write] =
            [⟨write.generation, write.identifier, write.binaryReferenceIdentifiers⟩] := by
          simp [registrations, ArchiveCall.registration?, hnone]
        rw [hr, if_neg hnone]
        exact h.catalog.append ⟨write.generation, write.identifier,
          write.binaryReferenceIdentifiers⟩

/-- A run of successful calls establishes the invariant. -/
theorem represents_run {writer : TarArchiveWriter}
    (h : (new fileName).run calls = .ok writer) : Represents writer fileName calls := by
  induction calls using List.reverseRecOn generalizing writer with
  | nil =>
    cases h
    exact represents_new fileName
  | append_singleton calls call ih =>
    rw [run, List.foldlM_append] at h
    obtain ⟨before, hbefore, hcall⟩ := Except.bind_ok_iff.mp h
    rw [List.foldlM_cons] at hcall
    obtain ⟨after, hafter, hnil⟩ := Except.bind_ok_iff.mp hcall
    cases hnil
    exact (ih hbefore).call hafter

/-- A run succeeds as long as its segment entries stay under the limit. -/
theorem run_ok_of_length (h : (bodyBytes (writes calls)).length ≤ 2 ^ 31 - 1) :
    ∃ writer, (new fileName).run calls = .ok writer := by
  induction calls using List.reverseRecOn with
  | nil => exact ⟨_, rfl⟩
  | append_singleton calls call ih =>
    rw [writes_append, bodyBytes_append, length_append] at h
    obtain ⟨before, hbefore⟩ := ih (by omega)
    have hrep := represents_run hbefore
    have hcall : ∃ after, before.call call = .ok after := by
      cases call with
      | addBinaryReferences generation source references => exact ⟨_, rfl⟩
      | writeSegment write =>
        have hsingle : bodyBytes (writes [.writeSegment write]) = write.entryBytes := by
          simp [writes, ArchiveCall.write?, bodyBytes]
        rw [hsingle, ← hrep.length, length_entryBytes, blocks, ← add_paddingSize] at h
        have hlimit : ¬ before.length + tarBlockSize + write.content.length +
            paddingSize write.content.length > 2 ^ 31 - 1 := by
          rw [tarBlockSize]
          omega
        rw [TarArchiveWriter.call, TarArchiveWriter.writeSegment, if_neg (by simp [hrep.open_])]
        simp only [if_neg hlimit]
        exact ⟨_, rfl⟩
    obtain ⟨after, hafter⟩ := hcall
    refine ⟨after, ?_⟩
    rw [run, List.foldlM_append, ← run, hbefore, Except.ok_bind_eq, List.foldlM_cons, hafter]
    rfl

end

/-! ## The length of a closed archive -/

/-- The size of the graph. -/
def graphSize (ws : List SegmentWrite) : Nat :=
  ∑ source ∈ registeredSources ws, (20 + 16 * (registeredTargets ws source).card)

/-- The size of the catalog. -/
def catalogSize (rs : List Registration) : Nat :=
  ∑ generation ∈ registeredGenerations rs, (13 +
    ∑ source ∈ registeredSegments rs generation, (20 +
      ∑ reference ∈ registeredReferences rs generation source, (4 + reference.utf8.length)))

/-- The size of all entries. -/
def bodySize (ws : List SegmentWrite) : Nat :=
  (ws.map fun write => 512 + blocks write.content.length).sum

/-- The length of the archive that a sequence of calls and `close` produce: segment
entries, catalog, graph, index and the two zero blocks. -/
def closedLength (calls : List ArchiveCall) : Nat :=
  bodySize (writes calls) + (512 + blocks (catalogSize (registrations calls) + 16)) +
    (512 + blocks (graphSize (writes calls) + 16)) +
    (512 + blocks ((writes calls).length * 33 + 16)) + 1024

theorem length_bodyBytes : (bodyBytes ws).length = bodySize ws := by
  induction ws with
  | nil => rfl
  | cons write ws ih =>
    rw [length_bodyBytes_cons, ih, length_entryBytes]
    simp [bodySize]

/-- The graph the reader finds: one row for each source, in order. -/
def registeredGraph (ws : List SegmentWrite) : SegmentGraph :=
  ⟨((registeredSources ws).sort (· ≤ ·)).map fun source =>
    (source, (registeredTargets ws source).sort (· ≤ ·))⟩

/-- The catalog the reader finds: generations, segments and references in order. -/
def registeredCatalog (rs : List Registration) : BinaryReferences :=
  ⟨((registeredGenerations rs).sort (· ≤ ·)).map fun generation =>
    ⟨generation.generation, generation.fullGeneration, generation.isCompacted,
      ((registeredSegments rs generation).sort (· ≤ ·)).map fun source =>
        (source, (registeredReferences rs generation source).sort (· ≤ ·))⟩⟩

section Maps

variable {edges : GraphEdges} {ws : List SegmentWrite} {catalog : BinaryReferencesByGeneration}
  {rs : List Registration}

theorem EdgesMatch.rows (h : EdgesMatch edges ws) :
    edges.rows = ((registeredSources ws).sort (· ≤ ·)).map fun source =>
      (source, registeredTargets ws source) := by
  refine Finmap.rows_of_lookup fun source => ?_
  rw [h source]
  by_cases hempty : registeredTargets ws source = ∅
  · rw [if_pos hempty, if_neg (by rw [mem_registeredSources]; exact not_not.mpr hempty)]
  · rw [if_neg hempty, if_pos (mem_registeredSources.mpr hempty)]

theorem EdgesMatch.length_data (h : EdgesMatch edges ws) :
    (edges.rows.flatMap graphRowBytes).length = graphSize ws := by
  rw [h.rows, List.flatMap_map, Finset.length_flatMap_sort]
  exact Finset.sum_congr rfl fun source _ => length_graphRowBytes _

variable (h : CatalogMatches catalog rs)

include h in
/-- The segments of a catalogued generation. -/
theorem CatalogMatches.segmentRows
    {generation : GarbageCollectionGeneration} {segments : SegmentReferences}
    (hsegments : catalog.lookup generation = some segments) :
    segments.rows = ((registeredSegments rs generation).sort (· ≤ ·)).map fun source =>
      (source, registeredReferences rs generation source) :=
  Finmap.rows_of_lookup fun source => h.references generation segments source hsegments

include h in
/-- The catalog as a function of the generation. -/
theorem CatalogMatches.exists_rows :
    ∃ value : GarbageCollectionGeneration → SegmentReferences,
      (∀ generation ∈ registeredGenerations rs, catalog.lookup generation = some (value generation)) ∧
      catalog.rows = ((registeredGenerations rs).sort (· ≤ ·)).map fun generation =>
        (generation, value generation) := by
  have hlookup : ∀ generation, catalog.lookup generation =
      if generation ∈ registeredGenerations rs then
        some ((catalog.lookup generation).getD ∅) else none := by
    intro generation
    by_cases hin : generation ∈ registeredGenerations rs
    · rw [if_pos hin]
      cases hl : catalog.lookup generation with
      | none => exact absurd hin ((h.generations generation).mp hl)
      | some segments => rfl
    · rw [if_neg hin]
      exact (h.generations generation).mpr hin
  refine ⟨fun generation => (catalog.lookup generation).getD ∅, ?_, Finmap.rows_of_lookup hlookup⟩
  intro generation hin
  rw [hlookup generation, if_pos hin]

theorem length_referenceBytes (reference : String) :
    (referenceBytes reference).length = 4 + reference.utf8.length := by
  simp [referenceBytes]

include h in
theorem CatalogMatches.length_data :
    (catalog.rows.flatMap catalogGenerationBytes).length = catalogSize rs := by
  obtain ⟨value, hvalue, hrows⟩ := h.exists_rows
  rw [hrows, List.flatMap_map, Finset.length_flatMap_sort]
  refine Finset.sum_congr rfl fun generation hin => ?_
  rw [length_catalogGenerationBytes, h.segmentRows (hvalue generation hin), List.flatMap_map,
    Finset.length_flatMap_sort]
  congr 1
  refine Finset.sum_congr rfl fun source _ => ?_
  have hreferences := Finset.length_flatMap_sort (registeredReferences rs generation source)
    referenceBytes
  simp only [length_referenceBytes] at hreferences
  rw [length_referencingSegmentBytes, hreferences]

include h in
theorem CatalogMatches.map_rows :
    (⟨catalog.rows.map catalogGeneration⟩ : BinaryReferences) = registeredCatalog rs := by
  obtain ⟨value, hvalue, hrows⟩ := h.exists_rows
  rw [registeredCatalog, hrows, map_map]
  congr 1
  refine List.map_congr_left fun generation hin => ?_
  have hrow := h.segmentRows (hvalue generation ((Finset.mem_sort _).mp hin))
  simp only [Function.comp_apply, catalogGeneration, hrow, map_map]
  rfl

theorem EdgesMatch.map_rows (h : EdgesMatch edges ws) :
    (⟨edges.rows.map graphRow⟩ : SegmentGraph) = registeredGraph ws := by
  rw [registeredGraph, h.rows, map_map]
  rfl

include h in
/-- Every catalogued generation has a segment. -/
theorem CatalogMatches.rows_ne_nil
    {row : GarbageCollectionGeneration × SegmentReferences} (hrow : row ∈ catalog.rows) :
    row.2.rows ≠ [] := by
  obtain ⟨generation, segments⟩ := row
  have hlookup := Finmap.mem_rows.mp hrow
  have hin : generation ∈ registeredGenerations rs := by
    by_contra hno
    rw [(h.generations generation).mpr hno] at hlookup
    cases hlookup
  obtain ⟨r, hr, hgeneration⟩ := mem_registeredGenerations.mp hin
  have hsource : r.source ∈ registeredSegments rs generation :=
    mem_registeredSegments.mpr ⟨r, hr, hgeneration, rfl⟩
  rw [h.segmentRows hlookup]
  intro hnil
  have hmem := (Finset.mem_sort (· ≤ ·)).mpr hsource
  rw [List.map_eq_nil_iff.mp hnil] at hmem
  cases hmem

theorem EdgesMatch.rows_ne_empty (h : EdgesMatch edges ws)
    {row : SegmentIdentifier × Finset SegmentIdentifier} (hrow : row ∈ edges.rows) : row.2 ≠ ∅ := by
  rw [h.rows] at hrow
  obtain ⟨source, hsource, rfl⟩ := mem_map.mp hrow
  exact mem_registeredSources.mp ((Finset.mem_sort _).mp hsource)

end Maps

/-! ## The closed file -/

theorem length_trailerEntryBytes (seconds : UInt64) (name : String) (payload : Bytes) :
    (trailerEntryBytes seconds name payload).length = 512 + blocks payload.length := by
  simp only [trailerEntryBytes, length_append, length_entryHeader, List.length_replicate,
    blocks, ← add_paddingSize]
  omega

theorem sortedIndexEntries_perm (writer : TarArchiveWriter) :
    writer.sortedIndexEntries.Perm writer.indexEntries :=
  List.mergeSort_perm ..

theorem length_serializeIndex (writer : TarArchiveWriter) :
    writer.serializeIndex.length = blocks (writer.indexEntries.length * 33 + 16) := by
  have hentries := (encodesIndex_indexEntryBytes writer.sortedIndexEntries).length_flatMap
  have hsize : indexEntrySize 2 = 33 := rfl
  simp only [serializeIndex, length_append, List.length_replicate, length_footerBytes,
    hentries, hsize, (sortedIndexEntries_perm writer).length_eq, blocks, footerSize]
  omega

namespace Represents

variable {writer : TarArchiveWriter} {fileName : String} {calls : List ArchiveCall}

section

variable (h : Represents writer fileName calls)
include h

theorem length_serializeGraph :
    writer.serializeGraph.length = graphSize (writes calls) + 16 := by
  rw [serializeGraph, length_trailerPayload, h.edges.length_data]

theorem length_serializeBinaryReferences :
    writer.serializeBinaryReferences.length = catalogSize (registrations calls) + 16 := by
  rw [serializeBinaryReferences, length_trailerPayload, h.catalog.length_data]

theorem length_indexEntries :
    writer.indexEntries.length = (writes calls).length := by
  rw [h.index, length_layout]

/-- The index entry with its header and the two zero blocks. -/
theorem length_index (times : CloseTimes) :
    (entryHeader times.index (writer.fileName ++ ".idx").utf8
        (UInt64.ofNat writer.serializeIndex.length) ++ writer.serializeIndex ++
      List.replicate (2 * tarBlockSize) 0).length =
      512 + blocks ((writes calls).length * 33 + 16) + 1024 := by
  simp only [length_append, length_entryHeader, length_serializeIndex, h.length_indexEntries,
    List.length_replicate, tarBlockSize]

theorem length_close (times : CloseTimes) :
    (bodyBytes (writes calls) ++ writer.trailerBytes times).length = closedLength calls := by
  have hindex := h.length_index times
  rw [length_append] at hindex
  simp only [trailerBytes, length_append, length_trailerEntryBytes, length_bodyBytes,
    h.length_serializeGraph, h.length_serializeBinaryReferences, closedLength] at hindex ⊢
  omega

end

/-- The closed file around its catalog. -/
theorem close_eq_catalog (times : CloseTimes) :
    bodyBytes (writes calls) ++ writer.trailerBytes times =
      (bodyBytes (writes calls) ++ entryHeader times.binaryReferences
          (writer.fileName ++ ".brf").utf8 (UInt64.ofNat (writer.serializeBinaryReferences.length +
            paddingSize writer.serializeBinaryReferences.length)) ++
        List.replicate (paddingSize writer.serializeBinaryReferences.length) 0) ++
        writer.serializeBinaryReferences ++
        (trailerEntryBytes times.graph (writer.fileName ++ ".gph") writer.serializeGraph ++
          (entryHeader times.index (writer.fileName ++ ".idx").utf8
            (UInt64.ofNat writer.serializeIndex.length) ++ writer.serializeIndex ++
            List.replicate (2 * tarBlockSize) 0)) := by
  rw [trailerBytes, trailerEntryBytes]
  simp only [append_assoc]

/-- The closed file around its graph. -/
theorem close_eq_graph (times : CloseTimes) :
    bodyBytes (writes calls) ++ writer.trailerBytes times =
      (bodyBytes (writes calls) ++ trailerEntryBytes times.binaryReferences
          (writer.fileName ++ ".brf") writer.serializeBinaryReferences ++ entryHeader times.graph
          (writer.fileName ++ ".gph").utf8 (UInt64.ofNat (writer.serializeGraph.length +
            paddingSize writer.serializeGraph.length)) ++
        List.replicate (paddingSize writer.serializeGraph.length) 0) ++ writer.serializeGraph ++
        (entryHeader times.index (writer.fileName ++ ".idx").utf8
          (UInt64.ofNat writer.serializeIndex.length) ++ writer.serializeIndex ++
          List.replicate (2 * tarBlockSize) 0) := by
  simp only [trailerBytes, trailerEntryBytes, append_assoc]

theorem file_index (h : Represents writer fileName calls) (times : CloseTimes) {file : Bytes}
    (hfile : file = bodyBytes (writes calls) ++ writer.trailerBytes times) :
    file = (bodyBytes (writes calls) ++ trailerEntryBytes times.binaryReferences
          (writer.fileName ++ ".brf") writer.serializeBinaryReferences ++
        trailerEntryBytes times.graph (writer.fileName ++ ".gph") writer.serializeGraph ++
        entryHeader times.index (writer.fileName ++ ".idx").utf8
          (UInt64.ofNat writer.serializeIndex.length) ++
        List.replicate (blocks ((writes calls).length * 33 + 16) -
          ((writes calls).length * 33 + 16)) 0) ++
      writer.sortedIndexEntries.flatMap indexEntryBytes ++
      footerBytes (writer.sortedIndexEntries.flatMap indexEntryBytes)
        writer.sortedIndexEntries.length (blocks ((writes calls).length * 33 + 16))
        indexVersion2Magic ++ List.replicate (2 * tarBlockSize) 0 := by
  rw [hfile, (sortedIndexEntries_perm writer).length_eq, h.length_indexEntries, trailerBytes]
  simp only [serializeIndex, h.length_indexEntries, footerSize, ← blocks.eq_1, append_assoc]

end Represents

theorem blocks_mod (size : Nat) : blocks size % 512 = 0 := by
  unfold blocks
  omega

theorem bodySize_mod : bodySize ws % 512 = 0 := by
  induction ws with
  | nil => rfl
  | cons write ws ih =>
    have hblocks := blocks_mod write.content.length
    simp only [bodySize, List.map_cons, List.sum_cons] at ih ⊢
    omega

theorem le_blocks (size : Nat) : size ≤ blocks size := by
  unfold blocks
  omega

theorem bodySize_append :
    bodySize (ws ++ vs) = bodySize ws + bodySize vs := by
  simp [bodySize]

theorem bodySize_cons :
    bodySize (write :: ws) = 512 + blocks write.content.length + bodySize ws := by
  simp [bodySize]

section

variable {before after : List SegmentWrite} {write : SegmentWrite}

/-- The row of a write is read at the position and with the size it was written. -/
theorem indexRow_toNat (hlimit : bodySize (before ++ write :: after) ≤ 2 ^ 31 - 1) :
    (write.indexRow (bodySize before)).dataOffset.toNat = bodySize before + 512 ∧
      (write.indexRow (bodySize before)).size.toNat = write.content.length := by
  have hcontent := le_blocks write.content.length
  rw [bodySize_append, bodySize_cons] at hlimit
  simp only [SegmentWrite.indexRow, UInt32.toNat_ofNat', tarBlockSize]
  omega

theorem validExtent_indexRow
    (hcontent : write.content ≠ []) (hlimit : bodySize (before ++ write :: after) ≤ 2 ^ 31 - 1) :
    (write.indexRow (bodySize before)).indexed.ValidExtent := by
  have hpos : 0 < write.content.length := List.length_pos_iff.mpr hcontent
  have hblocks := le_blocks write.content.length
  have hmod := bodySize_mod before
  have hoffset := (indexRow_toNat hlimit).1
  rw [bodySize_append, bodySize_cons] at hlimit
  have hposition : signed32 (write.indexRow (bodySize before)).indexed.position =
      (bodySize before + 512 : Nat) :=
    signed32_ofNat (show bodySize before + 512 < 2 ^ 31 by omega)
  have hsize : signed32 (write.indexRow (bodySize before)).indexed.size = write.content.length :=
    signed32_ofNat (by omega)
  refine ⟨?_, ?_, ?_⟩
  · rw [hposition]
    exact Int.natCast_nonneg _
  · change (write.indexRow (bodySize before)).dataOffset.toNat % 512 = 0
    rw [hoffset]
    omega
  · rw [hsize]
    exact_mod_cast hpos

end

/-! ## Opening the closed file -/

/-- The index entries of the segments written: identifier, position, size, generation. -/
def writtenEntries (calls : List ArchiveCall) : List SegmentIndexEntry :=
  (layout 0 (writes calls)).map PendingIndexEntry.indexed

/-- An archive opened through its index holds exactly what the calls registered. -/
structure Holds (archive : TarArchiveReader) (index : SegmentIndex) (calls : List ArchiveCall) :
    Prop where
  entries : index.entries.Perm (writtenEntries calls)
  data : ∀ write ∈ writes calls, (index.findEntry write.identifier).isSome ∧
    archive.segmentData write.identifier = some write.content
  absent : ∀ identifier, identifier ∉ (writes calls).map SegmentWrite.identifier →
    index.findEntry identifier = none ∧ archive.segmentData identifier = none
  valid : ∀ entry ∈ index.entries,
    archive.validateIndexedSegmentEntry entry.segmentIdentifier = .ok ()
  graph : archive.segmentGraph = some (registeredGraph (writes calls))
  catalog : archive.binaryReferences = some (registeredCatalog (registrations calls))

/-- Opening the file finds an index, and the archive holds what was registered. -/
def RoundTrips (fileName : String) (calls : List ArchiveCall) (file : Bytes) : Prop :=
  ∃ archive index, TarArchiveReader.openFile fileName file = .ok archive ∧
    archive.index = some index ∧ Holds archive index calls

section Entry

variable {before after : List SegmentWrite} {write : SegmentWrite} {file rest : Bytes}

section

variable (hfile : file = bodyBytes (before ++ write :: after) ++ rest)
include hfile

/-- The file around one segment entry. -/
theorem body_split :
    file = bodyBytes before ++ write.entryBytes ++ (bodyBytes after ++ rest) := by
  rw [hfile, bodyBytes_append, show bodyBytes (write :: after) = write.entryBytes ++
    bodyBytes after from List.flatMap_cons]
  simp only [append_assoc]

theorem range?_content :
    file.range? (bodySize before + 512) (bodySize before + 512 + write.content.length) =
      some write.content := by
  have hparts := body_split hfile
  rw [SegmentWrite.entryBytes, segmentEntryBytes] at hparts
  obtain ⟨header, hheader⟩ : ∃ header, header = entryHeader write.seconds (segmentEntryName
    write.identifier (crc32 write.content)) (UInt64.ofNat write.content.length) := ⟨_, rfl⟩
  have hlength : header.length = 512 := by
    rw [hheader, length_entryHeader]
  rw [← hheader] at hparts
  have hsplit : file = (bodyBytes before ++ header) ++ write.content ++
      (List.replicate (paddingSize write.content.length) 0 ++ (bodyBytes after ++ rest)) := by
    rw [hparts]
    simp only [append_assoc]
  have hstart : bodySize before + 512 = (bodyBytes before ++ header).length := by
    rw [length_append, length_bodyBytes, hlength]
  have hfits : bodySize before + 512 + write.content.length ≤ file.length := by
    rw [hsplit, hstart]
    simp only [length_append]
    omega
  rw [Bytes.range?_of_le hfits, Bytes.slice_of_eq_append hsplit hstart rfl]

theorem range?_header :
    file.range? (bodySize before) (bodySize before + 512) = some (entryHeader write.seconds
      (segmentEntryName write.identifier (crc32 write.content))
      (UInt64.ofNat write.content.length)) := by
  have hparts := body_split hfile
  rw [SegmentWrite.entryBytes, segmentEntryBytes] at hparts
  obtain ⟨header, hheader⟩ : ∃ header, header = entryHeader write.seconds (segmentEntryName
    write.identifier (crc32 write.content)) (UInt64.ofNat write.content.length) := ⟨_, rfl⟩
  have hlength : header.length = 512 := by
    rw [hheader, length_entryHeader]
  rw [← hheader] at hparts ⊢
  have hsplit : file = bodyBytes before ++ header ++ (write.content ++
      (List.replicate (paddingSize write.content.length) 0 ++ (bodyBytes after ++ rest))) := by
    rw [hparts]
    simp only [append_assoc]
  have hfits : bodySize before + 512 ≤ file.length := by
    rw [hsplit, length_append, length_append, length_bodyBytes, hlength]
    exact Nat.le_add_right _ _
  rw [Bytes.range?_of_le hfits, Bytes.slice_of_eq_append hsplit (length_bodyBytes before).symm
    hlength.symm]

/-- The entry the index names is the one written: header, canonical name and checksum. -/
theorem validateIndexedSegmentEntry_of_mem {fileName : String} {index : SegmentIndex}
    (hlimit : bodySize (before ++ write :: after) ≤ 2 ^ 31 - 1)
    (hfound : index.findEntry write.identifier = some (write.indexRow (bodySize before)).indexed) :
    TarArchiveReader.validateIndexedSegmentEntry ⟨fileName, file, .indexed index⟩
      write.identifier = .ok () := by
  obtain ⟨entry, hentry⟩ : ∃ entry, entry = (write.indexRow (bodySize before)).indexed := ⟨_, rfl⟩
  rw [← hentry] at hfound
  have hposition : entry.position.toNat = bodySize before + 512 := by
    rw [hentry]
    exact (indexRow_toNat hlimit).1
  have hsize : entry.size.toNat = write.content.length := by
    rw [hentry]
    exact (indexRow_toNat hlimit).2
  have hcontent : write.content.length < 2 ^ 31 := by
    have := le_blocks write.content.length
    rw [bodySize_append, bodySize_cons] at hlimit
    omega
  have hword : (UInt64.ofNat write.content.length).toNat = write.content.length := by
    rw [UInt64.toNat_ofNat']
    omega
  obtain ⟨name, hname⟩ : ∃ name, name = Utf8.ascii
    (segmentEntryName write.identifier (crc32 write.content)) := ⟨_, rfl⟩
  have hutf8 : segmentEntryName write.identifier (crc32 write.content) = name.utf8 := by
    rw [hname, utf8_segmentEntryName]
  have hheader := range?_header hfile
  rw [hutf8] at hheader
  have hparse : TarEntryHeader.parse (entryHeader write.seconds name.utf8
      (UInt64.ofNat write.content.length)) = some ⟨name, write.content.length⟩ := by
    rw [parse_entryHeader, hword]
    · rw [← hutf8, length_segmentEntryName]
      omega
    · rw [← hutf8]
      exact fun h => (segmentEntryName_chars h).2 rfl
    · rw [hword]
      exact hcontent
  have hchecksum := tarHeaderChecksumIsValid_entryHeader write.seconds name.utf8
    (UInt64.ofNat write.content.length)
  have hentryName := parseSegmentEntryName_segmentEntryName write.identifier (crc32 write.content)
  rw [← hname] at hentryName
  have hindexed : TarArchiveReader.indexEntry ⟨fileName, file, .indexed index⟩ write.identifier =
      some entry := hfound
  have hblock : indexedEntryHeader ⟨fileName, file, .indexed index⟩ entry
      write.identifier = .ok (entryHeader write.seconds name.utf8
        (UInt64.ofNat write.content.length), ⟨name, write.content.length⟩) := by
    simp only [indexedEntryHeader, hposition, Nat.add_sub_cancel]
    rw [if_neg (by omega)]
    simp only [hheader, hparse]
  have hcertified : certifiedEntryName ⟨fileName, file, .indexed index⟩
      ⟨name, write.content.length⟩ write.identifier = .ok (crc32 write.content) := by
    simp only [certifiedEntryName, hentryName, ← hname, ne_eq, not_true_eq_false,
      if_false]
  have hagree : TarArchiveReader.rejectHeaderDisagreement ⟨fileName, file, .indexed index⟩ entry
      ⟨name, write.content.length⟩ (entryHeader write.seconds name.utf8
        (UInt64.ofNat write.content.length)) write.identifier = .ok () := by
    simp only [TarArchiveReader.rejectHeaderDisagreement, hsize, hchecksum, ne_eq,
      not_true_eq_false, if_false, Bool.not_true, Bool.false_eq_true]
  have hpayload : TarArchiveReader.verifyPayloadChecksum ⟨fileName, file, .indexed index⟩ entry
      (crc32 write.content) write.identifier = .ok () := by
    simp only [TarArchiveReader.verifyPayloadChecksum, hposition, hsize, range?_content hfile,
      ne_eq, not_true_eq_false, if_false]
  rw [TarArchiveReader.validateIndexedSegmentEntry, hindexed]
  simp only [hblock, hcertified, hagree, hpayload, Except.ok_bind_eq]

end

end Entry

theorem indexRow_mem_layout (before : List SegmentWrite) (write : SegmentWrite)
    (after : List SegmentWrite) :
    write.indexRow (bodySize before) ∈ layout 0 (before ++ write :: after) := by
  rw [layout_append, Nat.zero_add, length_bodyBytes, layout]
  exact List.mem_append_right _ (List.mem_cons_self ..)

theorem diskStructureSize_registeredGraph :
    (registeredGraph ws).diskStructureSize = graphSize ws + 16 := by
  have hsum : ((registeredGraph ws).adjacency.map fun row => 20 + 16 * row.2.length).sum =
      graphSize ws := by
    rw [registeredGraph, map_map, graphSize, ← Finset.sum_map_toList]
    refine Eq.trans ?_ ((Finset.sort_perm_toList (registeredSources ws) (· ≤ ·)).map _).sum_eq
    simp [Function.comp_def]
  rw [SegmentGraph.diskStructureSize, hsum, footerSize, Nat.add_comm]

section Trailers

variable {writer : TarArchiveWriter} {fileName name : String} {calls : List ArchiveCall}
  {times : CloseTimes} {file : Bytes} {index : SegmentIndex}

section

variable (h : Represents writer fileName calls)
include h

theorem Represents.indexEntryDiskSize (hversion : index.version = 2)
    (hentries : index.entries = writer.sortedIndexEntries.map indexed) :
    indexEntryDiskSize index = 512 + blocks ((writes calls).length * 33 + 16) := by
  rw [Froe.indexEntryDiskSize, hversion, hentries, List.length_map,
    (sortedIndexEntries_perm writer).length_eq, h.length_indexEntries]
  rfl

section

variable (hfile : file = bodyBytes (writes calls) ++ writer.trailerBytes times)
include hfile

section

variable (hfilelen : file.length = closedLength calls) (hlength : closedLength calls ≤ 2 ^ 31 - 1)
  (hversion : index.version = 2)
  (hentries : index.entries = writer.sortedIndexEntries.map PendingIndexEntry.indexed)
include hfilelen hlength hversion hentries

theorem Represents.segmentGraph :
    TarArchiveReader.segmentGraph ⟨name, file, .indexed index⟩ =
      some (registeredGraph (writes calls)) := by
  rw [Represents.close_eq_graph, serializeGraph] at hfile
  have hparse := parseSegmentGraph_of_append hfile
    (by rw [h.length_index, h.indexEntryDiskSize hversion hentries, terminatingZeroBlocks,
          Nat.add_comm])
    (fun row hrow => h.edges.rows_ne_empty hrow) (by omega)
  rw [h.edges.map_rows] at hparse
  exact hparse

theorem Represents.binaryReferences :
    TarArchiveReader.binaryReferences ⟨name, file, .indexed index⟩ =
      some (registeredCatalog (registrations calls)) := by
  have hgraph : TarArchiveReader.segmentGraph ⟨name, file, .indexed index⟩ =
      some (registeredGraph (writes calls)) :=
    h.segmentGraph hfile hfilelen hlength hversion hentries
  have hdisk := h.indexEntryDiskSize hversion hentries
  have hstructure := diskStructureSize_registeredGraph (writes calls)
  rw [Represents.close_eq_catalog] at hfile
  have hrest : (trailerEntryBytes times.graph (writer.fileName ++ ".gph") writer.serializeGraph ++
      (entryHeader times.index (writer.fileName ++ ".idx").utf8
        (UInt64.ofNat writer.serializeIndex.length) ++ writer.serializeIndex ++
        List.replicate (2 * tarBlockSize) 0)).length =
      terminatingZeroBlocks + Froe.indexEntryDiskSize index +
        (512 + ((registeredGraph (writes calls)).diskStructureSize + 511) / 512 * 512) := by
    rw [length_append, length_trailerEntryBytes, h.length_serializeGraph, h.length_index,
      hdisk, hstructure, terminatingZeroBlocks, ← blocks]
    omega
  have hfits : terminatingZeroBlocks + Froe.indexEntryDiskSize index +
      (512 + ((registeredGraph (writes calls)).diskStructureSize + 511) / 512 * 512) ≤
      file.length := by
    have hsum := congrArg List.length hfile
    rw [length_append, hrest] at hsum
    rw [hsum]
    exact Nat.le_add_left _ _
  have hparse : parseBinaryReferences file (file.length - (terminatingZeroBlocks +
      Froe.indexEntryDiskSize index +
        (512 + ((registeredGraph (writes calls)).diskStructureSize + 511) / 512 * 512))) =
      some (registeredCatalog (registrations calls)) := by
    rw [← h.catalog.map_rows]
    refine parseBinaryReferences_of_append hfile ?_ (fun row hrow => h.catalog.rows_ne_nil hrow)
      (by omega)
    rw [hrest, Nat.sub_add_cancel hfits]
  have hindex : TarArchiveReader.index ⟨name, file, .indexed index⟩ = some index := rfl
  simp only [TarArchiveReader.binaryReferences, hindex, hgraph, Option.bind_eq_bind,
    Option.bind_some]
  rw [← Option.bind_eq_bind, guard_true hfits, hparse]

end

end

end

end Trailers

/-- The index rows are strictly sorted when no identifier repeats. -/
theorem sortedIndexEntries_strict {writer : TarArchiveWriter}
    (hnodup : (writer.indexEntries.map PendingIndexEntry.identifier).Nodup) :
    Search.StrictlySorted SegmentIndexEntry.key
      (writer.sortedIndexEntries.map indexed) := by
  have hsorted : writer.sortedIndexEntries.Pairwise fun a b =>
      signedOrderKey a.identifier ≤ signedOrderKey b.identifier := by
    refine (List.pairwise_mergeSort ?_ ?_ writer.indexEntries).imp of_decide_eq_true
    · intro a b c hab hbc
      rw [decide_eq_true_eq] at *
      exact le_trans hab hbc
    · intro a b
      rw [Bool.or_eq_true, decide_eq_true_eq, decide_eq_true_eq]
      exact le_total _ _
  have hdistinct : writer.sortedIndexEntries.Pairwise fun a b => a.identifier ≠ b.identifier := by
    have hperm := (sortedIndexEntries_perm writer).map PendingIndexEntry.identifier
    exact List.pairwise_map.mp (hperm.nodup_iff.mpr hnodup)
  rw [Search.StrictlySorted, List.pairwise_map]
  refine (hsorted.and hdistinct).imp ?_
  rintro a b ⟨hle, hne⟩
  exact lt_of_le_of_ne hle fun heq => hne (signedOrderKey_injective heq)

/-- A closed archive of acceptable length round-trips. -/
theorem roundTrips_of_length {fileName name : String} {calls : List ArchiveCall}
    {writer : TarArchiveWriter} {times : CloseTimes} (h : Represents writer fileName calls)
    (hdistinct : ((writes calls).map SegmentWrite.identifier).Nodup)
    (hcontent : ∀ write ∈ writes calls, write.content ≠ [])
    (hwrites : writes calls ≠ []) (hlength : closedLength calls ≤ 2 ^ 31 - 1) :
    RoundTrips name calls (bodyBytes (writes calls) ++ writer.trailerBytes times) := by
  obtain ⟨file, hfile⟩ : ∃ file, file = bodyBytes (writes calls) ++ writer.trailerBytes times :=
    ⟨_, rfl⟩
  have hfilelen : file.length = closedLength calls := by
    rw [hfile, h.length_close]
  have hlimit : bodySize (writes calls) ≤ 2 ^ 31 - 1 := by
    rw [← length_bodyBytes, ← h.length]
    exact h.limit
  have hrows : writer.indexEntries.length = (writes calls).length := h.length_indexEntries
  have hone : 1 ≤ (writes calls).length := List.length_pos_iff.mpr hwrites
  -- every row belongs to a write that stands where the row says
  have hrow : ∀ row ∈ writer.sortedIndexEntries, ∃ before write after,
      writes calls = before ++ write :: after ∧ row = write.indexRow (bodySize before) := by
    intro row hmem
    rw [(sortedIndexEntries_perm writer).mem_iff, h.index] at hmem
    obtain ⟨before, write, after, hsplit, hrow⟩ := mem_layout hmem
    rw [Nat.zero_add, length_bodyBytes] at hrow
    exact ⟨before, write, after, hsplit, hrow⟩
  have hextents : ∀ row ∈ writer.sortedIndexEntries, row.indexed.ValidExtent := by
    intro row hmem
    obtain ⟨before, write, after, hsplit, rfl⟩ := hrow row hmem
    rw [hsplit] at hlimit
    exact validExtent_indexRow (hcontent write (by rw [hsplit]; simp)) hlimit
  have hstrict : Search.StrictlySorted SegmentIndexEntry.key
      (writer.sortedIndexEntries.map indexed) := by
    refine sortedIndexEntries_strict ?_
    rw [h.index, layout_map_identifier]
    exact hdistinct
  have hshape : validateArchiveShape file.length = .ok () := by
    have hbody := bodySize_mod (writes calls)
    have hmods := And.intro (blocks_mod (catalogSize (registrations calls) + 16))
      (And.intro (blocks_mod (graphSize (writes calls) + 16))
        (blocks_mod ((writes calls).length * 33 + 16)))
    have hles := And.intro (le_blocks (catalogSize (registrations calls) + 16))
      (And.intro (le_blocks (graphSize (writes calls) + 16))
        (le_blocks ((writes calls).length * 33 + 16)))
    rw [hfilelen, validateArchiveShape, if_neg ?_, if_neg ?_, if_neg (Nat.not_lt.mpr hlength)]
    · rw [closedLength]
      omega
    · rw [closedLength]
      omega
  have hindex : ∃ index, parseSegmentIndex file = .ok index ∧ index.version = 2 ∧
      index.entries = writer.sortedIndexEntries.map indexed := by
    have hcount := (sortedIndexEntries_perm writer).length_eq
    have htotal := le_blocks ((writes calls).length * 33 + 16)
    refine parseSegmentIndex_of_append (encodesIndex_indexEntryBytes _) (h.file_index times hfile)
      hshape ?_ ?_ ?_ ?_ hstrict hextents
    · rw [hcount, hrows]
      exact hone
    · rw [hcount, hrows]
      exact htotal
    · exact blocks_mod _
    · rw [hfilelen, closedLength]
      omega
  obtain ⟨index, hparse, hversion, hentries⟩ := hindex
  have hopen : openFile name file = .ok ⟨name, file, .indexed index⟩ := by
    have hpos : file.length ≠ 0 := by
      rw [hfilelen, closedLength]
      omega
    rw [openFile, if_neg hpos, hparse]
  rw [← hfile]
  refine ⟨_, index, hopen, rfl, ?_⟩
  have hperm : index.entries.Perm (writtenEntries calls) := by
    rw [hentries, writtenEntries, ← h.index]
    exact (sortedIndexEntries_perm writer).map _
  have hfind : ∀ before write after, writes calls = before ++ write :: after →
      index.findEntry write.identifier = some (write.indexRow (bodySize before)).indexed := by
    intro before write after hsplit
    rw [SegmentIndex.findEntry_eq_some_iff, hperm.mem_iff, writtenEntries, hsplit]
    exact ⟨List.mem_map_of_mem (indexRow_mem_layout before write after), rfl⟩
  refine ⟨hperm, ?_, ?_, ?_, ?_, ?_⟩
  · intro write hwrite
    obtain ⟨before, after, hsplit⟩ := List.append_of_mem hwrite
    have hfound := hfind before write after hsplit
    rw [hsplit] at hfile hlimit
    obtain ⟨hposition, hsize⟩ := indexRow_toNat hlimit
    refine ⟨by rw [hfound]; rfl, ?_⟩
    rw [segmentData]
    simp only [hfound, Option.bind_eq_bind, Option.bind_some]
    rw [indexed, hposition, hsize, range?_content hfile]
  · intro identifier habsent
    have hnone : index.findEntry identifier = none := by
      rw [SegmentIndex.findEntry_eq_none_iff]
      intro entry hentry heq
      rw [hperm.mem_iff, writtenEntries] at hentry
      obtain ⟨row, hrow', rfl⟩ := mem_map.mp hentry
      have hmem : row.identifier ∈ (layout 0 (writes calls)).map PendingIndexEntry.identifier :=
        List.mem_map_of_mem hrow'
      rw [layout_map_identifier] at hmem
      exact habsent (heq ▸ hmem)
    refine ⟨hnone, ?_⟩
    rw [segmentData]
    simp only [hnone, Option.bind_eq_bind, Option.bind_none]
  · intro entry hentry
    rw [hentries] at hentry
    obtain ⟨row, hmem, rfl⟩ := mem_map.mp hentry
    obtain ⟨before, write, after, hsplit, rfl⟩ := hrow row hmem
    have hfound := hfind before write after hsplit
    rw [hsplit] at hfile hlimit
    exact validateIndexedSegmentEntry_of_mem hfile hlimit hfound
  · exact h.segmentGraph hfile hfilelen hlength hversion hentries
  · exact h.binaryReferences hfile hfilelen hlength hversion hentries

/-- The reader refuses an index in a file that is longer than it can address. -/
theorem index_eq_none_of_length {name : String} {archive : TarArchiveReader} {file : Bytes}
    (hlength : 2 ^ 31 - 1 < file.length)
    (hopen : openFile name file = .ok archive) : archive.index = none := by
  have hshape : validateArchiveShape file.length ≠ .ok () := by
    rw [validateArchiveShape]
    split
    · exact invalid_ne_ok
    split
    · exact invalid_ne_ok
    · exact invalid_ne_ok
  rw [openFile] at hopen
  split at hopen
  · exact absurd hopen invalid_ne_ok
  split at hopen
  · rename_i parsed hparse
    exact absurd (parseSegmentIndex_ok.mp hparse).1 hshape
  · cases hopen
    rfl

theorem not_roundTrips_of_length {fileName : String} {calls : List ArchiveCall} {file : Bytes}
    (hlength : 2 ^ 31 - 1 < file.length) : ¬ RoundTrips fileName calls file := by
  rintro ⟨archive, index, hopen, hindex, -⟩
  rw [index_eq_none_of_length hlength hopen] at hindex
  cases hindex

section

variable {writer : TarArchiveWriter} {fileName : String} {calls : List ArchiveCall}
  (h : Represents writer fileName calls) {times : CloseTimes} {file : Bytes}
  (hclose : writer.close times = some file)
include h hclose

theorem Represents.close_eq :
    writes calls ≠ [] ∧ file = bodyBytes (writes calls) ++ writer.trailerBytes times := by
  rw [TarArchiveWriter.close, h.file] at hclose
  split at hclose
  · cases hclose
  · rename_i hne
    cases hclose
    exact ⟨hne, rfl⟩

/-- A closed archive that opens through its index has no segment without content. -/
theorem content_ne_nil_of_index {index : SegmentIndex}
    (hparse : parseSegmentIndex file = .ok index) : ∀ write ∈ writes calls, write.content ≠ [] := by
  obtain ⟨hwrites, hfile⟩ := h.close_eq hclose
  have hfilelen : file.length = closedLength calls := by rw [hfile, h.length_close]
  have hrows : writer.sortedIndexEntries.length = (writes calls).length :=
    (sortedIndexEntries_perm writer).length_eq.trans h.length_indexEntries
  have htotal := le_blocks ((writes calls).length * 33 + 16)
  have hentries : index.entries = writer.sortedIndexEntries.map indexed := by
    refine entries_of_parseSegmentIndex (encodesIndex_indexEntryBytes _) (h.file_index times hfile)
      ?_ ?_ (blocks_mod _) ?_ hparse
    · rw [hrows]
      exact List.length_pos_iff.mpr hwrites
    · rw [hrows]
      exact htotal
    · rw [hfilelen, closedLength]
      omega
  intro write hwrite hempty
  obtain ⟨before, after, hsplit⟩ := List.append_of_mem hwrite
  have hrow : write.indexRow (bodySize before) ∈ writer.sortedIndexEntries := by
    rw [(sortedIndexEntries_perm writer).mem_iff, h.index, hsplit]
    exact indexRow_mem_layout before write after
  have hextent := index.extents (write.indexRow (bodySize before)).indexed
    (by rw [hentries]; exact List.mem_map_of_mem hrow)
  have hsize : 1 ≤ signed32 (UInt32.ofNat write.content.length) := hextent.2.2
  rw [hempty] at hsize
  exact absurd hsize (by decide)

end

/-- A closed archive with distinct identifiers that opens through its index holds what was
registered. -/
theorem roundTrips_of_index {fileName name other : String} {calls : List ArchiveCall}
    {writer : TarArchiveWriter} {times : CloseTimes} {file : Bytes} {archive : TarArchiveReader}
    (h : Represents writer fileName calls)
    (hdistinct : ((writes calls).map SegmentWrite.identifier).Nodup)
    (hclose : writer.close times = some file)
    (hopen : openFile name file = .ok archive)
    (hindexed : archive.isRecovered = false) : RoundTrips other calls file := by
  obtain ⟨hwrites, hfile⟩ := h.close_eq hclose
  obtain ⟨index, hparse⟩ : ∃ index, parseSegmentIndex file = .ok index := by
    rw [openFile] at hopen
    split at hopen
    · exact absurd hopen invalid_ne_ok
    split at hopen
    · rename_i parsed hparse
      exact ⟨parsed, hparse⟩
    · cases hopen
      cases hindexed
  have hlength : closedLength calls ≤ 2 ^ 31 - 1 := by
    by_contra hlong
    have hshape := (parseSegmentIndex_ok.mp hparse).1
    rw [validateArchiveShape, hfile, h.length_close] at hshape
    split at hshape
    · exact absurd hshape invalid_ne_ok
    split at hshape
    · exact absurd hshape invalid_ne_ok
    rw [if_pos (Nat.lt_of_not_le hlong)] at hshape
    exact absurd hshape invalid_ne_ok
  rw [hfile]
  exact roundTrips_of_length h hdistinct (content_ne_nil_of_index h hclose hparse) hwrites hlength

/-- **Archive round trip.**  For every sequence of accepted calls with distinct
identifiers and contents that are not empty, the closed file reopens with exactly what
was registered if and only if its length, trailers included, is one the reader
addresses. -/
theorem closed_archive_round_trips_iff {fileName : String} {calls : List ArchiveCall}
    {writer : TarArchiveWriter} {times : CloseTimes} {file : Bytes}
    (hdistinct : ((writes calls).map SegmentWrite.identifier).Nodup)
    (hcontent : ∀ write ∈ writes calls, write.content ≠ [])
    (hrun : (new fileName).run calls = .ok writer) (hclose : writer.close times = some file) :
    RoundTrips fileName calls file ↔ closedLength calls ≤ 2 ^ 31 - 1 := by
  have hrep := represents_run hrun
  obtain ⟨hwrites, rfl⟩ := hrep.close_eq hclose
  constructor
  · intro hround
    by_contra hlong
    refine not_roundTrips_of_length ?_ hround
    rw [hrep.length_close]
    exact Nat.lt_of_not_le hlong
  · intro hlength
    exact roundTrips_of_length hrep hdistinct hcontent hwrites hlength

/-- A bulk segment, a data segment with an edge to it and a binary reference, and binary references
of another generation. -/
def smallCalls : List ArchiveCall :=
  [.writeSegment ⟨0, ⟨2, 0xB000000000000000⟩, [7, 8], ⟨0, 0, false⟩, [], []⟩,
    .writeSegment ⟨0, ⟨1, 0xA000000000000001⟩, [7], ⟨1, 1, true⟩, [⟨2, 0xB000000000000000⟩], ["a"]⟩,
    .addBinaryReferences ⟨2, 1, false⟩ ⟨3, 0xA000000000000003⟩ ["b", "a"]]

theorem closed_archive_round_trips_small : ∃ writer file,
    (new "data00000a.tar").run smallCalls = .ok writer ∧ writer.close ⟨0, 0, 0⟩ = some file ∧
      RoundTrips "data00000a.tar" smallCalls file := by
  have hbody : (bodyBytes (writes smallCalls)).length ≤ 2 ^ 31 - 1 := by
    rw [length_bodyBytes]
    decide
  obtain ⟨writer, hrun⟩ : ∃ writer, (new "data00000a.tar").run smallCalls = .ok writer :=
    run_ok_of_length hbody
  have hrep := represents_run hrun
  have hclose : writer.close ⟨0, 0, 0⟩ =
      some (bodyBytes (writes smallCalls) ++ writer.trailerBytes ⟨0, 0, 0⟩) := by
    rw [TarArchiveWriter.close, hrep.file, if_neg (by decide)]
    rfl
  refine ⟨writer, _, hrun, hclose, ?_⟩
  refine (closed_archive_round_trips_iff (by decide) (by decide) hrun hclose).mpr ?_
  decide

/-! ## Past the limit -/

/-- A data segment of the maximal segment size. -/
def fullSegment (seed : Nat) : SegmentWrite :=
  ⟨0, ⟨UInt64.ofNat seed, 0xA000000000000000⟩, List.replicate 262144 0, ⟨0, 0, false⟩, [], []⟩

/-- As many full segments as the writer accepts. -/
def fullArchiveCalls : List ArchiveCall :=
  (List.range 8175).map fun seed => .writeSegment (fullSegment seed)

theorem writes_fullArchiveCalls : writes fullArchiveCalls = (List.range 8175).map fullSegment := by
  rw [writes, fullArchiveCalls, List.filterMap_map, ← List.filterMap_eq_map]
  rfl

theorem mem_fullArchiveCalls {write : SegmentWrite} (h : write ∈ writes fullArchiveCalls) :
    ∃ seed, seed < 8175 ∧ write = fullSegment seed := by
  rw [writes_fullArchiveCalls] at h
  obtain ⟨seed, hseed, rfl⟩ := mem_map.mp h
  exact ⟨seed, List.mem_range.mp hseed, rfl⟩

theorem length_fullSegment (seed : Nat) : (fullSegment seed).content.length = 262144 :=
  List.length_replicate

theorem bodySize_fullSegments (n : Nat) :
    bodySize ((List.range n).map fullSegment) = n * 262656 := by
  induction n with
  | zero => rfl
  | succ n ih =>
    rw [List.range_succ, List.map_append, bodySize_append, ih, List.map_singleton, bodySize_cons,
      length_fullSegment, Nat.add_mul]
    rfl

theorem closedLength_fullArchiveCalls : closedLength fullArchiveCalls = 2147486208 := by
  have hregistrations : registrations fullArchiveCalls = [] := by
    rw [registrations, fullArchiveCalls, List.filterMap_map, List.filterMap_eq_nil_iff]
    intro seed _
    rfl
  have hsources : registeredSources (writes fullArchiveCalls) = ∅ := by
    rw [Finset.eq_empty_iff_forall_notMem]
    intro source hsource
    obtain ⟨target, htarget⟩ := Finset.nonempty_iff_ne_empty.mpr (mem_registeredSources.mp hsource)
    obtain ⟨write, hwrite, -, hin⟩ := mem_registeredTargets.mp htarget
    obtain ⟨seed, -, rfl⟩ := mem_fullArchiveCalls hwrite
    cases hin
  have hcount : (writes fullArchiveCalls).length = 8175 := by
    rw [writes_fullArchiveCalls, List.length_map, List.length_range]
  have hgraph : graphSize (writes fullArchiveCalls) = 0 := by
    rw [graphSize, hsources, Finset.sum_empty]
  rw [closedLength, hregistrations, hgraph, hcount, writes_fullArchiveCalls, bodySize_fullSegments]
  rfl

/-- The writer accepts 8175 full segments, but their archive closes past the limit of the
reader and is opened by the recovery scan, without index, graph or catalog. -/
theorem full_archive_not_round_trips : ∃ writer file,
    ((writes fullArchiveCalls).map SegmentWrite.identifier).Nodup ∧
      (∀ write ∈ writes fullArchiveCalls, write.content ≠ []) ∧
      (new "data00000a.tar").run fullArchiveCalls = .ok writer ∧
      writer.close ⟨0, 0, 0⟩ = some file ∧
      ¬ RoundTrips "data00000a.tar" fullArchiveCalls file := by
  have hbody : (bodyBytes (writes fullArchiveCalls)).length ≤ 2 ^ 31 - 1 := by
    rw [length_bodyBytes, writes_fullArchiveCalls, bodySize_fullSegments]
    omega
  obtain ⟨writer, hrun⟩ : ∃ writer, (new "data00000a.tar").run fullArchiveCalls = .ok writer :=
    run_ok_of_length hbody
  have hrep := represents_run hrun
  have hne : writes fullArchiveCalls ≠ [] := by
    rw [writes_fullArchiveCalls]
    exact List.ne_nil_of_length_pos (by rw [List.length_map, List.length_range]; omega)
  refine ⟨writer, bodyBytes (writes fullArchiveCalls) ++ writer.trailerBytes ⟨0, 0, 0⟩, ?_, ?_,
    hrun, ?_, ?_⟩
  · rw [writes_fullArchiveCalls, List.map_map]
    refine List.Nodup.map_on ?_ List.nodup_range
    intro a ha b hb hab
    have hword := congrArg (fun s : SegmentIdentifier => s.mostSignificantBits.toNat) hab
    simp only [Function.comp_apply, fullSegment, UInt64.toNat_ofNat'] at hword
    rw [List.mem_range] at ha hb
    omega
  · intro write hwrite
    obtain ⟨seed, -, rfl⟩ := mem_fullArchiveCalls hwrite
    exact List.ne_nil_of_length_pos (by rw [length_fullSegment]; omega)
  · rw [TarArchiveWriter.close, hrep.file, if_neg hne]
    rfl
  · refine not_roundTrips_of_length ?_
    rw [hrep.length_close, closedLength_fullArchiveCalls]
    omega

end Froe
