import Froe.Reclaim.Gate
import Froe.Reclaim.SweepExact
import Froe.Store.StaleArchives

/-!
# The guard of the head

Before a cleanup, the segments that the head reaches are traced through the headers, and
the rule of the mark phase is asked about the generation of each.  The mark phase itself
looks at the graphs of the archives and at the order in which they were written.  In a
store that is certified and in write order the guard is enough: the mark phase reclaims no
segment that the head reaches (`head_closure_not_reclaimable`).
-/

namespace Froe

open List (map_cons mem_cons mem_map_of_mem)
open Except (bind_ok_iff)

/-! ## Planning a cleanup -/

/-- The archive of every segment. -/
abbrev SegmentLocations := Finmap fun _ : SegmentIdentifier => String

/-- Records where a segment is, and refuses one that is in two archives. -/
def locateSegment (archive : TarArchiveReader) (locations : SegmentLocations)
    (identifier : SegmentIdentifier) : Result SegmentLocations :=
  match locations.lookup identifier with
  | some previous =>
    invalid s!"segment {identifier.display} occurs in both active archives {previous} and {archive.fileName}; refusing cleanup because a store-wide reclaim decision could remove the authoritative copy"
  | none => .ok (locations.insert identifier archive.fileName)

/-- Refuses a segment in two archives. -/
def uniqueActiveSegmentLocations (archives : List TarArchiveReader) : Result SegmentLocations :=
  archives.foldlM (fun locations archive =>
    archive.segmentIdentifiers.foldlM (locateSegment archive) locations) ∅

/-- What a cleanup will do. -/
structure StandaloneSegmentCompactionPlan where
  archives : List PlannedArchiveSweep
  markedSegments : Nat
  reclaimable : Finset SegmentIdentifier

/-- The archive of a plan. -/
def PlannedArchiveSweep.fileName : PlannedArchiveSweep → String
  | .remove fileName .. | .rewrite fileName .. | .deferredBySavings fileName ..
  | .deferredAtLastGeneration fileName .. | .blockedByOccupiedGeneration fileName .. => fileName

/-- Marks the segments of the archives behind the current head and plans the sweep of each
archive. -/
def analyzeStandaloneSegmentCleanup (directory : Directory) (listing : List String)
    (archives : List TarArchiveReader) (rule : ReclaimRule)
    (currentHeadSegment : SegmentIdentifier) (protectedSegments : Finset SegmentIdentifier)
    (rewritePolicy : ArchiveRewritePolicy) : Result StandaloneSegmentCompactionPlan := do
  let _ ← uniqueActiveSegmentLocations archives
  let marked ← markArchives ⟨rule, protectedSegments⟩ archives ⟨∅, ∅, some currentHeadSegment⟩
  match marked.aheadOfRoot with
  | some missingRoot =>
    invalid s!"current head segment {missingRoot.display} was not encountered in global reverse archive order; refusing to apply the stateful dangling-future rule"
  | none =>
    let planned ← archives.mapM fun archive =>
      planArchiveSweep directory listing archive marked.reclaimable rewritePolicy ∅
    return ⟨planned.reduceOption.mergeSort fun a b => a.fileName ≤ b.fileName,
      marked.reclaimable.card, marked.reclaimable⟩

/-! ## The guard -/

/-- Adds the segments that some segments reach through the references in their headers. -/
def SegmentProvider.extendSegmentClosure (provider : SegmentProvider) (pending : List SegmentIdentifier)
    (seen : Finset SegmentIdentifier) : Option (Result (Finset SegmentIdentifier)) :=
  match pending with
  | [] => some (.ok seen)
  | identifier :: pending =>
    if identifier ∈ seen then provider |>.extendSegmentClosure pending seen
    else
      match provider identifier with
      | .error error => some (.error error)
      | .ok segment =>
        provider |>.extendSegmentClosure (pending ++ segment.structure_.referencedSegments)
          (insert identifier seen)
partial_fixpoint

/-- The generation in a segment header. -/
def generationFromHeader (provider : SegmentProvider) (identifier : SegmentIdentifier) :
    Result GarbageCollectionGeneration := do
  let view ← provider identifier
  if !identifier.isDataSegment then
    invalid s!"journal head segment {identifier.display} is not a data segment"
  else return view.structure_.garbageCollectionGeneration

abbrev IndexGenerations := Finmap fun _ : SegmentIdentifier => GarbageCollectionGeneration

/-- A generation in an error. -/
def GarbageCollectionGeneration.display (generation : GarbageCollectionGeneration) : String :=
  let number := toString generation.generation.toInt
  let full := toString generation.fullGeneration.toInt
  let compacted := toString generation.isCompacted
  s!"GarbageCollectionGeneration \x7b generation: {number}, full_generation: {full}, is_compacted: {compacted} \x7d"

/-- Checks one segment that the head reaches.  Only data segments have a generation. -/
def validateReclaimReference (provider : SegmentProvider)
    (activeIndexGenerations : IndexGenerations) (rule : ReclaimRule)
    (identifier : SegmentIdentifier) : Result Unit :=
  if !identifier.isDataSegment then .ok ()
  else do
    let header ← generationFromHeader provider identifier
    match activeIndexGenerations.lookup identifier with
    | none =>
      invalid s!"current head reaches data segment {identifier.display}, but no active archive index describes it"
    | some indexed =>
      if indexed ≠ header then
        invalid s!"segment {identifier.display} has index generation {indexed.display}, but its header says {header.display}"
      else if rule.reclaims header then
        invalid s!"current head reaches data segment {identifier.display} in reclaimable generation {header.display}; refusing to trust generation cleanup"
      else .ok ()

/-- Checks the segments that the head reaches, in the order of their set. -/
def validateReclaimReferenceInvariant (provider : SegmentProvider)
    (currentClosure : List SegmentIdentifier) (activeIndexGenerations : IndexGenerations)
    (rule : ReclaimRule) : Result Unit :=
  currentClosure.forM (validateReclaimReference provider activeIndexGenerations rule)

/-! ## What a closure holds -/

/-- A segment of a set refers to another one in its header. -/
def LinkedWithin (provider : SegmentProvider) (seen : Finset SegmentIdentifier)
    (source target : SegmentIdentifier) : Prop :=
  source ∈ seen ∧ ∃ segment, provider source = .ok segment ∧
    target ∈ segment.structure_.referencedSegments

/-- A path from the head to a segment through a set. -/
abbrev ReachedWithin (provider : SegmentProvider) (seen : Finset SegmentIdentifier) :=
  Relation.ReflTransGen (LinkedWithin provider seen)

variable {provider : SegmentProvider} {seen closure : Finset SegmentIdentifier}
  {identifier target : SegmentIdentifier} {rule : ReclaimRule} {archive : TarArchiveReader}
  {description : String} {expected next : ExpectedTrailers} {entry : SegmentIndexEntry}
  {locations final : SegmentLocations} {view : SegmentView} {entries : List MarkEntry}

section

variable {head : SegmentIdentifier}

theorem ReachedWithin.mono {seen' : Finset SegmentIdentifier} (h : seen ⊆ seen')
    (hreached : ReachedWithin provider seen head identifier) :
    ReachedWithin provider seen' head identifier :=
  Relation.ReflTransGen.mono (fun _ _ hlinked => ⟨h hlinked.1, hlinked.2⟩) _ _ hreached

/-- Whatever the trace sees, it has reached through what it sees. -/
theorem reachedWithin_of_closure {pending : List SegmentIdentifier}
    (h : provider.extendSegmentClosure pending seen = some (.ok closure))
    (hpending : ∀ identifier ∈ pending, ReachedWithin provider seen head identifier)
    (hseen : ∀ identifier ∈ seen, ReachedWithin provider seen head identifier) :
    ∀ identifier ∈ closure, ReachedWithin provider closure head identifier := by
  have hall := SegmentProvider.extendSegmentClosure.partial_correctness provider
    (fun pending seen result => ∀ closure, result = .ok closure →
      (∀ identifier ∈ pending, ReachedWithin provider seen head identifier) →
      (∀ identifier ∈ seen, ReachedWithin provider seen head identifier) →
      ∀ identifier ∈ closure, ReachedWithin provider closure head identifier)
    (by
      intro extend ih pending seen result hresult closure hclosure hpending hseen
      cases pending with
      | nil =>
        cases hresult
        cases hclosure
        exact hseen
      | cons identifier pending =>
        rw [List.forall_mem_cons] at hpending
        simp only at hresult
        split at hresult
        · exact ih _ _ _ hresult closure hclosure hpending.2 hseen
        · split at hresult
          · cases hresult
            cases hclosure
          · rename_i segment hsegment
            have hgrow : seen ⊆ insert identifier seen := Finset.subset_insert ..
            refine ih _ _ _ hresult closure hclosure ?_ ?_
            · intro next hnext
              rcases List.mem_append.mp hnext with hnext | hnext
              · exact (hpending.2 next hnext).mono hgrow
              · exact (hpending.1.mono hgrow).tail
                  ⟨Finset.mem_insert_self .., segment, hsegment, hnext⟩
            · intro other hother
              rcases Finset.mem_insert.mp hother with rfl | hother
              · exact hpending.1.mono hgrow
              · exact (hseen other hother).mono hgrow)
  exact hall pending seen _ h closure rfl hpending hseen

/-- The closure of the head holds what the head reaches through it. -/
theorem reachedWithin_of_head_closure
    (h : provider.extendSegmentClosure [head] ∅ = some (.ok closure)) :
    ∀ identifier ∈ closure, ReachedWithin provider closure head identifier := by
  refine reachedWithin_of_closure h ?_ ?_
  · intro identifier hin
    rw [List.mem_singleton.mp hin]
  · intro identifier hin
    exact absurd hin (Finset.notMem_empty _)

end

theorem kept_of_guard {closure : List SegmentIdentifier} {generations : IndexGenerations}
    (h : validateReclaimReferenceInvariant provider closure generations rule = .ok ()) (hin : identifier ∈ closure)
    (hdata : identifier.isDataSegment = true) :
    ∃ segment, provider identifier = .ok segment ∧
      rule.reclaims segment.structure_.garbageCollectionGeneration = false := by
  have hcheck := Except.forM_ok_mem h hin
  rw [validateReclaimReference, hdata] at hcheck
  obtain ⟨header, hheader, hcheck⟩ := bind_ok_iff.mp hcheck
  rw [generationFromHeader] at hheader
  obtain ⟨segment, hsegment, hheader⟩ := bind_ok_iff.mp hheader
  rw [hdata] at hheader
  refine ⟨segment, hsegment, ?_⟩
  obtain rfl : segment.structure_.garbageCollectionGeneration = header := by
    exact Except.pure_ok_iff.mp hheader
  split at hcheck
  · exact absurd hcheck invalid_ne_ok
  · split at hcheck
    · exact absurd hcheck invalid_ne_ok
    · split at hcheck
      · exact absurd hcheck invalid_ne_ok
      · rename_i hkept
        rw [Bool.not_eq_true] at hkept
        exact hkept

/-! ## What a certificate says about references -/

section

variable (h : certifyEntry provider archive description expected entry = .ok next)
include h

/-- Certifying an entry says about its data segment what the header says. -/
theorem certifyEntry_data (hdata : entry.segmentIdentifier.isDataSegment = true) :
    ∃ bytes segment, archive.segmentData entry.segmentIdentifier = some bytes ∧
      ParsedSegment.parse entry.segmentIdentifier bytes = .ok segment ∧
      entry.garbageCollectionGeneration = segment.garbageCollectionGeneration ∧
      next.graph = if segment.referencedSegments.isEmpty then expected.graph
        else expected.graph.insert entry.segmentIdentifier segment.referencedSegments.toFinset := by
  rw [certifyEntry] at h
  obtain ⟨⟨⟩, -, h⟩ := bind_ok_iff.mp h
  rw [hdata] at h
  rw [Bool.not_true, if_neg Bool.false_ne_true] at h
  split at h
  · cases h
  · rename_i bytes hbytes
    obtain ⟨segment, hparse, h⟩ := bind_ok_iff.mp h
    split at h
    · exact absurd h invalid_ne_ok
    · rename_i hgeneration
      simp only [not_or, not_not] at hgeneration
      obtain ⟨blobIdentifiers, -, h⟩ := bind_ok_iff.mp h
      cases h
      refine ⟨bytes, segment, hbytes, hparse, ?_, ?_⟩
      · rw [SegmentIndexEntry.garbageCollectionGeneration,
          ParsedSegment.garbageCollectionGeneration, hgeneration.1, hgeneration.2.1,
          hgeneration.2.2]
      · rw [ExpectedTrailers.record, ParsedSegment.parse_identifier hparse]

/-- Certifying an entry says nothing about the other segments. -/
theorem certifyEntry_lookup_ne (hne : identifier ≠ entry.segmentIdentifier) :
    next.graph.lookup identifier = expected.graph.lookup identifier := by
  rcases (certifyEntry_ok h).2 with rfl | ⟨segment, blobIdentifiers, -, hidentifier, rfl⟩
  · rfl
  · rw [ExpectedTrailers.record]
    dsimp only
    split
    · rfl
    · rw [hidentifier]
      exact Finmap.lookup_insert_of_ne _ hne

end

/-- The expected graph has the references of each data segment of the archive. -/
theorem certifyEntries_lookup {entries : List SegmentIndexEntry} {start final : ExpectedTrailers}
    (h : entries.foldlM (certifyEntry provider archive description) start = .ok final)
    (hdistinct : (entries.map SegmentIndexEntry.segmentIdentifier).Nodup) (hentry : entry ∈ entries)
    (hdata : entry.segmentIdentifier.isDataSegment = true)
    (hfresh : start.graph.lookup entry.segmentIdentifier = none) :
    ∃ bytes segment, archive.segmentData entry.segmentIdentifier = some bytes ∧
      ParsedSegment.parse entry.segmentIdentifier bytes = .ok segment ∧
      entry.garbageCollectionGeneration = segment.garbageCollectionGeneration ∧
      (final.graph.lookup entry.segmentIdentifier).getD ∅ =
        segment.referencedSegments.toFinset := by
  induction entries generalizing start with
  | nil => cases hentry
  | cons first entries ih =>
    obtain ⟨next, hfirst, hrest⟩ := Except.foldlM_cons_ok_iff.mp h
    rw [map_cons, List.nodup_cons] at hdistinct
    rcases mem_cons.mp hentry with rfl | hin
    · obtain ⟨bytes, segment, hbytes, hparse, hgeneration, hgraph⟩ := certifyEntry_data hfirst hdata
      refine ⟨bytes, segment, hbytes, hparse, hgeneration, ?_⟩
      have hlater : final.graph.lookup entry.segmentIdentifier =
          next.graph.lookup entry.segmentIdentifier := by
        refine Except.foldlM_invariant (P := fun expected : ExpectedTrailers =>
          expected.graph.lookup entry.segmentIdentifier =
            next.graph.lookup entry.segmentIdentifier) ?_ hrest rfl
        intro other hother before after hbefore hstep
        rw [certifyEntry_lookup_ne hstep, hbefore]
        intro heq
        exact hdistinct.1 (heq ▸ mem_map_of_mem hother)
      rw [hlater, hgraph]
      split
      · rename_i hempty
        rw [hfresh, List.isEmpty_iff.mp hempty]
        rfl
      · rw [Finmap.lookup_insert]
        rfl
    · have hne : entry.segmentIdentifier ≠ first.segmentIdentifier := by
        intro heq
        exact hdistinct.1 (heq ▸ mem_map_of_mem hin)
      refine ih hrest hdistinct.2 hin ?_
      rw [certifyEntry_lookup_ne hfirst hne]
      exact hfresh

/-- In a certified archive the generation of a data segment and what it refers to are those
of its header. -/
theorem certified_segment
    (h : certifyActiveArchive provider archive = .ok ()) {index : SegmentIndex}
    (hindex : archive.index = some index)
    (hentry : entry ∈ index.entries) (hdata : entry.segmentIdentifier.isDataSegment = true) :
    ∃ bytes segment targets, archive.segmentData entry.segmentIdentifier = some bytes ∧
      ParsedSegment.parse entry.segmentIdentifier bytes = .ok segment ∧
      entry.garbageCollectionGeneration = segment.garbageCollectionGeneration ∧
      referencedSegmentsOf archive entry.segmentIdentifier = .ok targets ∧
      targets.toFinset = segment.referencedSegments.toFinset := by
  rw [certifyActiveArchive, hindex] at h
  obtain ⟨expected, hloop, htrailers⟩ := bind_ok_iff.mp h
  obtain ⟨hgraph, -⟩ := validateExactArchiveTrailers_ok_iff.mp htrailers
  obtain ⟨graph, hsome, hlookup⟩ := normalizedArchiveGraph_lookup hgraph
  obtain ⟨bytes, segment, hbytes, hparse, hgeneration, hreferences⟩ :=
    certifyEntries_lookup hloop (nodup_identifiers index) hentry hdata (Finmap.lookup_empty _)
  refine ⟨bytes, segment, (graph.references? entry.segmentIdentifier).getD [], hbytes, hparse,
    hgeneration, ?_, ?_⟩
  · rw [referencedSegmentsOf, hsome]
  · rw [hlookup] at hreferences
    rw [← hreferences]
    cases graph.references? entry.segmentIdentifier with
    | none => rfl
    | some targets => rfl

/-! ## The segments of a store -/

/-- Locating segments one after the other finds each once. -/
theorem nodup_of_located {identifiers : List SegmentIdentifier}
    (h : identifiers.foldlM (locateSegment archive) locations = .ok final) :
    identifiers.Nodup ∧ (∀ identifier ∈ identifiers, identifier ∉ locations) ∧
      ∀ identifier, identifier ∈ final ↔ identifier ∈ locations ∨ identifier ∈ identifiers := by
  induction identifiers generalizing locations with
  | nil =>
    cases h
    simp
  | cons identifier identifiers ih =>
    obtain ⟨next, hfirst, hrest⟩ := Except.foldlM_cons_ok_iff.mp h
    rw [locateSegment] at hfirst
    split at hfirst
    · exact absurd hfirst invalid_ne_ok
    · rename_i hnone
      cases hfirst
      obtain ⟨hnodup, hfresh, hmem⟩ := ih hrest
      simp only [Finmap.mem_insert, not_or] at hfresh hmem
      refine ⟨List.nodup_cons.mpr ⟨fun hin => (hfresh _ hin).1 rfl, hnodup⟩, ?_, ?_⟩
      · rw [List.forall_mem_cons]
        exact ⟨Finmap.lookup_eq_none.mp hnone, fun other hother => (hfresh other hother).2⟩
      · intro other
        rw [hmem, mem_cons, or_assoc, or_left_comm]

theorem nodup_of_unique {archives : List TarArchiveReader}
    (h : archives.foldlM (fun locations archive =>
      archive.segmentIdentifiers.foldlM (locateSegment archive) locations) locations = .ok final) :
    (archives.flatMap TarArchiveReader.segmentIdentifiers).Nodup ∧
      ∀ identifier ∈ archives.flatMap TarArchiveReader.segmentIdentifiers,
        identifier ∉ locations := by
  induction archives generalizing locations with
  | nil => exact ⟨List.nodup_nil, by simp⟩
  | cons archive archives ih =>
    obtain ⟨next, hfirst, hrest⟩ := Except.foldlM_cons_ok_iff.mp h
    obtain ⟨hnodup, hfresh, hmem⟩ := nodup_of_located hfirst
    obtain ⟨hlater, hlaterFresh⟩ := ih hrest
    simp only [hmem, not_or] at hlaterFresh
    rw [List.flatMap_cons]
    refine ⟨List.nodup_append.mpr ⟨hnodup, hlater, ?_⟩, ?_⟩
    · rintro identifier hin other hother rfl
      exact (hlaterFresh identifier hother).2 hin
    · intro identifier hin
      rcases List.mem_append.mp hin with hin | hin
      · exact hfresh identifier hin
      · exact (hlaterFresh identifier hin).1

theorem markEntries_identifiers (reader : TarArchiveReader) :
    ((markEntries reader).map MarkEntry.identifier).Perm reader.segmentIdentifiers := by
  have hsame : (unsortedMarkEntries reader).map MarkEntry.identifier =
      reader.segmentIdentifiers := by
    rw [unsortedMarkEntries]
    cases hindex : reader.index with
    | none =>
      simp only [List.map_map]
      exact List.zipIdx_map_fst 0 _
    | some index =>
      rw [segmentIdentifiers_of_index hindex]
      simp
  rw [← hsame]
  exact (List.perm_insertionSort _ _).map _

theorem writeOrder_perm (archives : List TarArchiveReader) :
    (writeOrder archives).Perm (archives.flatMap TarArchiveReader.segmentIdentifiers) := by
  rw [writeOrder]
  refine ((List.reverse_perm archives).flatMap_right _).trans ?_
  exact List.Perm.flatMap_left _ fun reader _ => markEntries_identifiers reader

theorem isDataSegment_of_references {bytes : Bytes}
    {segment : ParsedSegment} (h : ParsedSegment.parse identifier bytes = .ok segment) (htarget : target ∈ segment.referencedSegments) :
    identifier.isDataSegment = true := by
  rw [ParsedSegment.parse] at h
  split at h
  · exact absurd h invalid_ne_ok
  · split at h
    · exact absurd h invalid_ne_ok
    · cases h
      cases htarget
    · rename_i hkind
      exact SegmentIdentifier.kind_eq_data.mp hkind

theorem isDataSegment_of_view {archives : List TarArchiveReader} (h : repositoryProvider archives identifier = .ok view) (htarget : target ∈ view.structure_.referencedSegments) :
    identifier.isDataSegment = true := by
  rw [repositoryProvider] at h
  split at h
  · cases h
  · obtain ⟨segment, hparse, h⟩ := bind_ok_iff.mp h
    cases h
    exact isDataSegment_of_references hparse htarget

/-- A data segment as a certified store serves it and as the mark phase sees it. -/
theorem served_data {archives : List TarArchiveReader} (hcertified : ∀ archive ∈ archives,
      certifyActiveArchive (repositoryProvider archives) archive = .ok ())
    (hview : repositoryProvider archives identifier = .ok view)
    (hdata : identifier.isDataSegment = true) :
    ∃ reader ∈ archives, ∃ entry ∈ markEntries reader, entry.identifier = identifier ∧
      entry.generation = some view.structure_.garbageCollectionGeneration ∧
      ∃ targets, referencedSegmentsOf reader identifier = .ok targets ∧
        ∀ target, target ∈ targets ↔ target ∈ view.structure_.referencedSegments := by
  rw [repositoryProvider] at hview
  split at hview
  · cases hview
  · rename_i bytes hserved
    obtain ⟨segment, hparse, hview⟩ := bind_ok_iff.mp hview
    cases hview
    rw [servedSegment, Option.bind_eq_bind, Option.bind_eq_some_iff] at hserved
    obtain ⟨reader, hfind, hbytes⟩ := hserved
    have hreader := List.mem_of_find?_eq_some hfind
    have hlisted : identifier ∈ reader.segmentIdentifiers := by
      simpa using List.find?_some hfind
    obtain ⟨index, graph, references, hcertificate⟩ :=
      certified_of_certifyActiveArchive (hcertified reader hreader)
    rw [segmentIdentifiers_of_index hcertificate.indexed, List.mem_map] at hlisted
    obtain ⟨entry, hentry, rfl⟩ := hlisted
    obtain ⟨bytes', segment', targets, hbytes', hparse', hgeneration, htargets, hsame⟩ :=
      certified_segment (hcertified reader hreader) hcertificate.indexed hentry hdata
    rw [hbytes] at hbytes'
    cases hbytes'
    rw [hparse] at hparse'
    cases hparse'
    refine ⟨reader, hreader, ⟨entry.segmentIdentifier, some entry.garbageCollectionGeneration,
      entry.position⟩, ?_, rfl, ?_, targets, htargets, ?_⟩
    · rw [markEntries, List.mem_insertionSort, unsortedMarkEntries, hcertificate.indexed]
      exact mem_map_of_mem hentry
    · rw [hgeneration]
    · intro target
      rw [← List.mem_toFinset, hsame, List.mem_toFinset]

/-! ## Safety of the head -/

/-- While the root is not reached, the entries before are others. -/
theorem foldl_passRoot_some {head root : SegmentIdentifier}
    (h : entries.foldl passRoot (some head) = some root) :
    root = head ∧ head ∉ entries.map MarkEntry.identifier := by
  induction entries with
  | nil =>
    cases h
    exact ⟨rfl, List.not_mem_nil⟩
  | cons entry entries ih =>
    rw [List.foldl_cons, passRoot] at h
    split at h
    · rw [foldl_passRoot_none] at h
      cases h
    · rename_i hne
      obtain ⟨hroot, hnot⟩ := ih h
      refine ⟨hroot, ?_⟩
      rw [map_cons, mem_cons, not_or]
      exact ⟨fun heq => hne (congrArg some heq), hnot⟩

theorem foldl_passRoot_of_not_mem {head : SegmentIdentifier}
    (h : head ∉ entries.map MarkEntry.identifier) :
    entries.foldl passRoot (some head) = some head := by
  induction entries with
  | nil => rfl
  | cons entry entries ih =>
    rw [map_cons, mem_cons, not_or] at h
    rw [List.foldl_cons, passRoot, if_neg (by simpa using h.1)]
    exact ih h.2

/-- The root is passed on from visit to visit. -/
theorem aheadOfRoot_of_mark {policy : ReclaimPolicy} {archives : List TarArchiveReader}
    {state final : MarkState} (h : markArchives policy archives state = .ok final) :
    final.aheadOfRoot = ((visitOrder archives).map Prod.snd).foldl passRoot state.aheadOfRoot := by
  rw [markArchives_eq] at h
  generalize visitOrder archives = visits at h
  induction visits generalizing state with
  | nil =>
    cases h
    rfl
  | cons visit visits ih =>
    obtain ⟨next, hfirst, hrest⟩ := Except.foldlM_cons_ok_iff.mp h
    rw [ih hrest, (markEntry_refines hfirst).2]
    rfl

section Head

variable {archives : List TarArchiveReader} {head : SegmentIdentifier}

variable {policy : ReclaimPolicy} {identifier : SegmentIdentifier}

/-- What is not newer than the head is visited behind it. -/
theorem not_dangling_of_not_newer {final : MarkState}
    (hmark : markArchives policy archives ⟨∅, ∅, some head⟩ = .ok final)
    (hpassed : final.aheadOfRoot = none)
    (holder : ∀ older newer, writeOrder archives = older ++ head :: newer →
      identifier ∉ newer) : ¬ Dangling archives (some head) identifier := by
  rintro ⟨before, reader, entry, after, hsplit, rfl, hdangling⟩
  rw [isDanglingFuture, Bool.and_eq_true, passRoot] at hdangling
  obtain ⟨hroot, -⟩ := hdangling
  split at hroot
  · cases hroot
  · rename_i hne
    obtain ⟨root, hsome⟩ := Option.isSome_iff_exists.mp hroot
    obtain ⟨rfl, hbefore⟩ := foldl_passRoot_some hsome
    rw [hsome, Option.some.injEq] at hne
    have hfinal := aheadOfRoot_of_mark hmark
    rw [hpassed, hsplit, List.map_append, List.foldl_append, hsome, map_cons, List.foldl_cons,
      passRoot, if_neg (by simpa using hne)] at hfinal
    have hafter : root ∈ after.map fun visit => visit.2.identifier := by
      by_contra hnot
      rw [foldl_passRoot_of_not_mem (by simpa using hnot)] at hfinal
      cases hfinal
    obtain ⟨newer, older, hparts⟩ := List.append_of_mem hafter
    refine holder older.reverse (newer.reverse ++ entry.identifier ::
      (before.map fun visit => visit.2.identifier).reverse) ?_ (by simp)
    rw [writeOrder_eq, hsplit, List.map_append, map_cons, hparts]
    simp

/-- What the head reaches was not written after it. -/
theorem not_newer_of_reached (hunique : (writeOrder archives).Nodup)
    (hordered : WrittenAfterReferences archives) (hcertified : ∀ archive ∈ archives,
      certifyActiveArchive (repositoryProvider archives) archive = .ok ())
    {seen : Finset SegmentIdentifier}
    (h : ReachedWithin (repositoryProvider archives) seen head identifier) {older newer : List
      SegmentIdentifier} (hsplit : writeOrder archives = older ++ head :: newer) :
    identifier ∉ newer := by
  have hnodup := hunique
  rw [hsplit, List.nodup_append, List.nodup_cons] at hnodup
  induction h with
  | refl => exact hnodup.2.1.1
  | @tail source target _ hlinked ih =>
    obtain ⟨-, view, hview, htarget⟩ := hlinked
    have hdata : source.isDataSegment = true := isDataSegment_of_view hview htarget
    obtain ⟨reader, hreader, entry, hentry, rfl, -, targets, htargets, hsame⟩ :=
      served_data hcertified hview hdata
    have hrefers : Refers archives entry.identifier target :=
      ⟨reader, hreader, ⟨entry, hentry, rfl⟩, targets, htargets, (hsame target).mpr htarget⟩
    have hin : entry.identifier ∈ writeOrder archives := by
      rw [writeOrder, List.mem_flatMap]
      exact ⟨reader, List.mem_reverse.mpr hreader, mem_map_of_mem hentry⟩
    rw [hsplit, List.mem_append, mem_cons] at hin
    rcases hin with hin | hin | hin
    · obtain ⟨before, between, hparts⟩ := List.append_of_mem hin
      have hnot := hordered before entry.identifier (between ++ head :: newer)
        (by rw [hsplit, hparts]; simp) hdata target hrefers
      exact fun hnewer => hnot (List.mem_append_right _ (List.mem_cons_of_mem _ hnewer))
    · exact hordered older entry.identifier newer (by rw [hsplit, hin]) hdata target hrefers
    · exact absurd hin ih

/-- The head itself is never reclaimed. -/
theorem head_not_reclaimable {final : MarkState} (hunique : (writeOrder archives).Nodup)
    (hmark : markArchives policy archives ⟨∅, ∅, some head⟩ = .ok final) :
    head ∉ final.reclaimable := by
  intro hin
  obtain ⟨before, reader, entry, after, hsplit, rfl, hreclaims⟩ :=
    exists_visit_of_mem_reclaimable hunique hmark hin
  have hbefore : entry.identifier ∉ (before.map Prod.snd).map MarkEntry.identifier := by
    rw [writeOrder_eq, List.nodup_reverse, hsplit, List.map_append, List.nodup_append] at hunique
    intro h
    refine hunique.2.2 entry.identifier ?_ entry.identifier (by simp) rfl
    simpa using h
  rw [foldl_passRoot_of_not_mem hbefore, reclaims, if_pos (.inl rfl)] at hreclaims
  cases hreclaims

end Head

/-- What a plan marks is what the mark phase reclaims, and the mark phase has passed the
head. -/
theorem analyze_ok {directory : Directory} {listing : List String}
    {archives : List TarArchiveReader} {head : SegmentIdentifier}
    {protectedSegments : Finset SegmentIdentifier} {rewritePolicy : ArchiveRewritePolicy}
    {plan : StandaloneSegmentCompactionPlan}
    (h : analyzeStandaloneSegmentCleanup directory listing archives rule head protectedSegments
      rewritePolicy = .ok plan) :
    (writeOrder archives).Nodup ∧ ∃ marked,
      markArchives ⟨rule, protectedSegments⟩ archives ⟨∅, ∅, some head⟩ = .ok marked ∧
        marked.aheadOfRoot = none ∧ plan.reclaimable = marked.reclaimable := by
  rw [analyzeStandaloneSegmentCleanup] at h
  obtain ⟨locations, hlocations, h⟩ := bind_ok_iff.mp h
  obtain ⟨marked, hmarked, h⟩ := bind_ok_iff.mp h
  refine ⟨(writeOrder_perm archives).nodup_iff.mpr (nodup_of_unique hlocations).1, marked, hmarked,
    ?_⟩
  split at h
  · exact absurd h invalid_ne_ok
  · rename_i hpassed
    obtain ⟨planned, -, h⟩ := bind_ok_iff.mp h
    cases h
    exact ⟨hpassed, rfl⟩

/-- A cleanup reclaims no segment that the head reaches, when the guard accepts what the head
reaches.  The archives are certified, as they are before every cleanup, and in write order. -/
theorem head_closure_not_reclaimable {directory : Directory} {listing : List String}
    {archives : List TarArchiveReader} {rule : ReclaimRule} {head : SegmentIdentifier}
    {protectedSegments : Finset SegmentIdentifier} {rewritePolicy : ArchiveRewritePolicy}
    {plan : StandaloneSegmentCompactionPlan} {closure : Finset SegmentIdentifier}
    {order : List SegmentIdentifier} {generations : IndexGenerations}
    (hordered : WrittenAfterReferences archives) (hcertified : ∀ archive ∈ archives,
      certifyActiveArchive (repositoryProvider archives) archive = .ok ())
    (hclosure : (repositoryProvider archives).extendSegmentClosure [head] ∅ = some (.ok closure))
    (horder : order.toFinset = closure)
    (hguard : validateReclaimReferenceInvariant (repositoryProvider archives) order generations
      rule = .ok ())
    (hplan : analyzeStandaloneSegmentCleanup directory listing archives rule head
      protectedSegments rewritePolicy = .ok plan) :
    ∀ identifier ∈ closure, identifier ∉ plan.reclaimable := by
  obtain ⟨hunique, marked, hmark, hpassed, hreclaimable⟩ := analyze_ok hplan
  rw [hreclaimable]
  have hreached := reachedWithin_of_head_closure hclosure
  have hnot : ∀ identifier ∈ closure, ¬ Dangling archives (some head) identifier := by
    intro identifier hin
    refine not_dangling_of_not_newer hmark hpassed fun older newer hsplit => ?_
    exact not_newer_of_reached hunique hordered hcertified (hreached identifier hin) hsplit
  have hdata : ∀ identifier ∈ closure, identifier.isDataSegment = true →
      identifier ∉ marked.reclaimable := by
    intro identifier hin hdata hmarked
    obtain ⟨view, hview, hkept⟩ := kept_of_guard hguard
      (List.mem_toFinset.mp (horder ▸ hin)) hdata
    obtain ⟨reader, hreader, entry, hentry, rfl, hgeneration, -⟩ :=
      served_data hcertified hview hdata
    refine hnot _ hin (dangling_of_kept_generation hunique hmark hreader hentry hdata ?_ hmarked)
    intro generation hsome
    rw [hgeneration] at hsome
    obtain rfl := Option.some.inj hsome
    exact hkept
  intro identifier hin hmarked
  cases hkind : identifier.isDataSegment with
  | true => exact hdata identifier hin hkind hmarked
  | false =>
    -- a bulk segment is the head or something that a data segment of the closure refers to
    rcases (hreached identifier hin).cases_tail with rfl | ⟨source, -, hsource, hlinked⟩
    · exact head_not_reclaimable hunique hmark hmarked
    · obtain ⟨view, hview, htarget⟩ := hlinked
      have hsourceData := isDataSegment_of_view hview htarget
      obtain ⟨reader, hreader, entry, hentry, rfl, -, targets, htargets, hsame⟩ :=
        served_data hcertified hview hsourceData
      have hrefers : Refers archives entry.identifier identifier :=
        ⟨reader, hreader, ⟨entry, hentry, rfl⟩, targets, htargets, (hsame _).mpr htarget⟩
      exact hnot identifier hin (dangling_of_kept_reference hunique hordered hmark hsourceData
        (hdata _ hsource hsourceData) hrefers hkind hmarked)

/-! Archives of one segment, without a reference in the trailers. -/

/-- What an archive with a single write holds. -/
structure OnlyHolds (archive : TarArchiveReader) (write : SegmentWrite) : Prop where
  index : ∃ index, archive.index = some index ∧
    index.entries = writtenEntries [.writeSegment write] ∧
    ∀ entry ∈ index.entries, archive.validateIndexedSegmentEntry entry.segmentIdentifier = .ok ()
  identifiers : archive.segmentIdentifiers = [write.identifier]
  marks : markEntries archive = (writtenEntries [.writeSegment write]).map fun entry =>
    ⟨entry.segmentIdentifier, some entry.garbageCollectionGeneration, entry.position⟩
  graph : archive.segmentGraph = some ⟨[]⟩
  catalog : archive.binaryReferences = some ⟨[]⟩
  data : archive.segmentData write.identifier = some write.content

theorem exists_onlyHolds {write : SegmentWrite} (fileName : String)
    (hsources : registeredSources (writes [.writeSegment write]) = ∅)
    (hgenerations : registeredGenerations (registrations [.writeSegment write]) = ∅)
    (hcontent : write.content ≠ []) (hlength : closedLength [.writeSegment write] ≤ 2 ^ 31 - 1) :
    ∃ archive, OnlyHolds archive write ∧ archive.fileName = fileName := by
  have hbody : (bodyBytes (writes [.writeSegment write])).length ≤ 2 ^ 31 - 1 := by
    rw [length_bodyBytes]
    rw [closedLength] at hlength
    omega
  obtain ⟨writer, hrun⟩ := @run_ok_of_length fileName _ hbody
  obtain ⟨archive, index, hopen, hindex, hholds⟩ :
      RoundTrips fileName [.writeSegment write]
        (bodyBytes (writes [.writeSegment write]) ++ writer.trailerBytes ⟨0, 0, 0⟩) :=
    roundTrips_of_length (represents_run hrun) (List.nodup_singleton _)
      (fun other hother => by rw [List.mem_singleton.mp hother]; exact hcontent)
      (List.cons_ne_nil _ _) hlength
  have hentries : index.entries = writtenEntries [.writeSegment write] :=
    List.perm_singleton.mp hholds.entries
  refine ⟨archive, ⟨⟨index, hindex, hentries, hholds.valid⟩, ?_, ?_, ?_, ?_, ?_⟩,
    TarArchiveReader.openFile_fileName hopen⟩
  · rw [segmentIdentifiers_of_index hindex, hentries]
    rfl
  · rw [markEntries, unsortedMarkEntries, hindex]
    simp only [hentries]
    rfl
  · rw [hholds.graph, registeredGraph, hsources, Finset.sort_empty]
    rfl
  · rw [hholds.catalog, registeredCatalog, hgenerations, Finset.sort_empty]
    rfl
  · exact (hholds.data write (List.mem_singleton_self _)).2

/-- The write of a head without references and records. -/
def headWrite : SegmentWrite :=
  ⟨0, ⟨1, 0xA000000000000001⟩, "0aK".utf8 ++ [13] ++ List.replicate 28 0, ⟨0, 0, false⟩, [], []⟩

/-- What a parsed segment is read for here. -/
def headerParts (write : SegmentWrite) :
    Option (GarbageCollectionGeneration × List SegmentIdentifier × List RecordTableEntry) :=
  (ParsedSegment.parse write.identifier write.content).toOption.map fun segment =>
    (segment.garbageCollectionGeneration, segment.referencedSegments, segment.recordTable)

theorem parse_of_headerParts {write : SegmentWrite} {generation : GarbageCollectionGeneration}
    {references : List SegmentIdentifier} {records : List RecordTableEntry}
    (h : headerParts write = some (generation, references, records)) : ∃ segment,
    ParsedSegment.parse write.identifier write.content = .ok segment ∧
      segment.garbageCollectionGeneration = generation ∧
      segment.referencedSegments = references ∧ segment.recordTable = records := by
  rw [headerParts] at h
  cases hparse : ParsedSegment.parse write.identifier write.content with
  | error error =>
    rw [hparse] at h
    cases h
  | ok segment =>
    rw [hparse] at h
    have hparts := Option.some.inj h
    simp only [Prod.mk.injEq] at hparts
    exact ⟨segment, rfl, hparts⟩

/-- A store whose only segment is the head. -/
theorem head_closure_not_reclaimable_single : ∃ (archives : List TarArchiveReader)
    (plan : StandaloneSegmentCompactionPlan),
    analyzeStandaloneSegmentCleanup ∅ [] archives ⟨⟨1, 1, true⟩, .full, 2⟩ headWrite.identifier ∅
      .oakSavingsGate = .ok plan ∧ headWrite.identifier ∉ plan.reclaimable := by
  obtain ⟨archive, hholds, -⟩ := @exists_onlyHolds headWrite "data00000a.tar" (by decide)
    (by decide) (by decide) (by decide)
  obtain ⟨index, hindex, hwritten, hvalid⟩ := hholds.index
  have hentries : index.entries = [⟨headWrite.identifier, 512, 32, 0, 0, false⟩] := hwritten
  have hmarks : markEntries archive = [⟨headWrite.identifier, some ⟨0, 0, false⟩, 512⟩] :=
    hholds.marks
  obtain ⟨segment, hparse, hgeneration, hreferences, hrecords⟩ :=
    @parse_of_headerParts headWrite ⟨0, 0, false⟩ [] [] (by decide +kernel)
  have hserved : repositoryProvider [archive] headWrite.identifier =
      .ok ⟨segment, headWrite.content⟩ := by
    rw [repositoryProvider, servedSegment_singleton, hholds.identifiers,
      if_pos (List.mem_singleton_self _), hholds.data]
    simp only [hparse]
    rfl
  have hentry : certifyEntry (repositoryProvider [archive]) archive
      s!"active archive {archive.fileName}" ⟨∅, ∅⟩ ⟨headWrite.identifier, 512, 32, 0, 0, false⟩ =
        .ok ⟨∅, ∅⟩ := by
    have hvalid := hvalid ⟨headWrite.identifier, 512, 32, 0, 0, false⟩
      (by rw [hentries]; exact List.mem_singleton_self _)
    have hheader : segment.generation = 0 ∧ segment.fullGeneration = 0 ∧
        segment.isCompacted = false := by
      rw [ParsedSegment.garbageCollectionGeneration] at hgeneration
      simpa using hgeneration
    have hblobs : readBlobIdentifiers (repositoryProvider [archive])
        ⟨segment, headWrite.content⟩ = .ok [] := by
      rw [readBlobIdentifiers, hrecords]
      rfl
    rw [certifyEntry, hvalid, Except.ok_bind_eq, if_neg (by decide), hholds.data]
    simp only [hparse, Except.ok_bind_eq, hheader, hblobs]
    rw [if_neg (by decide)]
    simp only [Except.mapError, Except.ok_bind_eq, ExpectedTrailers.record, hreferences]
    rfl
  have hcertified : certifyActiveArchive (repositoryProvider [archive]) archive = .ok () := by
    rw [certifyActiveArchive, hindex]
    simp only [hentries]
    rw [List.foldlM_cons, hentry]
    refine validateExactArchiveTrailers_ok_iff.mpr ⟨?_, ?_⟩
    · rw [normalizedArchiveGraph, hholds.graph]
      rfl
    · rw [normalizedArchiveBinaryReferences, hholds.catalog]
      rfl
  have hordered : WrittenAfterReferences [archive] := by
    rintro older source newer - - target ⟨reader, hreader, -, targets, htargets, htarget⟩
    rw [List.mem_singleton.mp hreader, referencedSegmentsOf, hholds.graph] at htargets
    cases htargets
    cases htarget
  have hclosure : (repositoryProvider [archive]).extendSegmentClosure [headWrite.identifier] ∅ =
      some (.ok {headWrite.identifier}) := by
    rw [SegmentProvider.extendSegmentClosure, if_neg (Finset.notMem_empty _), hserved]
    simp only [hreferences, List.append_nil, insert_empty_eq]
    rw [SegmentProvider.extendSegmentClosure]
  have hguard : validateReclaimReferenceInvariant (repositoryProvider [archive])
      [headWrite.identifier] (Finmap.singleton headWrite.identifier ⟨0, 0, false⟩)
      ⟨⟨1, 1, true⟩, .full, 2⟩ = .ok () := by
    have hheader : generationFromHeader (repositoryProvider [archive]) headWrite.identifier =
        .ok ⟨0, 0, false⟩ := by
      rw [generationFromHeader, hserved, Except.ok_bind_eq, if_neg (by decide), hgeneration]
      rfl
    refine Except.forM_ok fun identifier hidentifier => ?_
    rw [List.mem_singleton.mp hidentifier, validateReclaimReference, if_neg (by decide), hheader,
      Except.ok_bind_eq, Finmap.lookup_singleton_eq]
    rfl
  obtain ⟨plan, hplan⟩ : ∃ plan, analyzeStandaloneSegmentCleanup ∅ [] [archive]
      ⟨⟨1, 1, true⟩, .full, 2⟩ headWrite.identifier ∅ .oakSavingsGate = .ok plan := by
    have hmark : markArchives ⟨⟨⟨1, 1, true⟩, .full, 2⟩, ∅⟩ [archive]
        ⟨∅, ∅, some headWrite.identifier⟩ = .ok ⟨∅, ∅, none⟩ := by
      have htargets : referencedSegmentsOf archive headWrite.identifier = .ok [] := by
        rw [referencedSegmentsOf, hholds.graph]
        rfl
      rw [markArchives, List.foldlM_cons, markOneArchive, hmarks, List.reverse_singleton,
        List.foldlM_cons, markEntry, if_neg (by decide), if_pos (by decide), htargets]
      rfl
    have hplanned : planArchiveSweep ∅ [] archive ∅ .oakSavingsGate ∅ = .ok none := by
      rw [planArchiveSweep, hindex]
      cases ArchiveFileName.parse archive.fileName with
      | none => rfl
      | some name =>
        simp only [hentries]
        rfl
    have hunique : uniqueActiveSegmentLocations [archive] =
        .ok (Finmap.insert headWrite.identifier archive.fileName ∅) := by
      rw [uniqueActiveSegmentLocations, List.foldlM_cons, hholds.identifiers, List.foldlM_cons,
        locateSegment, Finmap.lookup_empty]
      rfl
    refine ⟨⟨List.mergeSort [] fun a b => a.fileName ≤ b.fileName, 0, ∅⟩, ?_⟩
    rw [analyzeStandaloneSegmentCleanup, hunique, Except.ok_bind_eq, hmark, Except.ok_bind_eq]
    dsimp only
    rw [List.mapM_cons, hplanned]
    rfl
  exact ⟨[archive], plan, hplan, head_closure_not_reclaimable hordered
    (fun other hother => by rw [List.mem_singleton.mp hother]; exact hcertified) hclosure rfl hguard
    hplan _ (Finset.mem_singleton_self _)⟩

/-! A head that refers to a bulk segment in its header only, and the archive before it. -/

/-- A bulk segment. -/
def bulkWrite : SegmentWrite :=
  ⟨0, ⟨1, 0xB000000000000001⟩, [0], ⟨0, 0, false⟩, [], []⟩

/-- A data segment that refers to it. -/
def unlistedWrite : SegmentWrite :=
  ⟨0, ⟨1, 0xA000000000000001⟩,
    "0aK".utf8 ++ [13] ++ List.replicate 10 0 ++ [0, 0, 0, 1] ++ List.replicate 14 0 ++
      [0, 0, 0, 0, 0, 0, 0, 1, 0xB0, 0, 0, 0, 0, 0, 0, 1], ⟨0, 0, false⟩, [], []⟩

/-- The guard follows headers and the mark phase graphs: when the graph of an archive misses a
reference of a header, the guard accepts the head and the mark phase reclaims what it reaches. -/
theorem unlisted_reference_reclaimed : ∃ (archives : List TarArchiveReader)
    (plan : StandaloneSegmentCompactionPlan) (closure : Finset SegmentIdentifier)
    (order : List SegmentIdentifier) (generations : IndexGenerations),
    WrittenAfterReferences archives ∧
      (repositoryProvider archives).extendSegmentClosure [unlistedWrite.identifier] ∅ =
        some (.ok closure) ∧ order.toFinset = closure ∧
      validateReclaimReferenceInvariant (repositoryProvider archives) order generations
        ⟨⟨1, 1, true⟩, .full, 2⟩ = .ok () ∧
      analyzeStandaloneSegmentCleanup ∅ [] archives ⟨⟨1, 1, true⟩, .full, 2⟩
        unlistedWrite.identifier ∅ .oakSavingsGate = .ok plan ∧
      bulkWrite.identifier ∈ closure ∧ bulkWrite.identifier ∈ plan.reclaimable := by
  obtain ⟨older, hbulk, -⟩ := @exists_onlyHolds bulkWrite "data00000a.tar" (by decide)
    (by decide) (by decide) (by decide)
  obtain ⟨newer, hhead, -⟩ := @exists_onlyHolds unlistedWrite "data00001a.tar" (by decide)
    (by decide) (by decide) (by decide)
  obtain ⟨bulkIndex, hbulkIndex, hbulkWritten, -⟩ := hbulk.index
  obtain ⟨headIndex, hheadIndex, hheadWritten, -⟩ := hhead.index
  have hbulkEntries : bulkIndex.entries = [⟨bulkWrite.identifier, 512, 1, 0, 0, false⟩] :=
    hbulkWritten
  have hheadEntries : headIndex.entries = [⟨unlistedWrite.identifier, 512, 48, 0, 0, false⟩] :=
    hheadWritten
  have hbulkMarks : markEntries older = [⟨bulkWrite.identifier, some ⟨0, 0, false⟩, 512⟩] :=
    hbulk.marks
  have hheadMarks : markEntries newer = [⟨unlistedWrite.identifier, some ⟨0, 0, false⟩, 512⟩] :=
    hhead.marks
  obtain ⟨bulk, hbulkParse, -, hbulkReferences, -⟩ :=
    @parse_of_headerParts bulkWrite ⟨0, 0, false⟩ [] [] (by decide +kernel)
  obtain ⟨head, hheadParse, hgeneration, hheadReferences, -⟩ :=
    @parse_of_headerParts unlistedWrite ⟨0, 0, false⟩ [bulkWrite.identifier] []
      (by decide +kernel)
  have hservedHead : repositoryProvider [newer, older] unlistedWrite.identifier =
      .ok ⟨head, unlistedWrite.content⟩ := by
    rw [repositoryProvider, servedSegment_cons, hhead.identifiers,
      if_pos (List.mem_singleton_self _), hhead.data]
    simp only [hheadParse]
    rfl
  have hservedBulk : repositoryProvider [newer, older] bulkWrite.identifier =
      .ok ⟨bulk, bulkWrite.content⟩ := by
    rw [repositoryProvider, servedSegment_cons, hhead.identifiers, if_neg (by decide),
      servedSegment_singleton, hbulk.identifiers, if_pos (List.mem_singleton_self _), hbulk.data]
    simp only [hbulkParse]
    rfl
  have hordered : WrittenAfterReferences [newer, older] := by
    rintro before source after - - target ⟨reader, hreader, -, targets, htargets, htarget⟩
    have hgraph : reader.segmentGraph = some ⟨[]⟩ := by
      rcases List.mem_pair.mp hreader with rfl | rfl
      · exact hhead.graph
      · exact hbulk.graph
    rw [referencedSegmentsOf, hgraph] at htargets
    cases htargets
    cases htarget
  have hclosure : (repositoryProvider [newer, older]).extendSegmentClosure
      [unlistedWrite.identifier] ∅ =
        some (.ok {bulkWrite.identifier, unlistedWrite.identifier}) := by
    rw [SegmentProvider.extendSegmentClosure, if_neg (Finset.notMem_empty _), hservedHead]
    simp only [hheadReferences, List.nil_append, insert_empty_eq]
    rw [SegmentProvider.extendSegmentClosure, if_neg (by decide), hservedBulk]
    simp only [hbulkReferences, List.append_nil]
    rw [SegmentProvider.extendSegmentClosure]
  have hguard : validateReclaimReferenceInvariant (repositoryProvider [newer, older])
      [bulkWrite.identifier, unlistedWrite.identifier]
      (Finmap.singleton unlistedWrite.identifier ⟨0, 0, false⟩) ⟨⟨1, 1, true⟩, .full, 2⟩ =
        .ok () := by
    have hheader : generationFromHeader (repositoryProvider [newer, older])
        unlistedWrite.identifier = .ok ⟨0, 0, false⟩ := by
      rw [generationFromHeader, hservedHead, Except.ok_bind_eq, if_neg (by decide), hgeneration]
      rfl
    refine Except.forM_ok fun identifier hidentifier => ?_
    rcases List.mem_pair.mp hidentifier with rfl | rfl
    · rw [validateReclaimReference, if_pos (by decide)]
    · rw [validateReclaimReference, if_neg (by decide), hheader, Except.ok_bind_eq,
        Finmap.lookup_singleton_eq]
      rfl
  have hmark : markArchives ⟨⟨⟨1, 1, true⟩, .full, 2⟩, ∅⟩ [newer, older]
      ⟨∅, ∅, some unlistedWrite.identifier⟩ = .ok ⟨∅, {bulkWrite.identifier}, none⟩ := by
    have htargets : referencedSegmentsOf newer unlistedWrite.identifier = .ok [] := by
      rw [referencedSegmentsOf, hhead.graph]
      rfl
    have hfirst : markOneArchive newer ⟨⟨⟨1, 1, true⟩, .full, 2⟩, ∅⟩
        ⟨∅, ∅, some unlistedWrite.identifier⟩ = .ok ⟨∅, ∅, none⟩ := by
      rw [markOneArchive, hheadMarks, List.reverse_singleton, List.foldlM_cons, markEntry,
        if_neg (by decide), if_pos (by decide), htargets]
      rfl
    rw [markArchives, List.foldlM_cons, hfirst, Except.ok_bind_eq, List.foldlM_cons,
      markOneArchive, hbulkMarks]
    rfl
  have hplanOlder : ∃ planned, planArchiveSweep ∅ [] older {bulkWrite.identifier}
      .oakSavingsGate ∅ = .ok planned := by
    rw [planArchiveSweep, hbulkIndex]
    cases ArchiveFileName.parse older.fileName with
    | none => exact ⟨_, rfl⟩
    | some name =>
      simp only [hbulkEntries]
      have haccount : [(⟨bulkWrite.identifier, 512, 1, 0, 0, false⟩ : SegmentIndexEntry)].foldlM
          (accountEntry older.fileName {bulkWrite.identifier}) ⟨0, 0, 0, 0⟩ =
            .ok ⟨1024, 0, 1024, 1⟩ := rfl
      rw [haccount, Except.ok_bind_eq, if_neg (by decide), if_pos (by rfl)]
      split
      · exact ⟨_, rfl⟩
      · exact ⟨_, rfl⟩
  have hplanNewer : planArchiveSweep ∅ [] newer {bulkWrite.identifier} .oakSavingsGate ∅ =
      .ok none := by
    rw [planArchiveSweep, hheadIndex]
    cases ArchiveFileName.parse newer.fileName with
    | none => rfl
    | some name =>
      simp only [hheadEntries]
      rfl
  obtain ⟨planned, hplanned⟩ := hplanOlder
  obtain ⟨locations, hunique⟩ : ∃ locations, uniqueActiveSegmentLocations [newer, older] =
      .ok locations := by
    refine ⟨(Finmap.insert unlistedWrite.identifier newer.fileName ∅).insert
      bulkWrite.identifier older.fileName, ?_⟩
    rw [uniqueActiveSegmentLocations, List.foldlM_cons, hhead.identifiers, List.foldlM_cons,
      locateSegment, Finmap.lookup_empty]
    simp only [List.foldlM_nil, List.foldlM_cons, hbulk.identifiers, Except.ok_bind_eq, pure_bind,
      locateSegment]
    rw [Finmap.lookup_insert_of_ne _ (by decide), Finmap.lookup_empty]
    rfl
  refine ⟨[newer, older], ⟨[planned].reduceOption.mergeSort fun a b => a.fileName ≤ b.fileName, 1,
    {bulkWrite.identifier}⟩, {bulkWrite.identifier, unlistedWrite.identifier},
    [bulkWrite.identifier, unlistedWrite.identifier], _, hordered, hclosure, by simp, hguard, ?_,
    Finset.mem_insert_self .., Finset.mem_singleton_self _⟩
  rw [analyzeStandaloneSegmentCleanup, hunique, Except.ok_bind_eq, hmark, Except.ok_bind_eq]
  dsimp only
  rw [List.mapM_cons, hplanNewer, Except.ok_bind_eq, List.mapM_cons, hplanned]
  rfl

end Froe
