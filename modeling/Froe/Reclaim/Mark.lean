import Froe.Lib.BackwardMark
import Froe.Segment.Parsed
import Froe.Tar.Archive
import Mathlib.Data.Finset.Lattice.Lemmas
import Mathlib.Data.List.Sort

/-!
# The mark phase

Archives are visited newest first and entries within an archive in reverse file
order.  A data segment is judged by its generation, any other segment by
whether something kept refers to it.  Bulk segments are written before the data
segments that refer to them, so that they are judged after all of these
(`markArchives_safe`).

When a compacted root is given, compacted entries newer than that root are
incomplete output of a compaction that never published its head.  They are
reclaimed before any other rule is asked.
-/

namespace Froe

/-! ## The generation predicate -/

/-- Whether a compaction was full or of the tail. -/
inductive CompactionKind where
  | full
  | tail
deriving DecidableEq, Repr

/-- The generation predicate one run applies. -/
structure ReclaimRule where
  /-- The generation every candidate is judged against. -/
  reference : GarbageCollectionGeneration
  kind : CompactionKind
  /-- How many generations behind the reference survive. -/
  retainedGenerations : Int32
deriving DecidableEq, Repr

/-- Whether a generation is old enough.  The subtractions wrap. -/
def isReclaimable (reference segment : GarbageCollectionGeneration) (kind : CompactionKind)
    (retainedGenerations : Int32) : Bool :=
  match kind with
  | .full =>
    retainedGenerations ≤ reference.fullGeneration - segment.fullGeneration ||
      (retainedGenerations ≤ reference.generation - segment.generation && !segment.isCompacted)
  | .tail =>
    retainedGenerations ≤ reference.generation - segment.generation &&
      !(segment.isCompacted && segment.fullGeneration == reference.fullGeneration)

/-- The predicate of a rule. -/
def ReclaimRule.reclaims (rule : ReclaimRule) (segment : GarbageCollectionGeneration) : Bool :=
  isReclaimable rule.reference segment rule.kind rule.retainedGenerations

/-- The rule and the data segments that journal history protects. -/
structure ReclaimPolicy where
  rule : ReclaimRule
  protectedDataSegments : Finset SegmentIdentifier

/-! ## Marking one archive -/

/-- A segment as the mark phase sees it.  Recovered archives know no generations. -/
structure MarkEntry where
  identifier : SegmentIdentifier
  generation : Option GarbageCollectionGeneration
  position : UInt32
deriving DecidableEq

def SegmentIndexEntry.garbageCollectionGeneration (entry : SegmentIndexEntry) :
    GarbageCollectionGeneration :=
  ⟨entry.generation, entry.fullGeneration, entry.isCompacted⟩

/-- The segments of an archive before they are sorted. -/
def unsortedMarkEntries (reader : TarArchiveReader) : List MarkEntry :=
  match reader.index with
  | some index =>
    index.entries.map fun entry =>
      ⟨entry.segmentIdentifier, some entry.garbageCollectionGeneration, entry.position⟩
  | none =>
    reader.segmentIdentifiers.zipIdx.map fun (identifier, position) =>
      ⟨identifier, none, UInt32.ofNat position⟩

/-- The segments of an archive in physical order. -/
def markEntries (reader : TarArchiveReader) : List MarkEntry :=
  (unsortedMarkEntries reader).insertionSort fun a b => a.position ≤ b.position

/-- The segments a data segment refers to: its row of the graph trailer when the archive
has a graph, and otherwise the table in its header. -/
def referencedSegmentsOf (reader : TarArchiveReader) (identifier : SegmentIdentifier) :
    Result (List SegmentIdentifier) :=
  match reader.segmentGraph with
  | some graph => .ok ((graph.references? identifier).getD [])
  | none =>
    match reader.segmentData identifier with
    | none => .error (.segmentNotFound identifier)
    | some bytes => (ParsedSegment.parse identifier bytes).map ParsedSegment.referencedSegments

/-- The sets that the mark phase threads through all archives. -/
structure MarkState where
  references : Finset SegmentIdentifier
  reclaimable : Finset SegmentIdentifier
  /-- The compacted root, until it is reached. -/
  aheadOfRoot : Option SegmentIdentifier
deriving DecidableEq

/-- The root behind an entry: reaching the root switches the rule off for good. -/
def passRoot (root : Option SegmentIdentifier) (entry : MarkEntry) : Option SegmentIdentifier :=
  if root = some entry.identifier then none else root

/-- A compacted entry that is newer than the root. -/
def isDanglingFuture (root : Option SegmentIdentifier) (entry : MarkEntry) : Bool :=
  (passRoot root entry).isSome && entry.generation.any (·.isCompacted)

def reclaims (policy : ReclaimPolicy) (root : Option SegmentIdentifier) (entry : MarkEntry)
    (wasReferenced : Bool) : Bool :=
  if root = some entry.identifier ∨
      (entry.identifier.isDataSegment ∧ entry.identifier ∈ policy.protectedDataSegments) then false
  else if isDanglingFuture root entry then true
  else if entry.identifier.isDataSegment then entry.generation.any policy.rule.reclaims
  else entry.generation.isSome && !wasReferenced

/-- Marks one segment. -/
def markEntry (reader : TarArchiveReader) (policy : ReclaimPolicy) (state : MarkState)
    (entry : MarkEntry) : Result MarkState := do
  let wasReferenced : Bool := entry.identifier ∈ state.references
  let references := state.references.erase entry.identifier
  let aheadOfRoot := passRoot state.aheadOfRoot entry
  if reclaims policy state.aheadOfRoot entry wasReferenced then
    return ⟨references, insert entry.identifier state.reclaimable, aheadOfRoot⟩
  else if entry.identifier.isDataSegment then
    let targets ← referencedSegmentsOf reader entry.identifier
    return ⟨references ∪ (targets.filter fun target => !target.isDataSegment).toFinset,
      state.reclaimable, aheadOfRoot⟩
  else return ⟨references, state.reclaimable, aheadOfRoot⟩

/-- Marks one archive, in reverse physical order. -/
def markOneArchive (reader : TarArchiveReader) (policy : ReclaimPolicy) (state : MarkState) :
    Result MarkState :=
  (markEntries reader).reverse.foldlM (markEntry reader policy) state

/-- Marks archives in the order given, which is newest first. -/
def markArchives (policy : ReclaimPolicy) (archives : List TarArchiveReader) (state : MarkState) :
    Result MarkState :=
  archives.foldlM (fun state reader => markOneArchive reader policy state) state

/-! ## The order of the visits -/

/-- The order of the marks. -/
def visitOrder (archives : List TarArchiveReader) : List (TarArchiveReader × MarkEntry) :=
  archives.flatMap fun reader => (markEntries reader).reverse.map (reader, ·)

/-- The segments over the archives from oldest to newest, each in physical order. -/
def writeOrder (archives : List TarArchiveReader) : List SegmentIdentifier :=
  archives.reverse.flatMap fun reader => (markEntries reader).map MarkEntry.identifier

/-- A segment refers to another. -/
def Refers (archives : List TarArchiveReader) (source target : SegmentIdentifier) : Prop :=
  ∃ reader ∈ archives, (∃ entry ∈ markEntries reader, entry.identifier = source) ∧
    ∃ targets, referencedSegmentsOf reader source = .ok targets ∧ target ∈ targets

/-- Every data segment comes after the segments it refers to. -/
def WrittenAfterReferences (archives : List TarArchiveReader) : Prop :=
  ∀ older source newer, writeOrder archives = older ++ source :: newer →
    source.isDataSegment = true → ∀ target, Refers archives source target → target ∉ newer

/-- A compacted entry that the mark phase visits before it has reached the root. -/
def Dangling (archives : List TarArchiveReader) (root : Option SegmentIdentifier)
    (identifier : SegmentIdentifier) : Prop :=
  ∃ before reader entry after, visitOrder archives = before ++ (reader, entry) :: after ∧
    entry.identifier = identifier ∧
    isDanglingFuture ((before.map Prod.snd).foldl passRoot root) entry = true

theorem foldl_passRoot_none (entries : List MarkEntry) : entries.foldl passRoot none = none := by
  induction entries with
  | nil => rfl
  | cons entry entries ih => exact ih

/-- Without a root nothing is dangling. -/
theorem not_dangling_none {archives : List TarArchiveReader} {identifier : SegmentIdentifier} :
    ¬ Dangling archives none identifier := by
  rintro ⟨before, reader, entry, after, -, -, h⟩
  rw [foldl_passRoot_none] at h
  cases h

theorem visitOrder_cons (reader : TarArchiveReader) (archives : List TarArchiveReader) :
    visitOrder (reader :: archives) =
      (markEntries reader).reverse.map (reader, ·) ++ visitOrder archives := rfl

variable (policy : ReclaimPolicy) (archives : List TarArchiveReader)

theorem writeOrder_eq :
    writeOrder archives = ((visitOrder archives).map fun visit => visit.2.identifier).reverse := by
  induction archives with
  | nil => rfl
  | cons reader archives ih =>
    rw [writeOrder, List.reverse_cons, List.flatMap_append, ← writeOrder, ih, visitOrder_cons,
      List.map_append, List.reverse_append]
    simp [Function.comp_def]

theorem mem_visitOrder {archives : List TarArchiveReader} {reader : TarArchiveReader}
    {entry : MarkEntry} :
    (reader, entry) ∈ visitOrder archives ↔ reader ∈ archives ∧ entry ∈ markEntries reader := by
  simp [visitOrder]

/-- The fold over the archives is one fold over the visits. -/
theorem markArchives_eq (state : MarkState) :
    markArchives policy archives state =
      (visitOrder archives).foldlM (fun state visit => markEntry visit.1 policy state visit.2)
        state := by
  induction archives generalizing state with
  | nil => rfl
  | cons reader archives ih =>
    rw [markArchives, List.foldlM_cons, visitOrder_cons, List.foldlM_append, List.foldlM_map]
    refine bind_congr fun next => ?_
    exact ih next

/-! ## Refining the backward mark -/

/-- The visit of an entry, given the root before it. -/
def visitOf (policy : ReclaimPolicy) (root : Option SegmentIdentifier)
    (visit : TarArchiveReader × MarkEntry) : BackwardMark.Visit SegmentIdentifier where
  item := visit.2.identifier
  marks := reclaims policy root visit.2
  protects :=
    if visit.2.identifier.isDataSegment then
      match referencedSegmentsOf visit.1 visit.2.identifier with
      | .ok targets => targets.filter fun target => !target.isDataSegment
      | .error _ => []
    else []

/-- The visits with the root threaded through. -/
def visitsOf (policy : ReclaimPolicy) :
    Option SegmentIdentifier → List (TarArchiveReader × MarkEntry) →
      List (BackwardMark.Visit SegmentIdentifier)
  | _, [] => []
  | root, visit :: visits => visitOf policy root visit :: visitsOf policy (passRoot root visit.2) visits

def MarkState.sets (state : MarkState) : BackwardMark.State SegmentIdentifier :=
  ⟨state.references, state.reclaimable⟩

/-- One entry of the loop is one visit of the backward mark. -/
theorem markEntry_refines {policy : ReclaimPolicy} {state next : MarkState}
    {visit : TarArchiveReader × MarkEntry} (h : markEntry visit.1 policy state visit.2 = .ok next) :
    next.sets = BackwardMark.step state.sets (visitOf policy state.aheadOfRoot visit) ∧
      next.aheadOfRoot = passRoot state.aheadOfRoot visit.2 := by
  have hmarks : (visitOf policy state.aheadOfRoot visit).marks
      (decide ((visitOf policy state.aheadOfRoot visit).item ∈ state.sets.references)) =
      reclaims policy state.aheadOfRoot visit.2 (decide (visit.2.identifier ∈ state.references)) :=
    rfl
  rw [markEntry] at h
  rw [BackwardMark.step, hmarks]
  split at h
  · rename_i hreclaim
    cases h
    refine ⟨?_, rfl⟩
    rw [if_pos hreclaim]
    rfl
  rename_i hkeep
  rw [if_neg hkeep]
  split at h
  · rename_i hdata
    obtain ⟨targets, htargets, hnext⟩ := Except.bind_ok_iff.mp h
    cases hnext
    refine ⟨?_, rfl⟩
    simp only [visitOf, hdata, if_true, htargets, MarkState.sets]
  · rename_i hdata
    cases h
    refine ⟨?_, rfl⟩
    simp only [visitOf, hdata, Bool.false_eq_true, if_false, List.toFinset_nil,
      Finset.union_empty, MarkState.sets]

/-- A run of the loop is a run of the backward mark. -/
theorem foldlM_markEntry_refines {policy : ReclaimPolicy}
    {visits : List (TarArchiveReader × MarkEntry)} {state final : MarkState}
    (h : visits.foldlM (fun state visit => markEntry visit.1 policy state visit.2) state =
      .ok final) :
    final.sets = BackwardMark.run state.sets (visitsOf policy state.aheadOfRoot visits) := by
  induction visits generalizing state with
  | nil =>
    cases h
    rfl
  | cons visit visits ih =>
    rw [List.foldlM_cons] at h
    obtain ⟨next, hstep, hrest⟩ := Except.bind_ok_iff.mp h
    obtain ⟨hsets, hroot⟩ := markEntry_refines hstep
    rw [ih hrest, hsets, hroot, visitsOf, BackwardMark.run_cons]

theorem visitsOf_append (root : Option SegmentIdentifier)
    (before after : List (TarArchiveReader × MarkEntry)) :
    visitsOf policy root (before ++ after) = visitsOf policy root before ++
      visitsOf policy ((before.map Prod.snd).foldl passRoot root) after := by
  induction before generalizing root with
  | nil => rfl
  | cons visit before ih => rw [List.cons_append, visitsOf, visitsOf, ih, List.cons_append]; rfl

theorem visitsOf_map_item (root : Option SegmentIdentifier)
    (visits : List (TarArchiveReader × MarkEntry)) :
    (visitsOf policy root visits).map BackwardMark.Visit.item =
      visits.map fun visit => visit.2.identifier := by
  induction visits generalizing root with
  | nil => rfl
  | cons visit visits ih => rw [visitsOf, List.map_cons, ih, List.map_cons]; rfl

/-! ## Safety -/

section Safety

variable {policy : ReclaimPolicy} {archives : List TarArchiveReader}
  {references : Finset SegmentIdentifier} {root : Option SegmentIdentifier} {final : MarkState}

variable {entry : MarkEntry} {wasReferenced : Bool} {reader : TarArchiveReader}
  {bulk : SegmentIdentifier}

section

variable {root : Option SegmentIdentifier}

/-- A segment that is not a data segment is reclaimed while referenced only as dangling. -/
theorem isDanglingFuture_of_referenced (hbulk : entry.identifier.isDataSegment = false)
    (hreclaims : reclaims policy root entry true = true) : isDanglingFuture root entry = true := by
  rw [reclaims] at hreclaims
  split at hreclaims
  · cases hreclaims
  split at hreclaims
  · assumption
  · simp [hbulk] at hreclaims

/-- A data segment whose generation is kept is reclaimed only as dangling. -/
theorem isDanglingFuture_of_kept (hdata : entry.identifier.isDataSegment = true)
    (hkept : ∀ generation ∈ entry.generation, policy.rule.reclaims generation = false)
    (hreclaims : reclaims policy root entry wasReferenced = true) :
    isDanglingFuture root entry = true := by
  rw [reclaims] at hreclaims
  split at hreclaims
  · cases hreclaims
  split at hreclaims
  · assumption
  cases hgeneration : entry.generation with
  | none =>
    rw [hgeneration] at hreclaims
    cases hreclaims
  | some generation =>
    rw [hgeneration, Option.any_some, hkept generation hgeneration] at hreclaims
    cases hreclaims

theorem reclaims_of_generation_none (hnone : entry.generation = none) :
    reclaims policy root entry wasReferenced = false := by
  simp [reclaims, isDanglingFuture, hnone]

end

section

variable (hunique : (writeOrder archives).Nodup)
include hunique

/-- What is reclaimed was visited, and its visit reclaimed it. -/
theorem exists_visit_of_mem_reclaimable
    (hmark : markArchives policy archives ⟨references, ∅, root⟩ = .ok final)
    {identifier : SegmentIdentifier} (hin : identifier ∈ final.reclaimable) :
    ∃ before reader entry after, visitOrder archives = before ++ (reader, entry) :: after ∧
      entry.identifier = identifier ∧
      reclaims policy ((before.map Prod.snd).foldl passRoot root) entry
        (decide (identifier ∈ (BackwardMark.run ⟨references, ∅⟩
          (visitsOf policy root before)).references)) = true := by
  rw [markArchives_eq] at hmark
  have hrun := foldlM_markEntry_refines hmark
  have hmarked : identifier ∈ (BackwardMark.run ⟨references, ∅⟩
      (visitsOf policy root (visitOrder archives))).marked := by
    have hsets := congrArg BackwardMark.State.marked hrun
    exact hsets ▸ hin
  have hitem := (BackwardMark.mem_marked_run _ hmarked).resolve_left (Finset.notMem_empty _)
  rw [visitsOf_map_item] at hitem
  obtain ⟨⟨reader, entry⟩, hvisit, rfl⟩ := List.mem_map.mp hitem
  obtain ⟨before, after, hsplit⟩ := List.append_of_mem hvisit
  refine ⟨before, reader, entry, after, hsplit, rfl, ?_⟩
  rw [writeOrder_eq, List.nodup_reverse, hsplit, List.map_append, List.nodup_append] at hunique
  rw [hsplit, visitsOf_append, visitsOf] at hmarked
  refine (BackwardMark.mem_marked_iff (v := visitOf policy _ (reader, entry))
    (Finset.notMem_empty _) ?_ ?_).mp hmarked
  · rw [visitsOf_map_item]
    exact fun h => hunique.2.2 _ h entry.identifier (by simp) rfl
  · rw [visitsOf_map_item]
    exact (List.nodup_cons.mp hunique.2.1).1

theorem eq_of_identifier_eq
    {visit visit' : TarArchiveReader × MarkEntry} (hvisit : visit ∈ visitOrder archives)
    (hvisit' : visit' ∈ visitOrder archives)
    (heq : visit.2.identifier = visit'.2.identifier) : visit = visit' := by
  rw [writeOrder_eq, List.nodup_reverse] at hunique
  exact List.inj_on_of_nodup_map hunique hvisit hvisit' heq

section

variable (hmark : markArchives policy archives ⟨references, ∅, root⟩ = .ok final)
include hmark

/-- A data segment whose generation the rule keeps. -/
theorem dangling_of_kept_generation (hreader : reader ∈ archives)
    (hentry : entry ∈ markEntries reader) (hdata : entry.identifier.isDataSegment = true)
    (hkept : ∀ generation ∈ entry.generation, policy.rule.reclaims generation = false)
    (hin : entry.identifier ∈ final.reclaimable) : Dangling archives root entry.identifier := by
  obtain ⟨before, reader', entry', after, hsplit, hidentifier, hreclaims⟩ :=
    exists_visit_of_mem_reclaimable hunique hmark hin
  have hvisit' : (reader', entry') ∈ visitOrder archives := by
    rw [hsplit]
    simp
  obtain ⟨rfl, rfl⟩ := Prod.mk.injEq .. ▸
    eq_of_identifier_eq hunique hvisit' (mem_visitOrder.mpr ⟨hreader, hentry⟩) hidentifier
  exact ⟨before, reader', entry', after, hsplit, rfl,
    isDanglingFuture_of_kept hdata hkept hreclaims⟩

/-- A segment other than data that was referenced from the start. -/
theorem dangling_of_initial_reference (hreferenced : bulk ∈ references)
    (hbulk : bulk.isDataSegment = false) (hin : bulk ∈ final.reclaimable) :
    Dangling archives root bulk := by
  obtain ⟨before, reader, entry, after, hsplit, rfl, hreclaims⟩ :=
    exists_visit_of_mem_reclaimable hunique hmark hin
  have hbefore : entry.identifier ∉ (visitsOf policy root before).map BackwardMark.Visit.item := by
    rw [writeOrder_eq, List.nodup_reverse, hsplit, List.map_append, List.nodup_append] at hunique
    rw [visitsOf_map_item]
    exact fun h => hunique.2.2 _ h entry.identifier (by simp) rfl
  have hstill := BackwardMark.mem_references_run (s := ⟨references, ∅⟩) _ hreferenced hbefore
  rw [decide_eq_true hstill] at hreclaims
  exact ⟨before, reader, entry, after, hsplit, rfl, isDanglingFuture_of_referenced hbulk hreclaims⟩

end

/-- A segment other than data that a kept data segment refers to. -/
theorem dangling_of_kept_reference (hordered : WrittenAfterReferences archives)
    (hmark : markArchives policy archives ⟨references, ∅, root⟩ = .ok final)
    {source : SegmentIdentifier} (hdata : source.isDataSegment = true)
    (hkept : source ∉ final.reclaimable) (hrefers : Refers archives source bulk)
    (hbulk : bulk.isDataSegment = false) (hin : bulk ∈ final.reclaimable) :
    Dangling archives root bulk := by
  obtain ⟨_, reader', entry', _, hsplit', rfl, -⟩ :=
    exists_visit_of_mem_reclaimable hunique hmark hin
  obtain ⟨reader, hreader, ⟨entry, hentry, rfl⟩, targets, htargets, htarget⟩ := hrefers
  obtain ⟨before, after, hsplit⟩ := List.append_of_mem (mem_visitOrder.mpr ⟨hreader, hentry⟩)
  have hvisit' : (reader', entry') ∈ visitOrder archives := by
    rw [hsplit']
    simp
  -- the order of the writes puts the target behind its source in the order of the visits
  have hnewer : entry'.identifier ∉
      (before.map fun visit => visit.2.identifier).reverse := by
    refine hordered (after.map fun visit => visit.2.identifier).reverse entry.identifier _ ?_ hdata
      _ ⟨reader, hreader, ⟨entry, hentry, rfl⟩, targets, htargets, htarget⟩
    rw [writeOrder_eq, hsplit]
    simp
  have hafter : (reader', entry') ∈ after := by
    rw [hsplit, List.mem_append, List.mem_cons] at hvisit'
    rcases hvisit' with hbefore | heq | hafter
    · exact absurd (List.mem_reverse.mpr (List.mem_map.mpr ⟨_, hbefore, rfl⟩)) hnewer
    · cases heq
      rw [hdata] at hbulk
      cases hbulk
    · exact hafter
  obtain ⟨between, rest, hrest⟩ := List.append_of_mem hafter
  have hall : visitOrder archives = (before ++ (reader, entry) :: between) ++
      (reader', entry') :: rest := by
    rw [hsplit, hrest]
    simp
  have hrun := foldlM_markEntry_refines (markArchives_eq policy archives _ ▸ hmark)
  have hsets := congrArg BackwardMark.State.marked hrun
  have hdistinct := hunique
  rw [writeOrder_eq, List.nodup_reverse, ← visitsOf_map_item policy root] at hdistinct
  have hparts : visitsOf policy root (visitOrder archives) =
      visitsOf policy root before ++ visitOf policy ((before.map Prod.snd).foldl passRoot root)
        (reader, entry) :: visitsOf policy (passRoot ((before.map Prod.snd).foldl passRoot root)
          entry) between ++
        visitOf policy (((before ++ (reader, entry) :: between).map Prod.snd).foldl passRoot root)
          (reader', entry') :: visitsOf policy (passRoot
            (((before ++ (reader, entry) :: between).map Prod.snd).foldl passRoot root) entry')
            rest := by
    rw [hall, visitsOf_append, visitsOf, visitsOf_append, visitsOf]
  have hmarks : (visitOf policy (((before ++ (reader, entry) :: between).map
      Prod.snd).foldl passRoot root) (reader', entry')).marks true = true := by
    change final.reclaimable = (BackwardMark.run ⟨references, ∅⟩
      (visitsOf policy root (visitOrder archives))).marked at hsets
    rw [hparts] at hdistinct hsets
    refine BackwardMark.marked_of_protected (s := ⟨references, ∅⟩) hdistinct rfl ?_ ?_ ?_
    · rw [← hsets]
      exact hkept
    · simp only [visitOf, hdata, if_true, htargets, List.mem_filter]
      exact ⟨htarget, by rw [hbulk]; rfl⟩
    · rw [← hsets]
      exact hin
  exact ⟨before ++ (reader, entry) :: between, reader', entry', rest, hall, rfl,
    isDanglingFuture_of_referenced hbulk hmarks⟩

end

theorem generation_of_isRecovered (h : reader.isRecovered = true) (hentry : entry ∈ markEntries reader) : entry.generation = none := by
  rw [markEntries, List.mem_insertionSort] at hentry
  obtain ⟨fileName, bytes, content⟩ := reader
  cases content with
  | indexed index => cases h
  | recovered reason entries =>
    obtain ⟨pair, -, rfl⟩ := List.mem_map.mp hentry
    rfl

/-- An entry of a recovered archive is never reclaimed. -/
theorem not_mem_reclaimable_of_isRecovered (hunique : (writeOrder archives).Nodup)
    (hmark : markArchives policy archives ⟨references, ∅, root⟩ = .ok final) (hreader : reader ∈ archives)
    (hentry : entry ∈ markEntries reader) (hrecovered : reader.isRecovered = true) :
    entry.identifier ∉ final.reclaimable := by
  intro hin
  obtain ⟨before, reader', entry', after, hsplit, hidentifier, hreclaims⟩ :=
    exists_visit_of_mem_reclaimable hunique hmark hin
  have hvisit' : (reader', entry') ∈ visitOrder archives := by
    rw [hsplit]
    simp
  obtain ⟨rfl, rfl⟩ := Prod.mk.injEq .. ▸
    eq_of_identifier_eq hunique hvisit' (mem_visitOrder.mpr ⟨hreader, hentry⟩) hidentifier
  rw [reclaims_of_generation_none (generation_of_isRecovered hrecovered hentry)] at hreclaims
  cases hreclaims

/-- The mark phase reclaims no segment that something kept still needs.  For every list
of archives with unique segments written after what they refer to, every initial
reference set, every rule and every root, what is reclaimed is none of

* a data segment whose generation the rule keeps,
* a segment other than data in the initial reference set,
* a segment other than data that a data segment outside the reclaimed set refers to,

unless it is a compacted entry newer than the root.  A recovered archive contributes
nothing, and what its data segments refer to is kept as well.  Without a root nothing is
dangling. -/
theorem markArchives_safe (hunique : (writeOrder archives).Nodup)
    (hordered : WrittenAfterReferences archives)
    (hmark : markArchives policy archives ⟨references, ∅, root⟩ = .ok final) :
    (∀ reader ∈ archives, ∀ entry ∈ markEntries reader, entry.identifier.isDataSegment = true →
      (∀ generation ∈ entry.generation, policy.rule.reclaims generation = false) →
      entry.identifier ∈ final.reclaimable → Dangling archives root entry.identifier) ∧
    (∀ bulk ∈ references, bulk.isDataSegment = false → bulk ∈ final.reclaimable →
      Dangling archives root bulk) ∧
    (∀ source bulk, source ∈ writeOrder archives → source.isDataSegment = true →
      source ∉ final.reclaimable → Refers archives source bulk → bulk.isDataSegment = false →
      bulk ∈ final.reclaimable → Dangling archives root bulk) ∧
    (∀ reader ∈ archives, reader.isRecovered = true → ∀ entry ∈ markEntries reader,
      entry.identifier ∉ final.reclaimable ∧ (entry.identifier.isDataSegment = true →
        ∀ bulk, Refers archives entry.identifier bulk → bulk.isDataSegment = false →
          bulk ∈ final.reclaimable → Dangling archives root bulk)) ∧
    (root = none → ∀ identifier, ¬ Dangling archives root identifier) := by
  refine ⟨?_, ?_, ?_, ?_, ?_⟩
  · intro reader hreader entry hentry hdata hkept hin
    exact dangling_of_kept_generation hunique hmark hreader hentry hdata hkept hin
  · intro bulk hreferenced hbulk hin
    exact dangling_of_initial_reference hunique hmark hreferenced hbulk hin
  · intro source bulk _ hdata hkept hrefers hbulk hin
    exact dangling_of_kept_reference hunique hordered hmark hdata hkept hrefers hbulk hin
  · intro reader hreader hrecovered entry hentry
    have hkept := not_mem_reclaimable_of_isRecovered hunique hmark hreader hentry hrecovered
    refine ⟨hkept, ?_⟩
    intro hdata bulk hrefers hbulk hin
    exact dangling_of_kept_reference hunique hordered hmark hdata hkept hrefers hbulk hin
  · rintro rfl identifier
    exact not_dangling_none

end Safety

/-! ## Two segments around a root -/

/-- A data segment without references and records, padded to a block. -/
def emptyDataBlock : Bytes := "0aK".utf8 ++ [13] ++ List.replicate 508 0

/-- The root and a compacted segment that was written after it. -/
def rootAndNewer : TarArchiveReader where
  fileName := "data00000a.tar"
  bytes := blankBlock ++ emptyDataBlock ++ blankBlock ++ emptyDataBlock
  content := .indexed {
    version := 2
    entries := [⟨⟨1, 0xA000000000000001⟩, 512, 32, 1, 1, true⟩,
      ⟨⟨2, 0xA000000000000002⟩, 1536, 32, 1, 1, true⟩]
    sorted := by simp [Search.StrictlySorted]; decide
    extents := by simp [SegmentIndexEntry.ValidExtent]; decide }

/-- Generations from 1 on are kept. -/
def keepFirst : ReclaimPolicy := ⟨⟨⟨1, 1, true⟩, .full, 1⟩, ∅⟩

theorem markEntries_rootAndNewer : markEntries rootAndNewer =
    [⟨⟨1, 0xA000000000000001⟩, some ⟨1, 1, true⟩, 512⟩,
      ⟨⟨2, 0xA000000000000002⟩, some ⟨1, 1, true⟩, 1536⟩] := rfl

theorem writtenAfterReferences_rootAndNewer : WrittenAfterReferences [rootAndNewer] := by
  rintro older source newer - - target ⟨reader, hreader, ⟨entry, hentry, rfl⟩, targets, htargets,
    htarget⟩
  obtain rfl := List.mem_singleton.mp hreader
  rw [markEntries_rootAndNewer] at hentry
  have hnone : referencedSegmentsOf rootAndNewer entry.identifier = .ok [] := by
    rcases List.mem_cons.mp hentry with rfl | hentry
    · decide +kernel
    · obtain rfl := List.mem_singleton.mp hentry
      decide +kernel
  rw [hnone] at htargets
  cases htargets
  cases htarget

/-- With the older segment as root, the newer one is reclaimed although the rule keeps its
generation. -/
theorem newer_than_root_reclaimed : ∃ final,
    (writeOrder [rootAndNewer]).Nodup ∧ WrittenAfterReferences [rootAndNewer] ∧
      markArchives keepFirst [rootAndNewer] ⟨∅, ∅, some ⟨1, 0xA000000000000001⟩⟩ = .ok final ∧
      ∃ entry ∈ markEntries rootAndNewer, entry.identifier.isDataSegment = true ∧
        (∀ generation ∈ entry.generation, keepFirst.rule.reclaims generation = false) ∧
        entry.identifier ∈ final.reclaimable := by
  refine ⟨⟨∅, {⟨2, 0xA000000000000002⟩}, none⟩, by decide, writtenAfterReferences_rootAndNewer,
    by decide +kernel, ⟨⟨2, 0xA000000000000002⟩, some ⟨1, 1, true⟩, 1536⟩, ?_, by decide, ?_, by decide⟩
  · rw [markEntries_rootAndNewer]
    simp
  · rintro generation ⟨⟩
    decide

/-- Without a root both segments stay. -/
theorem markArchives_safe_rootAndNewer : ∃ final,
    markArchives keepFirst [rootAndNewer] ⟨∅, ∅, none⟩ = .ok final ∧
      ∀ entry ∈ markEntries rootAndNewer, entry.identifier ∉ final.reclaimable := by
  have hmark : markArchives keepFirst [rootAndNewer] ⟨∅, ∅, none⟩ = .ok ⟨∅, ∅, none⟩ := by
    decide +kernel
  refine ⟨_, hmark, ?_⟩
  intro entry hentry hin
  obtain ⟨hdata, -, -, -, hnone⟩ :=
    markArchives_safe (by decide) writtenAfterReferences_rootAndNewer hmark
  have hkind : entry.identifier.isDataSegment = true ∧ entry.generation = some ⟨1, 1, true⟩ := by
    rw [markEntries_rootAndNewer] at hentry
    rcases List.mem_cons.mp hentry with rfl | hentry
    · decide
    · obtain rfl := List.mem_singleton.mp hentry
      decide
  refine hnone rfl _ (hdata rootAndNewer (by simp) entry hentry hkind.1 ?_ hin)
  intro generation hgeneration
  rw [hkind.2] at hgeneration
  cases hgeneration
  decide

end Froe
