import Froe.Lib.FirstSeen
import Froe.Reclaim.Certificate
import Froe.Tar.Recovery

/-!
# Recovering an archive number

When no letter of an archive number has a valid index, the segments that the
letters still hold are merged and written as a new archive.  The letters are
scanned in ascending order.  A segment keeps the position at which it was first
met and takes the bytes of the last letter that holds it, so that the merged
list need not have every bulk segment before the data segments that refer to it
(`scan_keeps_write_order_iff`).
-/

namespace Froe

open Except (bind_ok_iff)

open TarArchiveWriter
open TarArchiveReader (openFile)

/-- One file of an archive number. -/
structure ArchiveLetter where
  fileName : String
  archiveNumber : Nat
  bytes : Bytes

/-- A segment found by a scan. -/
abbrev RecoveredSegment := SegmentIdentifier × Bytes

/-- The segments a letter still holds, in the order of its index or of the scan. -/
def letterSegments (letter : ArchiveLetter) : List RecoveredSegment :=
  match TarArchiveReader.openFile letter.fileName letter.bytes with
  | .error _ => []
  | .ok reader =>
    reader.segmentIdentifiers.filterMap fun identifier =>
      (reader.segmentData identifier).map fun bytes => (identifier, bytes)

/-- Scans the letters in ascending order; later letters overwrite duplicates. -/
def scanRecoverableSegments (generations : List ArchiveLetter) : List RecoveredSegment :=
  List.putAllFirst [] (generations.flatMap letterSegments)

/-- The refusal of a number that holds bytes but no segment. -/
def unrecoverableArchiveNumberRefusal (generations : List ArchiveLetter) : Error :=
  let names := ", ".intercalate (generations.map ArchiveLetter.fileName)
  let number := (generations.head?.map ArchiveLetter.archiveNumber).getD 0
  .invalidFormat s!"archive number {number} has no valid index and no recoverable segment in {names}; refusing to replace it with an empty archive. Cleanup preserves this file rather than removing it, so opening the store for writing needs it moved aside — keep it, it is the only copy of whatever it holds"

/-- The name a rebuild is installed under: that of the lowest letter with bytes. -/
def installTargetGeneration (generations : List ArchiveLetter) : Option String :=
  ((generations.find? fun letter => letter.bytes ≠ []).or generations.head?).map
    ArchiveLetter.fileName

/-- Parses what a scan found. -/
def parseRecovered (recovered : List RecoveredSegment) :
    Result (List (RecoveredSegment × ParsedSegment)) :=
  recovered.mapM fun segment => do return (segment, ← ParsedSegment.parse segment.1 segment.2)

/-- Serves what a scan found. -/
def recoveredProvider (parsed : List (RecoveredSegment × ParsedSegment)) : SegmentProvider :=
  fun identifier =>
    match parsed.find? fun entry => entry.1.1 = identifier with
    | some entry => .ok ⟨entry.2, entry.1.2⟩
    | none => .error (.segmentNotFound identifier)

/-- The write of one recovered segment: its generation and references are those of its
header, its binary references those that resolve among the recovered segments. -/
def recoveryWrite (provider : SegmentProvider) (targetName : String)
    (clock : SegmentIdentifier → UInt64) (entry : RecoveredSegment × ParsedSegment) :
    Result SegmentWrite := do
  let identifier := entry.1.1
  let segment ← provider identifier
  let binaryReferences ← (readBlobIdentifiers provider segment).mapError fun error =>
    .invalidFormat s!"cannot rebuild the binary references catalog while recovering {targetName}: an external blob identifier in segment {identifier.display} does not resolve within the recovered segments ({error.display}); refusing to publish an incomplete catalog, which could let blob garbage collection delete referenced binaries"
  return ⟨clock identifier, identifier, entry.1.2, entry.2.garbageCollectionGeneration,
    entry.2.referencedSegments, binaryReferences⟩

/-- The writes of the replacement archive. -/
def recoveryWrites (targetName : String) (clock : SegmentIdentifier → UInt64)
    (recovered : List RecoveredSegment) : Result (List SegmentWrite) := do
  let parsed ← parseRecovered recovered
  parsed.mapM (recoveryWrite (recoveredProvider parsed) targetName clock)

/-- The bytes of the replacement archive under its temporary name. -/
def writeReplacement (temporaryName : String) (times : CloseTimes) (ws : List SegmentWrite) :
    Result Bytes := do
  let writer ← (TarArchiveWriter.new temporaryName).run (ws.map .writeSegment)
  match writer.close times with
  | some file => return file
  | none => .error (.inputOutput s!"{temporaryName} does not exist")

/-- Recovers an archive number with no valid index: the merged segments are written as a
new archive, which replaces the letters once it opens with a valid index. -/
def recoverArchiveNumber (generations : List ArchiveLetter) (clock : SegmentIdentifier → UInt64)
    (times : CloseTimes) : Result TarArchiveReader := do
  let recovered := scanRecoverableSegments generations
  if recovered.isEmpty then .error (unrecoverableArchiveNumberRefusal generations)
  else
    let targetName := (installTargetGeneration generations).getD ""
    let temporaryName := targetName ++ ".recovering"
    let file ← writeReplacement temporaryName times (← recoveryWrites targetName clock recovered)
    let validated ← TarArchiveReader.openFile temporaryName file
    if validated.isRecovered then
      invalid s!"the rebuilt archive {temporaryName} failed index validation"
    else TarArchiveReader.openFile targetName file

/-- Writes the replacement archive of the recovered segments, and opens it under its
temporary name. -/
def rebuildArchive (targetName : String) (clock : SegmentIdentifier → UInt64) (times : CloseTimes)
    (recovered : List RecoveredSegment) : Result Bytes := do
  let temporaryName := targetName ++ ".recovering"
  let file ← writeReplacement temporaryName times (← recoveryWrites targetName clock recovered)
  let validated ← TarArchiveReader.openFile temporaryName file
  if validated.isRecovered then
    invalid s!"the rebuilt archive {temporaryName} failed index validation"
  else return file

/-! ## The order of the merged list -/

/-- The segments in order. -/
abbrev identifiersOf (segments : List RecoveredSegment) : List SegmentIdentifier :=
  segments.map Prod.fst

/-- The bytes of a segment in the newest file that has it. -/
def Newest (generations : List ArchiveLetter) (identifier : SegmentIdentifier) (bytes : Bytes) :
    Prop :=
  ∃ older letter newer, generations = older ++ letter :: newer ∧
    (identifier, bytes) ∈ letterSegments letter ∧
    ∀ later ∈ newer, identifier ∉ identifiersOf (letterSegments later)

/-- A data segment refers to a bulk segment. -/
def RefersToBulk (data : SegmentIdentifier) (bytes : Bytes) (bulk : SegmentIdentifier) : Prop :=
  data.isDataSegment = true ∧ bulk.isBulkSegment = true ∧
    ∃ parsed, ParsedSegment.parse data bytes = .ok parsed ∧ bulk ∈ parsed.referencedSegments

/-- What a merge of the letters should be: each segment once, with its newest bytes, and
every bulk segment before the data segments that refer to it. -/
structure KeepsWriteOrder (generations : List ArchiveLetter) (merged : List RecoveredSegment) :
    Prop where
  nodup : (identifiersOf merged).Nodup
  complete : ∀ identifier, identifier ∈ identifiersOf merged ↔
    ∃ letter ∈ generations, identifier ∈ identifiersOf (letterSegments letter)
  newest : ∀ identifier bytes, (identifier, bytes) ∈ merged ↔ Newest generations identifier bytes
  order : ∀ data bytes bulk, (data, bytes) ∈ merged → RefersToBulk data bytes bulk →
    bulk ∈ identifiersOf merged →
      (identifiersOf merged).idxOf bulk < (identifiersOf merged).idxOf data

/-- Every bulk segment of the number that the newest copy of a data segment refers to is
held by a letter older than the oldest one with the data segment, or stands before the
data segment in that letter. -/
def BulkHeldEarlier (generations : List ArchiveLetter) : Prop :=
  ∀ data bytes bulk, Newest generations data bytes → RefersToBulk data bytes bulk →
    (∃ letter ∈ generations, bulk ∈ identifiersOf (letterSegments letter)) →
    ∀ older letter newer earlier copy later, generations = older ++ letter :: newer →
      letterSegments letter = earlier ++ (data, copy) :: later →
      data ∉ identifiersOf (older.flatMap letterSegments) → data ∉ identifiersOf earlier →
      bulk ∈ identifiersOf (older.flatMap letterSegments) ∨ bulk ∈ identifiersOf earlier

variable {generations : List ArchiveLetter} {identifier : SegmentIdentifier}
  {letter : ArchiveLetter} {bytes : Bytes} {clock : SegmentIdentifier → UInt64}
  {ws : List SegmentWrite} {times : CloseTimes}

theorem mem_identifiersOf_flatMap :
    identifier ∈ identifiersOf (generations.flatMap letterSegments) ↔
      ∃ letter ∈ generations, identifier ∈ identifiersOf (letterSegments letter) := by
  simp only [List.map_flatMap, List.mem_flatMap]

/-- A letter holds one content for an identifier. -/
theorem letterSegments_inj {bytes' : Bytes} (h : (identifier, bytes) ∈ letterSegments letter)
    (h' : (identifier, bytes') ∈ letterSegments letter) : bytes = bytes' := by
  unfold letterSegments at h h'
  cases hopen : openFile letter.fileName letter.bytes with
  | error error =>
    rw [hopen] at h
    cases h
  | ok reader =>
    rw [hopen] at h h'
    simp only [List.mem_filterMap, Option.map_eq_some_iff, Prod.mk.injEq] at h h'
    obtain ⟨_, _, _, hdata, rfl, rfl⟩ := h
    obtain ⟨_, _, _, hdata', rfl, rfl⟩ := h'
    rw [hdata] at hdata'
    exact Option.some.inj hdata'

/-- A segment is merged with the bytes of its newest letter. -/
theorem mem_scan_iff : (identifier, bytes) ∈ scanRecoverableSegments generations ↔
      Newest generations identifier bytes := by
  constructor
  · intro h
    rcases List.exists_of_mem_putAllFirst h with ⟨hnil, -⟩ | ⟨earlier, later, hpairs, hlast⟩
    · cases hnil
    · obtain ⟨older, letter, newer, inner, outer, rfl, hletter, -, rfl⟩ :=
        List.flatMap_eq_append_cons hpairs
      refine ⟨older, letter, newer, rfl, by rw [hletter]; simp, ?_⟩
      intro later hlater hmem
      refine hlast ?_
      rw [List.map_append, List.mem_append]
      exact Or.inr (mem_identifiersOf_flatMap.mpr ⟨later, hlater, hmem⟩)
  · rintro ⟨older, letter, newer, rfl, hmem, hnewer⟩
    obtain ⟨inner, value, outer, hletter, hlast⟩ :=
      List.exists_last_of_mem_keys (List.mem_map_of_mem (f := Prod.fst) hmem)
    have hvalue : value = bytes :=
      letterSegments_inj (by rw [hletter]; simp) hmem
    subst hvalue
    have hsplit : (older ++ letter :: newer).flatMap letterSegments =
        (older.flatMap letterSegments ++ inner) ++
          (identifier, value) :: (outer ++ newer.flatMap letterSegments) := by
      rw [List.flatMap_append, List.flatMap_cons, hletter]
      simp
    rw [scanRecoverableSegments, hsplit]
    refine List.mem_putAllFirst_append_cons ?_
    rw [List.map_append, List.mem_append]
    rintro (h | h)
    · exact hlast h
    · obtain ⟨later, hlater, hin⟩ := mem_identifiersOf_flatMap.mp h
      exact hnewer later hlater hin

/-- The newest letter has the last word. -/
theorem newest_append_singleton :
    Newest (generations ++ [letter]) identifier bytes ↔
      (identifier, bytes) ∈ letterSegments letter ∨
        identifier ∉ identifiersOf (letterSegments letter) ∧
          Newest generations identifier bytes := by
  constructor
  · rintro ⟨older, found, newer, hsplit, hmem, hnewer⟩
    rcases List.eq_nil_or_concat newer with rfl | ⟨rest, last, rfl⟩
    · obtain ⟨-, hlast⟩ := List.append_inj' hsplit rfl
      cases hlast
      exact .inl hmem
    · rw [List.concat_eq_append, ← List.cons_append, ← List.append_assoc] at hsplit
      obtain ⟨hgenerations, hlast⟩ := List.append_inj' hsplit rfl
      cases hlast
      refine .inr ⟨hnewer letter (by simp), older, found, rest, hgenerations, hmem, ?_⟩
      intro later hlater
      exact hnewer later (by simp [hlater])
  · rintro (hmem | ⟨hnot, older, found, newer, rfl, hmem, hnewer⟩)
    · exact ⟨generations, letter, [], rfl, hmem, fun later hlater => absurd hlater List.not_mem_nil⟩
    · refine ⟨older, found, newer ++ [letter], by simp, hmem, ?_⟩
      intro later hlater
      rcases List.mem_append.mp hlater with hin | hin
      · exact hnewer later hin
      · rw [List.mem_singleton.mp hin]
        exact hnot

theorem mem_identifiersOf_scan :
    identifier ∈ identifiersOf (scanRecoverableSegments generations) ↔
      ∃ letter ∈ generations, identifier ∈ identifiersOf (letterSegments letter) := by
  rw [← mem_identifiersOf_flatMap]
  exact List.mem_keys_putAllFirst.trans (by simp)

/-- In the merged list a bulk segment stands before a data segment exactly when it is met
before it. -/
theorem scan_order_iff {data bulk : SegmentIdentifier}
    (hdata : data ∈ identifiersOf (scanRecoverableSegments generations))
    (hbulk : bulk ∈ identifiersOf (scanRecoverableSegments generations)) :
    (identifiersOf (scanRecoverableSegments generations)).idxOf bulk <
        (identifiersOf (scanRecoverableSegments generations)).idxOf data ↔
      ∀ older letter newer earlier copy later, generations = older ++ letter :: newer →
        letterSegments letter = earlier ++ (data, copy) :: later →
        data ∉ identifiersOf (older.flatMap letterSegments) → data ∉ identifiersOf earlier →
        bulk ∈ identifiersOf (older.flatMap letterSegments) ∨ bulk ∈ identifiersOf earlier := by
  have hdata' := mem_identifiersOf_flatMap.mpr (mem_identifiersOf_scan.mp hdata)
  have hbulk' := mem_identifiersOf_flatMap.mpr (mem_identifiersOf_scan.mp hbulk)
  have hmet : (identifiersOf (scanRecoverableSegments generations)).idxOf bulk <
      (identifiersOf (scanRecoverableSegments generations)).idxOf data ↔
      (identifiersOf (generations.flatMap letterSegments)).idxOf bulk <
        (identifiersOf (generations.flatMap letterSegments)).idxOf data :=
    List.idxOf_putAllFirst_lt_iff hbulk' hdata'
  -- the letters read up to the first copy of the data segment
  have hmetFirst : ∀ {older : List ArchiveLetter} {letter : ArchiveLetter}
      {newer : List ArchiveLetter} {earlier later : List RecoveredSegment} {copy : Bytes},
      generations = older ++ letter :: newer →
      letterSegments letter = earlier ++ (data, copy) :: later →
      data ∉ identifiersOf (older.flatMap letterSegments) → data ∉ identifiersOf earlier →
      ((identifiersOf (generations.flatMap letterSegments)).idxOf bulk <
        (identifiersOf (generations.flatMap letterSegments)).idxOf data ↔
        bulk ∈ identifiersOf (older.flatMap letterSegments) ∨ bulk ∈ identifiersOf earlier) := by
    intro older letter newer earlier later copy hgenerations hletter holder hearlier
    have hsplit : identifiersOf (generations.flatMap letterSegments) =
        (identifiersOf (older.flatMap letterSegments) ++ identifiersOf earlier) ++
          data :: identifiersOf (later ++ newer.flatMap letterSegments) := by
      rw [hgenerations, List.flatMap_append, List.flatMap_cons, hletter]
      simp [identifiersOf]
    rw [hsplit, List.idxOf_lt_iff_mem, List.mem_append]
    rw [List.mem_append]
    exact fun h => h.elim holder hearlier
  rw [hmet]
  constructor
  · intro hlt older letter newer earlier copy later hgenerations hletter holder hearlier
    exact (hmetFirst hgenerations hletter holder hearlier).mp hlt
  · intro hheld
    obtain ⟨before, copy, after, hsplit, hfirst⟩ := List.exists_first_of_mem_keys hdata'
    obtain ⟨older, letter, newer, inner, outer, hgenerations, hletter, rfl, -⟩ :=
      List.flatMap_eq_append_cons hsplit
    rw [List.map_append, List.mem_append, not_or] at hfirst
    exact (hmetFirst hgenerations hletter hfirst.1 hfirst.2).mpr
      (hheld older letter newer inner copy outer hgenerations hletter hfirst.1 hfirst.2)

/-! ## The replacement archive -/

/-- The replacement holds the recovered segments in their order. -/
theorem recoveryWrites_segments {targetName : String} {recovered : List RecoveredSegment}
    (h : recoveryWrites targetName clock recovered = .ok ws) :
    ws.map (fun write => (write.identifier, write.content)) = recovered := by
  rw [recoveryWrites, bind_ok_iff] at h
  obtain ⟨parsed, hparsed, hwrites⟩ := h
  have hfirst : parsed.map Prod.fst = recovered.map id := by
    refine Except.mapM_ok_map hparsed ?_
    intro segment entry hentry
    obtain ⟨structure_, -, heq⟩ := bind_ok_iff.mp hentry
    cases heq
    rfl
  have hsecond : ws.map (fun write => (write.identifier, write.content)) = parsed.map Prod.fst := by
    refine Except.mapM_ok_map hwrites ?_
    intro entry write hwrite
    simp only [recoveryWrite, bind_ok_iff] at hwrite
    obtain ⟨segment, -, references, -, heq⟩ := hwrite
    cases heq
    rfl
  rw [hsecond, hfirst, List.map_id]

theorem writeReplacement_ok {temporaryName : String}
    {file : Bytes} (h : writeReplacement temporaryName times ws = .ok file) :
    ∃ writer, (new temporaryName).run (ws.map .writeSegment) = .ok writer ∧
      writer.close times = some file := by
  rw [writeReplacement, bind_ok_iff] at h
  obtain ⟨writer, hrun, hclose⟩ := h
  refine ⟨writer, hrun, ?_⟩
  split at hclose
  · rename_i closed hclosed
    rw [hclosed, Except.pure_ok_iff.mp hclose]
  · cases hclose

/-- A recovered archive number is written from the merged list. -/
theorem recoverArchiveNumber_ok {archive : TarArchiveReader}
    (h : recoverArchiveNumber generations clock times = .ok archive) :
    ∃ (targetName : String) (ws : List SegmentWrite) (writer : TarArchiveWriter) (file : Bytes),
      (new (targetName ++ ".recovering")).run (ws.map .writeSegment) = .ok writer ∧
      writer.close times = some file ∧ openFile targetName file = .ok archive ∧
      ws.map (fun write => (write.identifier, write.content)) =
        scanRecoverableSegments generations := by
  unfold recoverArchiveNumber at h
  dsimp only at h
  split at h
  · cases h
  obtain ⟨ws, hwrites, h⟩ := bind_ok_iff.mp h
  obtain ⟨file, hfile, h⟩ := bind_ok_iff.mp h
  obtain ⟨validated, -, h⟩ := bind_ok_iff.mp h
  obtain ⟨writer, hrun, hclose⟩ := writeReplacement_ok hfile
  split at h
  · cases h
  · exact ⟨_, ws, writer, file, hrun, hclose, h, recoveryWrites_segments hwrites⟩

/-- **The order of a recovered archive number.**  The merged list holds every segment once
with its newest bytes, and every bulk segment before the data segments that refer to it,
exactly when each such bulk segment is held by a letter older than the oldest one with the
data segment, or stands before it there.  The replacement archive is written in the order
of the merged list. -/
theorem scan_keeps_write_order_iff (generations : List ArchiveLetter) :
    (KeepsWriteOrder generations (scanRecoverableSegments generations) ↔
      BulkHeldEarlier generations) ∧
    ∀ clock times archive, recoverArchiveNumber generations clock times = .ok archive →
      ∃ (targetName : String) (ws : List SegmentWrite) (writer : TarArchiveWriter) (file : Bytes),
        (new (targetName ++ ".recovering")).run (ws.map .writeSegment) = .ok writer ∧
        writer.close times = some file ∧ TarArchiveReader.openFile targetName file = .ok archive ∧
        ws.map (fun write => (write.identifier, write.content)) =
          scanRecoverableSegments generations := by
  refine ⟨⟨?_, ?_⟩, fun clock times archive h => recoverArchiveNumber_ok h⟩
  · intro h data bytes bulk hnewest hrefers hheld
    have hmem : (data, bytes) ∈ scanRecoverableSegments generations := mem_scan_iff.mpr hnewest
    have hbulk := mem_identifiersOf_scan.mpr hheld
    exact (scan_order_iff (List.mem_map_of_mem hmem) hbulk).mp (h.order data bytes bulk hmem hrefers
      hbulk)
  · intro h
    refine ⟨List.nodup_putAllFirst (by simp), fun identifier => mem_identifiersOf_scan,
      fun identifier bytes => mem_scan_iff, ?_⟩
    intro data bytes bulk hmem hrefers hbulk
    exact (scan_order_iff (List.mem_map_of_mem hmem) hbulk).mpr
      (h data bytes bulk (mem_scan_iff.mp hmem) hrefers (mem_identifiersOf_scan.mp hbulk))

/-! ## A lost bulk segment -/

/-- A short file has no index, and is opened by the scan. -/
theorem openFile_short (fileName : String) (hshort : bytes.length < 3072)
    (hne : bytes ≠ []) : ∃ reason, openFile fileName bytes =
      .ok ⟨fileName, bytes, .recovered reason (recoverSegmentEntries bytes fileName)⟩ := by
  obtain ⟨error, herror⟩ : ∃ error, validateArchiveShape bytes.length = .error error := by
    rw [validateArchiveShape]
    by_cases haligned : bytes.length % 512 ≠ 0
    · exact ⟨_, if_pos haligned⟩
    · exact ⟨_, (if_neg haligned).trans (if_pos (show bytes.length < 6 * 512 by omega))⟩
  have hindex : parseSegmentIndex bytes = .error error := by
    rw [parseSegmentIndex, herror]
    rfl
  refine ⟨error.details, ?_⟩
  rw [openFile, if_neg (by simpa using hne), hindex]

/-- What a short archive without trailers holds is what was written. -/
theorem letterSegments_unclosed {fileName : String} {archiveNumber : Nat}
    (hne : ws ≠ []) (hdistinct : (ws.map SegmentWrite.identifier).Nodup)
    (hshort : bodySize ws < 3072) :
    letterSegments ⟨fileName, archiveNumber, bodyBytes ws⟩ =
      ws.map fun write => (write.identifier, write.content) := by
  obtain ⟨writer, -, hrep, hfile, -⟩ := exists_writer fileName ws hne (by omega)
  have hlimit : (bodyBytes ws).length ≤ 2 ^ 31 - 1 := by
    rw [length_bodyBytes]
    omega
  have hwrites : writes (ws.map .writeSegment) = ws := by
    rw [writes, List.filterMap_map]
    exact List.filterMap_some
  have hcomplete : ∀ row ∈ layout 0 ws, row.recovered.2.stop ≤ (bodyBytes ws).length := by
    intro row hrow
    have hstop := stop_le_of_mem_layout (by omega) hrow
    omega
  obtain ⟨rows, hrows⟩ : ∃ rows, rows = (layout 0 ws).map PendingIndexEntry.recovered := ⟨_, rfl⟩
  have hkeys : rows.map Prod.fst = ws.map SegmentWrite.identifier := by
    rw [hrows, List.map_map, ← layout_map_identifier 0 ws]
    rfl
  have hscan : recoverSegmentEntries (bodyBytes ws) fileName = rows := by
    have hproduced : Produced writer fileName (bodyBytes ws) := .unclosed hfile
    have hcollect := recoverSegmentEntries_complete (n := (bodyBytes ws).length) hrep hproduced
    rw [hwrites, List.take_length] at hcollect
    rw [hcollect hcomplete, collectRows_of_nodup, List.nil_append, hrows]
    rw [List.map_nil, List.nil_append, layout_map_identifier]
    exact hdistinct
  obtain ⟨reason, hopen⟩ := openFile_short fileName (length_bodyBytes ws ▸ hshort)
    (show bodyBytes ws ≠ [] by
      obtain ⟨write, ws', rfl⟩ := List.exists_cons_of_ne_nil hne
      exact List.ne_nil_of_length_pos (by rw [length_bodyBytes, bodySize_cons]; omega))
  rw [hscan] at hopen
  have hcontents : List.Forall₂ (fun entry write => entry.1 = write.identifier ∧
      Bytes.range? (bodyBytes ws) entry.2.start entry.2.stop = some write.content) rows ws := by
    have hparts : bodyBytes ws = [] ++ bodyBytes ws ++ [] := by simp
    have hread := rows_read_contents hparts hlimit hcomplete
    rw [List.take_length] at hread
    rw [hrows]
    exact hread
  -- each row is the only one of its identifier
  have hlookup : ∀ entry ∈ rows, rows.lookup entry.1 = some entry.2 := by
    intro entry hentry
    exact (List.lookup_eq_some_iff_mem (by rw [hkeys]; exact hdistinct)).mpr hentry
  obtain ⟨read, hread⟩ : ∃ read : SegmentIdentifier → Option RecoveredSegment,
      read = fun identifier => (do
        let data ← rows.lookup identifier
        Bytes.range? (bodyBytes ws) data.start data.stop).map fun bytes => (identifier, bytes) :=
    ⟨_, rfl⟩
  have hfilter : ∀ {part : List (SegmentIdentifier × DataRange)} {ws' : List SegmentWrite},
      List.Forall₂ (fun entry write => entry.1 = write.identifier ∧
        Bytes.range? (bodyBytes ws) entry.2.start entry.2.stop = some write.content) part ws' →
      (∀ entry ∈ part, entry ∈ rows) → (part.map Prod.fst).filterMap read =
        ws'.map fun write => (write.identifier, write.content) := by
    intro part ws' hpart
    induction hpart with
    | nil => intro _; rfl
    | @cons entry write part ws' hhead _ ih =>
      intro hin
      have hone : read entry.1 = some (write.identifier, write.content) := by
        rw [hread]
        dsimp only
        rw [hlookup entry (hin _ (List.mem_cons_self ..)), Option.bind_eq_bind, Option.bind_some,
          hhead.2, Option.map_some, hhead.1]
      rw [List.map_cons, List.filterMap_cons_some hone, List.map_cons,
        ih fun other hother => hin other (List.mem_cons_of_mem _ hother)]
  have hall := hfilter hcontents fun entry hentry => hentry
  rw [hread] at hall
  rw [letterSegments, hopen]
  exact hall

/-- A bulk segment. -/
def lostBulk : SegmentWrite :=
  ⟨0, ⟨2, 0xB000000000000000⟩, [1], ⟨0, 0, false⟩, [], []⟩

/-- A data segment that refers to it. -/
def referringData : SegmentWrite :=
  ⟨0, ⟨1, 0xA000000000000000⟩, "0aK".utf8 ++ 13 :: List.replicate 13 0 ++ 1 ::
    List.replicate 14 0 ++ identifierBytes lostBulk.identifier, ⟨0, 0, false⟩, [], []⟩

/-- Two letters.  The older one has lost the bulk segment. -/
def lettersWithLostBulk : List ArchiveLetter :=
  [⟨"data00000a.tar", 0, bodyBytes [referringData]⟩,
    ⟨"data00000b.tar", 0, bodyBytes [lostBulk, referringData]⟩]

/-- In each letter the segments stand behind the segments they refer to, but in the merged
list the bulk segment stands behind the data segment that refers to it. -/
theorem lost_bulk_behind_data :
    lettersWithLostBulk.map letterSegments =
        [[(referringData.identifier, referringData.content)],
          [(lostBulk.identifier, lostBulk.content),
            (referringData.identifier, referringData.content)]] ∧
      identifiersOf (scanRecoverableSegments lettersWithLostBulk) =
        [referringData.identifier, lostBulk.identifier] ∧
      RefersToBulk referringData.identifier referringData.content lostBulk.identifier ∧
      ¬ KeepsWriteOrder lettersWithLostBulk (scanRecoverableSegments lettersWithLostBulk) := by
  have ha : letterSegments ⟨"data00000a.tar", 0, bodyBytes [referringData]⟩ =
      [(referringData.identifier, referringData.content)] :=
    letterSegments_unclosed (by simp) (by decide) (by decide)
  have hb : letterSegments ⟨"data00000b.tar", 0, bodyBytes [lostBulk, referringData]⟩ =
      [(lostBulk.identifier, lostBulk.content),
        (referringData.identifier, referringData.content)] :=
    letterSegments_unclosed (by simp) (by decide) (by decide)
  have hscan : scanRecoverableSegments lettersWithLostBulk =
      [(referringData.identifier, referringData.content),
        (lostBulk.identifier, lostBulk.content)] := by
    rw [scanRecoverableSegments, lettersWithLostBulk, List.flatMap_cons, List.flatMap_cons,
      List.flatMap_nil, ha, hb]
    decide
  have hrefers : RefersToBulk referringData.identifier referringData.content
      lostBulk.identifier := by
    exact ⟨by decide, by decide, ⟨referringData.identifier, .data, 48, some 13, 0, 0, false,
      [lostBulk.identifier], [], List.Pairwise.nil⟩, rfl, List.mem_singleton_self _⟩
  refine ⟨?_, ?_, hrefers, ?_⟩
  · rw [lettersWithLostBulk, List.map_cons, List.map_cons, List.map_nil, ha, hb]
  · rw [hscan]
    rfl
  · intro h
    have horder := h.order referringData.identifier referringData.content lostBulk.identifier
      (by rw [hscan]; simp) hrefers (by rw [hscan]; simp)
    rw [hscan] at horder
    exact absurd horder (by decide)

end Froe
