import Froe.Tar.RoundTrip

/-!
# Archive writers and failing writes

A write to the file may fail behind any part of its bytes.  The part stays in the file,
and the file is written on from there, but the writer does not count it.  So a writer
that goes on behind a part of an entry places its next entry wrongly, and one that
writes nothing more is sound (`located_of_unbroken`).  The closed file can be opened through
its index when the parts left in it make whole blocks.
-/

namespace Froe

namespace TarArchiveWriter

/-! ## Writes that may fail -/

/-- How one `write_all` ends. -/
inductive WriteOutcome where
  | complete
  /-- The write fails behind the first bytes. -/
  | broken (count : Nat)
deriving DecidableEq

/-- How the system answers the calls of one segment write. -/
inductive EntryOutcome where
  /-- The file cannot be created. -/
  | refused
  /-- The three writes of the entry. -/
  | writes (header content padding : WriteOutcome)
deriving DecidableEq

/-- The bytes that a write leaves, and whether it succeeds. -/
def writeAll (bytes : Bytes) : WriteOutcome → Bytes × Bool
  | .complete => (bytes, true)
  | .broken count => (bytes.take count, false)

/-- Writes behind one another, up to the first that fails. -/
def writeParts : List (Bytes × WriteOutcome) → Bytes × Bool
  | [] => ([], true)
  | (bytes, outcome) :: parts =>
    let (written, succeeded) := writeAll bytes outcome
    if succeeded then
      let (more, succeeded) := writeParts parts
      (written ++ more, succeeded)
    else (written, false)

/-- What one segment write leaves in the file, and whether it gets through. -/
def writeEntry (write : SegmentWrite) : EntryOutcome → Bytes × Bool
  | .refused => ([], false)
  | .writes header content padding =>
    let entryName := segmentEntryName write.identifier (crc32 write.content)
    writeParts [(entryHeader write.seconds entryName (UInt64.ofNat write.content.length), header),
      (write.content, content), (List.replicate (paddingSize write.content.length) 0, padding)]

/-- Writes one segment entry.  When a write fails, what it has written stays in the file. -/
def attemptSegment (writer : TarArchiveWriter) (write : SegmentWrite) (outcome : EntryOutcome) :
    TarArchiveWriter × Result Nat :=
  if writer.closed then
    (writer, invalid s!"archive {writer.fileName} is already closed")
  else if outcome = .refused then
    (writer, .error (.inputOutput s!"{writer.fileName} cannot be created"))
  else
    let (written, succeeded) := writeEntry write outcome
    if succeeded then
      writer.writeSegment write.seconds write.identifier write.content write.generation
        write.referencedSegments write.binaryReferenceIdentifiers
    else
      ({ writer with file := some (writer.file.getD [] ++ written) },
        .error (.inputOutput s!"{writer.fileName} cannot be written"))

/-- Reads a segment back from the open file.  The last write of an identifier counts. -/
def readSegment (writer : TarArchiveWriter) (identifier : SegmentIdentifier) :
    Result (Option Bytes) :=
  match writer.indexEntries.reverse.find? fun entry => entry.identifier == identifier with
  | none => .ok none
  | some entry =>
    match writer.file with
    | none => invalid "index entries exist but no file was created"
    | some file =>
      match file.range? entry.dataOffset.toNat (entry.dataOffset.toNat + entry.size.toNat) with
      | some content => .ok (some content)
      | none => .error (.inputOutput "failed to fill whole buffer")

end TarArchiveWriter

/-! ## Runs -/

open TarArchiveWriter

/-- One call of `write_segment`, and how the system answers. -/
structure Attempt where
  write : SegmentWrite
  outcome : EntryOutcome
deriving DecidableEq

/-- Whether every write of an attempt gets through. -/
def Attempt.Complete (attempt : Attempt) : Prop :=
  (writeEntry attempt.write attempt.outcome).2 = true

/-- An attempt that leaves a part of its entry in the file. -/
def Attempt.LeavesPart (attempt : Attempt) : Prop :=
  (writeEntry attempt.write attempt.outcome).2 = false ∧
    (writeEntry attempt.write attempt.outcome).1 ≠ []

/-- The writer after some calls, and the writes that returned a length. -/
def attemptAll (writer : TarArchiveWriter) : List Attempt → TarArchiveWriter × List SegmentWrite
  | [] => (writer, [])
  | attempt :: attempts =>
    match writer.attemptSegment attempt.write attempt.outcome with
    | (next, .ok _) =>
      let (last, kept) := attemptAll next attempts
      (last, attempt.write :: kept)
    | (next, .error _) => attemptAll next attempts

def Locates (file : Bytes) (row : PendingIndexEntry) (write : SegmentWrite) : Prop :=
  row.identifier = write.identifier ∧ row.generation = write.generation ∧
    file.range? row.dataOffset.toNat (row.dataOffset.toNat + row.size.toNat) = some write.content

/-- What a closed file must be to be read through its index, whether or not writes have failed:
it has segments, of distinct identifiers, none of them empty, and a length within the limit. -/
structure Indexable (file : Bytes) (kept : List SegmentWrite) : Prop where
  some_ : kept ≠ []
  distinct : (kept.map SegmentWrite.identifier).Nodup
  content : ∀ write ∈ kept, write.content ≠ []
  length : file.length ≤ 2 ^ 31 - 1

/-- Every row of the index locates its segment in the closed file, the closed file opens with
these rows and serves the segments written successfully, and the open one reads them back. -/
structure Located (writer : TarArchiveWriter) (kept : List SegmentWrite) : Prop where
  closed : ∀ times file, writer.close times = some file →
    List.Forall₂ (Locates file) writer.indexEntries kept
  opens : ∀ times file, writer.close times = some file → Indexable file kept → ∀ name,
    ∃ index, TarArchiveReader.openFile name file = .ok ⟨name, file, .indexed index⟩ ∧
      index.entries.Perm (writer.indexEntries.map PendingIndexEntry.indexed) ∧
      ∀ write ∈ kept,
        TarArchiveReader.segmentData ⟨name, file, .indexed index⟩ write.identifier =
          some write.content
  read : ∀ identifier, writer.readSegment identifier =
    .ok ((kept.reverse.find? fun write => write.identifier == identifier).map
      SegmentWrite.content)

/-- Behind a part of an entry no write gets through. -/
def NothingBehindPart (attempts : List Attempt) : Prop :=
  attempts.Pairwise fun before after => before.LeavesPart → ¬ after.Complete

/-- The number of bytes that an attempt leaves in the file without counting them. -/
def Attempt.left (attempt : Attempt) : Nat :=
  if (writeEntry attempt.write attempt.outcome).2 then 0
  else (writeEntry attempt.write attempt.outcome).1.length

/-- The parts that failing writes leave make whole blocks. -/
def WholeBlocksLeft (attempts : List Attempt) : Prop :=
  (attempts.map Attempt.left).sum % 512 = 0

/-! ## One attempt -/

variable {file : Bytes} {writer next : TarArchiveWriter} {kept : List SegmentWrite}
  {attempt : Attempt} {attempts : List Attempt}

/-- What a range covers is not moved by what is written behind it. -/
theorem range?_append {content : Bytes} {start stop : Nat} (more : Bytes)
    (h : file.range? start stop = some content) : (file ++ more).range? start stop = some content := by
  rw [Bytes.range?, Option.ite_none_right_eq_some] at h
  obtain ⟨⟨hstart, hstop⟩, hslice⟩ := h
  rw [Bytes.range?, if_pos ⟨hstart, by rw [List.length_append]; omega⟩,
    Bytes.slice_append_left (by omega)]
  exact hslice

theorem Locates.append {row : PendingIndexEntry} {write : SegmentWrite}
    (h : Locates file row write) (more : Bytes) : Locates (file ++ more) row write :=
  ⟨h.1, h.2.1, range?_append more h.2.2⟩

/-- The rows of the index locate the segments written, in a file that is all there. -/
structure Placed (writer : TarArchiveWriter) (kept : List SegmentWrite) : Prop where
  open_ : writer.closed = false
  file : writer.file = none → writer.indexEntries = []
  rows : List.Forall₂ (Locates (writer.file.getD [])) writer.indexEntries kept
  aligned : ∀ row ∈ writer.indexEntries, row.dataOffset.toNat % 512 = 0 ∧
    row.dataOffset.toNat + row.size.toNat ≤ 2 ^ 31 - 1

/-- An attempt that does not get through adds no row, and what it leaves stands behind the
file. -/
theorem Placed.incomplete (h : Placed writer kept) (hincomplete : ¬ attempt.Complete) :
    ∃ next error, writer.attemptSegment attempt.write attempt.outcome = (next, .error error) ∧
      Placed next kept ∧ next.length = writer.length ∧
      (next.file.getD []).length = (writer.file.getD []).length + attempt.left ∧
      (¬ attempt.LeavesPart → next.file.getD [] = writer.file.getD []) := by
  rw [Attempt.Complete, Bool.not_eq_true] at hincomplete
  have hleft : attempt.left = (writeEntry attempt.write attempt.outcome).1.length := by
    rw [Attempt.left, hincomplete]
    rfl
  rw [attemptSegment, if_neg (by rw [h.open_]; exact Bool.false_ne_true), hleft]
  split
  · rename_i hrefused
    refine ⟨_, _, rfl, h, rfl, ?_, fun _ => rfl⟩
    rw [hrefused]
    rfl
  · simp only [hincomplete]
    rw [if_neg Bool.false_ne_true]
    refine ⟨_, _, rfl, ⟨h.open_, (by rintro ⟨⟩), ?_, h.aligned⟩, rfl, ?_, ?_⟩
    · exact h.rows.imp fun _ _ hrow => hrow.append _
    · rw [Option.getD_some, List.length_append]
    · intro hpart
      have hnil : (writeEntry attempt.write attempt.outcome).1 = [] := by
        by_contra hne
        exact hpart ⟨hincomplete, hne⟩
      simp only [hnil, List.append_nil, Option.getD_some]

/-- The row of an entry locates its content behind the file it was appended to. -/
theorem locates_append (write : SegmentWrite)
    (hlimit : file.length + write.entryBytes.length ≤ 2 ^ 31 - 1) :
    Locates (file ++ write.entryBytes) (write.indexRow file.length) write := by
  have hcontent := le_blocks write.content.length
  rw [length_entryBytes] at hlimit
  have hoffset : (UInt32.ofNat (file.length + tarBlockSize)).toNat = file.length + 512 := by
    rw [UInt32.toNat_ofNat', tarBlockSize]
    omega
  have hsize : (UInt32.ofNat write.content.length).toNat = write.content.length := by
    rw [UInt32.toNat_ofNat']
    omega
  refine ⟨rfl, rfl, ?_⟩
  rw [SegmentWrite.indexRow, hoffset, hsize, SegmentWrite.entryBytes, segmentEntryBytes]
  generalize hheader : entryHeader write.seconds (segmentEntryName write.identifier
    (crc32 write.content)) (UInt64.ofNat write.content.length) = header
  have hlength : header.length = 512 := by
    rw [← hheader, length_entryHeader]
  rw [← List.append_assoc, ← List.append_assoc, Bytes.range?_of_le,
    Bytes.slice_of_eq_append rfl _ rfl]
  · rw [List.length_append, hlength]
  · simp only [List.length_append, hlength]
    omega

/-- An attempt that gets through at the end of the file places its entry there. -/
theorem Placed.complete (h : Placed writer kept)
    (hcursor : (writer.file.getD []).length = writer.length)
    (hblocks : (writer.file.getD []).length % 512 = 0) (hcomplete : attempt.Complete) :
    ∃ next result, writer.attemptSegment attempt.write attempt.outcome = (next, result) ∧
      (next.file.getD []).length = next.length ∧ (next.file.getD []).length % 512 = 0 ∧
      Placed next (if result.isOk then kept ++ [attempt.write] else kept) := by
  have hopen : ¬ writer.closed = true := by
    rw [h.open_]
    exact Bool.false_ne_true
  have hrefused : attempt.outcome ≠ .refused := by
    intro hrefused
    rw [Attempt.Complete, hrefused] at hcomplete
    cases hcomplete
  have hlength : writer.length + tarBlockSize + attempt.write.content.length +
      paddingSize attempt.write.content.length =
        writer.length + attempt.write.entryBytes.length := by
    rw [length_entryBytes, blocks, ← add_paddingSize, tarBlockSize]
    omega
  have hbytes : segmentEntryBytes attempt.write.seconds attempt.write.identifier
      attempt.write.content = attempt.write.entryBytes := rfl
  have hentry : attempt.write.entryBytes.length % 512 = 0 := by
    have hcontent := blocks_mod attempt.write.content.length
    rw [length_entryBytes]
    omega
  have hend : (writer.file.getD [] ++ attempt.write.entryBytes).length % 512 = 0 := by
    rw [List.length_append]
    omega
  rw [Attempt.Complete] at hcomplete
  rw [attemptSegment, if_neg hopen, if_neg hrefused]
  simp only [hcomplete, if_true]
  rw [TarArchiveWriter.writeSegment, if_neg hopen]
  simp only [hlength, hbytes]
  split
  · refine ⟨_, _, rfl, ?_, hend, h.open_, (by rintro ⟨⟩), ?_, h.aligned⟩
    · rw [Option.getD_some, List.length_append, hcursor]
    · exact h.rows.imp fun _ _ hrow => hrow.append _
  · rename_i hlimit
    refine ⟨_, _, rfl, ?_, hend, h.open_, (by rintro ⟨⟩), ?_, ?_⟩
    · rw [Option.getD_some, List.length_append, hcursor]
    · refine List.rel_append (h.rows.imp fun _ _ hrow => hrow.append _) (.cons ?_ .nil)
      rw [← hcursor] at hlimit ⊢
      exact locates_append attempt.write (Nat.le_of_not_lt hlimit)
    · intro row hrow
      rcases List.mem_append.mp hrow with hold | hnew
      · exact h.aligned row hold
      · rw [List.mem_singleton.mp hnew]
        have hcontent := le_blocks attempt.write.content.length
        rw [length_entryBytes] at hlimit
        simp only [UInt32.toNat_ofNat', tarBlockSize]
        omega

/-! ## Runs of attempts -/

theorem attemptAll_ok {length : Nat}
    (h : writer.attemptSegment attempt.write attempt.outcome = (next, .ok length))
    (attempts : List Attempt) :
    attemptAll writer (attempt :: attempts) =
      ((attemptAll next attempts).1, attempt.write :: (attemptAll next attempts).2) := by
  rw [attemptAll, h]

theorem attemptAll_error {error : Error}
    (h : writer.attemptSegment attempt.write attempt.outcome = (next, .error error))
    (attempts : List Attempt) :
    attemptAll writer (attempt :: attempts) = attemptAll next attempts := by
  rw [attemptAll, h]

/-- Attempts that do not get through leave the rows in place. -/
theorem Placed.allIncomplete (h : Placed writer kept)
    (hincomplete : ∀ attempt ∈ attempts, ¬ attempt.Complete) :
    Placed (attemptAll writer attempts).1 (kept ++ (attemptAll writer attempts).2) ∧
      ((attemptAll writer attempts).1.file.getD []).length =
        (writer.file.getD []).length + (attempts.map Attempt.left).sum := by
  induction attempts generalizing writer with
  | nil =>
    rw [attemptAll, List.append_nil]
    exact ⟨h, rfl⟩
  | cons attempt attempts ih =>
    rw [List.forall_mem_cons] at hincomplete
    obtain ⟨next, error, hattempt, hnext, -, hleft, -⟩ := h.incomplete hincomplete.1
    obtain ⟨hlast, hlength⟩ := ih hnext hincomplete.2
    rw [attemptAll_error hattempt, List.map_cons, List.sum_cons, ← Nat.add_assoc, ← hleft]
    exact ⟨hlast, hlength⟩

/-- A run keeps the rows in place as long as nothing is written behind a part of an entry. -/
theorem Placed.run (h : Placed writer kept)
    (hcursor : (writer.file.getD []).length = writer.length)
    (hblocks : (writer.file.getD []).length % 512 = 0) (hrun : NothingBehindPart attempts) :
    Placed (attemptAll writer attempts).1 (kept ++ (attemptAll writer attempts).2) ∧
      ((attemptAll writer attempts).1.file.getD []).length % 512 =
        (attempts.map Attempt.left).sum % 512 := by
  induction attempts generalizing writer kept with
  | nil =>
    rw [attemptAll, List.append_nil]
    exact ⟨h, hblocks⟩
  | cons attempt attempts ih =>
    obtain ⟨hfirst, hrest⟩ := List.pairwise_cons.mp hrun
    rw [List.map_cons, List.sum_cons]
    by_cases hcomplete : attempt.Complete
    · obtain ⟨next, result, hattempt, hend, hwhole, hnext⟩ := h.complete hcursor hblocks hcomplete
      have hzero : attempt.left = 0 := if_pos hcomplete
      rw [hzero, Nat.zero_add]
      cases result with
      | error error =>
        rw [attemptAll_error hattempt]
        exact ih hnext hend hwhole hrest
      | ok length =>
        rw [attemptAll_ok hattempt]
        have hkept : Placed next (kept ++ [attempt.write]) := hnext
        obtain ⟨hlast, hlength⟩ := ih hkept hend hwhole hrest
        rw [List.append_assoc] at hlast
        exact ⟨hlast, hlength⟩
    · obtain ⟨next, error, hattempt, hnext, hlength, hleft, hsame⟩ := h.incomplete hcomplete
      rw [attemptAll_error hattempt]
      by_cases hpart : attempt.LeavesPart
      · obtain ⟨hlast, hall⟩ := hnext.allIncomplete fun after hafter => hfirst after hafter hpart
        exact ⟨hlast, by omega⟩
      · have hzero : attempt.left = 0 := by
          rw [hsame hpart] at hleft
          omega
        rw [hzero, Nat.zero_add]
        refine ih hnext ?_ ?_ hrest
        · rw [hsame hpart, hlength]
          exact hcursor
        · rw [hsame hpart]
          exact hblocks

theorem placed_new (fileName : String) : Placed (new fileName) [] where
  open_ := rfl
  file := fun _ => rfl
  rows := .nil
  aligned := by rintro _ ⟨⟩

/-- The row and the write that come first under an identifier belong together. -/
theorem find?_rows {rows : List PendingIndexEntry}
    (h : List.Forall₂ (Locates file) rows kept) (identifier : SegmentIdentifier) :
    Option.Rel (Locates file) (rows.find? fun row => row.identifier == identifier)
      (kept.find? fun write => write.identifier == identifier) := by
  induction h with
  | nil => exact .none
  | @cons row write rows kept hrow _ ih =>
    rw [List.find?_cons, List.find?_cons, hrow.1]
    cases write.identifier == identifier with
    | true => exact .some hrow
    | false => exact ih

theorem exists_row {rows : List PendingIndexEntry} (h : List.Forall₂ (Locates file) rows kept)
    {write : SegmentWrite} (hwrite : write ∈ kept) : ∃ row ∈ rows, Locates file row write := by
  obtain ⟨i, hi, rfl⟩ := List.getElem_of_mem hwrite
  obtain ⟨hlength, hget⟩ := List.forall₂_iff_get.mp h
  exact ⟨rows.get ⟨i, hlength ▸ hi⟩, List.get_mem .., hget i (hlength ▸ hi) hi⟩

theorem exists_write {rows : List PendingIndexEntry} (h : List.Forall₂ (Locates file) rows kept)
    {row : PendingIndexEntry} (hrow : row ∈ rows) : ∃ write ∈ kept, Locates file row write := by
  obtain ⟨i, hi, rfl⟩ := List.getElem_of_mem hrow
  obtain ⟨hlength, hget⟩ := List.forall₂_iff_get.mp h
  exact ⟨kept.get ⟨i, hlength ▸ hi⟩, List.get_mem .., hget i hi (hlength ▸ hi)⟩

theorem Placed.identifiers (h : Placed writer kept) :
    writer.indexEntries.map PendingIndexEntry.identifier = kept.map SegmentWrite.identifier := by
  have hrows := h.rows
  clear h
  generalize writer.indexEntries = rows at hrows
  induction hrows with
  | nil => rfl
  | cons hrow _ ih => rw [List.map_cons, List.map_cons, hrow.1, ih]

theorem Placed.validExtent (h : Placed writer kept) (hcontent : ∀ write ∈ kept, write.content ≠ [])
    {row : PendingIndexEntry} (hrow : row ∈ writer.indexEntries) : row.indexed.ValidExtent := by
  obtain ⟨haligned, hlimit⟩ := h.aligned row hrow
  obtain ⟨write, hwrite, -, -, hrange⟩ := exists_write h.rows hrow
  have hlength := Bytes.length_of_range? hrange
  have hpos := List.length_pos_iff.mpr (hcontent write hwrite)
  have hposition := @signed32_ofNat row.dataOffset.toNat (by omega)
  have hsize := @signed32_ofNat row.size.toNat (by omega)
  rw [UInt32.ofNat_toNat] at hposition hsize
  refine ⟨?_, haligned, ?_⟩
  · rw [PendingIndexEntry.indexed, hposition]
    exact Int.natCast_nonneg _
  · rw [PendingIndexEntry.indexed, hsize]
    omega

/-- The closed file opens with the rows of the writer, when its length is right. -/
theorem Placed.opens (h : Placed writer kept)
    (hbody : (writer.file.getD []).length % 512 = 0) {times : CloseTimes}
    (hclose : writer.close times = some file) (hfile : Indexable file kept) (name : String) :
    ∃ index, TarArchiveReader.openFile name file = .ok ⟨name, file, .indexed index⟩ ∧
      index.entries.Perm (writer.indexEntries.map PendingIndexEntry.indexed) ∧
      ∀ write ∈ kept,
        TarArchiveReader.segmentData ⟨name, file, .indexed index⟩ write.identifier =
          some write.content := by
  rw [close, Option.map_eq_some_iff] at hclose
  obtain ⟨body, hwritten, hclosed⟩ := hclose
  have hrows := h.rows
  rw [hwritten, Option.getD_some] at hrows hbody
  have hcount : writer.sortedIndexEntries.length = writer.indexEntries.length :=
    (sortedIndexEntries_perm writer).length_eq
  have hsome : 1 ≤ writer.indexEntries.length := by
    rw [hrows.length_eq]
    exact List.length_pos_iff.mpr hfile.some_
  obtain ⟨before, hsplit⟩ : ∃ before, file = before ++
      writer.sortedIndexEntries.flatMap indexEntryBytes ++
      footerBytes (writer.sortedIndexEntries.flatMap indexEntryBytes)
        writer.sortedIndexEntries.length (Froe.blocks (writer.indexEntries.length * 33 + 16))
        indexVersion2Magic ++ List.replicate (2 * tarBlockSize) 0 := by
    rw [← hclosed, hcount, trailerBytes, serializeIndex]
    simp only [footerSize, ← blocks.eq_1, ← List.append_assoc]
    exact ⟨_, rfl⟩
  have hlength : file.length = body.length +
      (512 + Froe.blocks writer.serializeBinaryReferences.length) +
      (512 + Froe.blocks writer.serializeGraph.length) +
      (512 + Froe.blocks (writer.indexEntries.length * 33 + 16)) + 1024 := by
    rw [← hclosed]
    simp only [trailerBytes, List.length_append, length_trailerEntryBytes, length_entryHeader,
      length_serializeIndex, List.length_replicate, tarBlockSize]
    omega
  have hmods := And.intro (blocks_mod writer.serializeBinaryReferences.length)
    (And.intro (blocks_mod writer.serializeGraph.length)
      (blocks_mod (writer.indexEntries.length * 33 + 16)))
  have htotal := le_blocks (writer.indexEntries.length * 33 + 16)
  have hshape : validateArchiveShape file.length = .ok () := by
    rw [validateArchiveShape, if_neg (by omega), if_neg (by omega),
      if_neg (Nat.not_lt.mpr hfile.length)]
  obtain ⟨index, hparse, -, hentries⟩ := parseSegmentIndex_of_append
    (encodesIndex_indexEntryBytes _) hsplit hshape (by omega) (by rw [hcount]; exact htotal)
    (blocks_mod _) (by omega)
    (sortedIndexEntries_strict (by rw [h.identifiers]; exact hfile.distinct))
    fun row hrow => h.validExtent hfile.content
      ((sortedIndexEntries_perm writer).mem_iff.mp hrow)
  have hperm : index.entries.Perm (writer.indexEntries.map PendingIndexEntry.indexed) := by
    rw [hentries]
    exact (sortedIndexEntries_perm writer).map _
  refine ⟨index, ?_, hperm, fun write hwrite => ?_⟩
  · rw [TarArchiveReader.openFile, if_neg (by omega), hparse]
  · obtain ⟨row, hrow, hlocates⟩ := exists_row hrows hwrite
    have hfound : index.findEntry write.identifier = some row.indexed :=
      SegmentIndex.findEntry_eq_some_iff.mpr
        ⟨hperm.mem_iff.mpr (List.mem_map_of_mem hrow), hlocates.1⟩
    rw [TarArchiveReader.segmentData]
    simp only [hfound, Option.bind_eq_bind, Option.bind_some]
    rw [← hclosed]
    exact (hlocates.append _).2.2

theorem Placed.located (h : Placed writer kept)
    (hbody : (writer.file.getD []).length % 512 = 0) : Located writer kept where
  closed := by
    intro times file hclose
    rw [close, Option.map_eq_some_iff] at hclose
    obtain ⟨body, hbody, rfl⟩ := hclose
    have hrows := h.rows
    rw [hbody] at hrows
    exact hrows.imp fun _ _ hrow => hrow.append _
  opens := fun _ _ hclose hfile => h.opens hbody hclose hfile
  read := by
    intro identifier
    have hfind := find?_rows (List.rel_reverse h.rows) identifier
    rw [readSegment]
    cases hrow : writer.indexEntries.reverse.find? fun row => row.identifier == identifier with
    | none =>
      rw [hrow] at hfind
      cases hwrite : kept.reverse.find? fun write => write.identifier == identifier with
      | none => rfl
      | some write =>
        rw [hwrite] at hfind
        cases hfind
    | some row =>
      rw [hrow] at hfind
      cases hwrite : kept.reverse.find? fun write => write.identifier == identifier with
      | none =>
        rw [hwrite] at hfind
        cases hfind
      | some write =>
        rw [hwrite] at hfind
        obtain ⟨hlocates⟩ := hfind
        cases hfile : writer.file with
        | none =>
          have hmem := List.mem_of_find?_eq_some hrow
          rw [h.file hfile] at hmem
          cases hmem
        | some file =>
          rw [hfile, Option.getD_some] at hlocates
          simp only [hlocates.2.2]
          rfl

/-- Whatever fails, the index locates every segment written, each reads back and the closed file
opens with them, when no write gets through behind a part of an entry and the parts left make
whole blocks. -/
theorem located_of_unbroken (fileName : String) {attempts : List Attempt}
    (h : NothingBehindPart attempts) (hleft : WholeBlocksLeft attempts) :
    Located (attemptAll (new fileName) attempts).1 (attemptAll (new fileName) attempts).2 := by
  obtain ⟨hplaced, hlength⟩ := (placed_new fileName).run rfl rfl h
  exact hplaced.located (hlength.trans hleft)

def oneByte : SegmentWrite :=
  ⟨0, ⟨1, 0xA000000000000001⟩, [1], ⟨1, 1, false⟩, [], []⟩

def twoBytes : SegmentWrite :=
  ⟨0, ⟨1, 0xA000000000000002⟩, [1, 2], ⟨1, 1, false⟩, [⟨1, 0xA000000000000001⟩], ["b"]⟩

/-- Two segments, after calls that leave nothing and before one that leaves a header. -/
def brokenAttempts : List Attempt :=
  [⟨oneByte, .refused⟩, ⟨oneByte, .writes (.broken 0) .complete .complete⟩,
    ⟨oneByte, .writes .complete .complete .complete⟩, ⟨twoBytes, .refused⟩,
    ⟨twoBytes, .writes .complete .complete .complete⟩,
    ⟨twoBytes, .writes .complete (.broken 0) .complete⟩]

theorem located_of_unbroken_header :
    Located (attemptAll (new "data00000a.tar") brokenAttempts).1
      (attemptAll (new "data00000a.tar") brokenAttempts).2 := by
  refine located_of_unbroken "data00000a.tar" ?_ ?_
  · rw [NothingBehindPart]
    simp only [Attempt.LeavesPart, Attempt.Complete]
    decide +kernel
  · rw [WholeBlocksLeft]
    decide +kernel

/-- Behind one byte of a header, the next entry is taken to stand where that byte is. -/
theorem not_located_behind_part :
    ¬ Located
      (attemptAll (new "data00000a.tar") [⟨oneByte, .writes (.broken 1) .complete .complete⟩,
        ⟨oneByte, .writes .complete .complete .complete⟩]).1
      (attemptAll (new "data00000a.tar") [⟨oneByte, .writes (.broken 1) .complete .complete⟩,
        ⟨oneByte, .writes .complete .complete .complete⟩]).2 := by
  intro h
  have hread := congrArg Except.toOption (h.read ⟨1, 0xA000000000000001⟩)
  revert hread
  decide +kernel

end Froe
