import Froe.Lucene.CompoundFile
import Froe.Tar.EntryHeader

/-!
# Segment descriptors and commit files

A `.si` describes one segment, and a `segments_N` names the segments of a commit.  The
reader of a commit opens the `.si` of a segment between the two names of the segment and
its other fields.  Both files read back as what was written where the counts and the
lengths of the strings are within the bounds of the format.
-/

namespace Froe

open Except (bind_ok_iff)

open Reading LuceneReader CompoundFile
open CodecOutput (maximumI32 writeInt writeString)

/-! ## Segment descriptors -/

/-- The codec name of a segment info. -/
def segmentInfoCodec : String := "Lucene46SegmentInfo"

/-- The version of a segment info. -/
def segmentInfoVersion : Int := 0

/-- `Constants.LUCENE_MAIN_VERSION`. -/
def luceneVersion : String := "4.7"

/-- The longest text that is read. -/
def stringBound : Nat := 32768

/-- What is written to a `.si`. -/
structure SegmentDescriptor where
  documentCount : Int32
  /-- Whether the files of the segment are inside a compound file. -/
  compound : Bool
  diagnostics : List (String × String)
  /-- The files of the segment, by full name. -/
  files : List String

/-- What is read from a `.si`. -/
structure SegmentInfo where
  luceneVersion : String
  documentCount : Int32
  compound : Bool
  diagnostics : List (String × String)
  files : List String

/-- Writes a `.si`. -/
def writeSegmentInfo (descriptor : SegmentDescriptor) : Except Error Bytes := do
  let header ← CodecOutput.writeHeader segmentInfoCodec segmentInfoVersion
  let version ← CodecOutput.writeString luceneVersion
  let compound : UInt8 := if descriptor.compound then 1 else 0xff
  let diagnostics ← CodecOutput.writeStringMap descriptor.diagnostics
  let files ← CodecOutput.writeStringSet descriptor.files
  return header ++ (version ++ (CodecOutput.writeInt descriptor.documentCount.toInt ++
    ([compound] ++ (diagnostics ++ files))))

/-- Reads the fields of a `.si`. -/
def readSegmentInfoFields : LuceneReader SegmentInfo := do
  let _ ← readCodecHeader segmentInfoCodec (Int32.ofInt segmentInfoVersion)
    (Int32.ofInt segmentInfoVersion)
  let luceneVersion ← readString stringBound
  let offset ← position
  let documentCount ← readInt
  if documentCount < 0 then
    throw (.malformed (← fileName) offset s!"document count {documentCount} is negative")
  else
    let compound := (← readByte) == 1
    let diagnostics ← readStringMap stringBound
    let files ← readStringSet stringBound
    return ⟨luceneVersion, documentCount, compound, diagnostics, files⟩

/-- Reads a `.si`, which must be consumed exactly. -/
def readSegmentInfo : LuceneReader SegmentInfo := do
  let info ← readSegmentInfoFields
  let position ← position
  let remaining ← remaining
  if remaining ≠ 0 then
    throw (.malformed (← fileName) position
      s!"{remaining} trailing bytes; Lucene's own reader requires the file to be consumed exactly")
  else return info

/-! ## Commit files -/

/-- The codec name of a commit. -/
def segmentsCodec : String := "segments"

/-- The format version from which a segment has a generation of its field infos. -/
def segmentsVersion46 : Int := 1

/-- One segment of a commit that is written. -/
structure CommittedSegment where
  name : String
  codecName : String

/-- One segment, as a commit file and its `.si` describe it together. -/
structure SegmentEntry where
  name : String
  codecName : String
  deletionGeneration : Int64
  deletionCount : Int32
  fieldInfosGeneration : Int64
  info : SegmentInfo

/-- What is read of a commit. -/
structure CommitFile where
  fileName : String
  generation : Int64
  formatVersion : Int32
  version : Int64
  counter : Int32
  segments : List SegmentEntry
  userData : List (String × String)
  generationFiles : List String

/-- The row of a segment: its names, no deletions and no updates. -/
def writeSegmentRow (segment : CommittedSegment) : Except Error Bytes := do
  let name ← CodecOutput.writeString segment.name
  let codecName ← CodecOutput.writeString segment.codecName
  return name ++ (codecName ++ (CodecOutput.writeLong (-1) ++ (CodecOutput.writeInt 0 ++
    (CodecOutput.writeLong (-1) ++ CodecOutput.writeInt 0))))

/-- Writes a `segments_N`, which ends with the checksum of what is before. -/
def writeCommit (version : Int64) (counter : Int32) (segments : List CommittedSegment)
    (userData : List (String × String)) : Except Error Bytes := do
  let header ← CodecOutput.writeHeader segmentsCodec segmentsVersion46
  let rows ← segments.mapM writeSegmentRow
  let userData ← CodecOutput.writeStringMap userData
  let body := header ++ (CodecOutput.writeLong version.toInt ++
    (CodecOutput.writeInt counter.toInt ++ (CodecOutput.writeInt segments.length ++
      (rows.flatten ++ userData))))
  return body ++ CodecOutput.writeLong (crc32 body).toNat

/-- A number in base 36 with an optional sign. -/
def parseBase36 (text : Bytes) : Option Int64 :=
  let magnitude (digits : Bytes) : Option Int :=
    if digits = [] then none
    else (Digits.parse 36 (digits.map fun x =>
      if 65 ≤ x.toNat ∧ x.toNat ≤ 90 then x + 32 else x)).map fun n => (n : Int)
  let value := match text with
    | 45 :: digits => (magnitude digits).map fun n => -n
    | 43 :: digits => magnitude digits
    | digits => magnitude digits
  value.bind fun n => if -(2 ^ 63) ≤ n ∧ n < 2 ^ 63 then some (Int64.ofInt n) else none

/-- The generation in the name of a commit file. -/
def generationFromCommitFileName (name : String) : Option Int64 :=
  if name = "segments" then some 0
  else (name.utf8.dropPrefix? "segments_".utf8).bind parseBase36

/-- Reads the rest of the row of a segment: the generations and their files. -/
def readFieldInfosGeneration (formatVersion : Int32) : LuceneReader (Int64 × List String) := do
  if formatVersion < Int32.ofInt segmentsVersion46 then return (-1, [])
  else
    let fieldInfosGeneration ← readLong
    let updateCount ← readCountedLength
    let files ← times (do
      let _ ← readLong
      readStringSet stringBound) updateCount
    return (fieldInfosGeneration, files.flatten)

/-- Reads one segment of a commit.  Its `.si` is opened between its names and its other fields. -/
def readSegmentEntry (commitName : String) (openInfo : String → Except LuceneReadError Cursor)
    (formatVersion : Int32) : LuceneReader (SegmentEntry × List String) := do
  let name ← readString stringBound
  let codecName ← readString stringBound
  let infoCursor ← liftM (openInfo (name ++ ".si"))
  let (info, _) ← liftM (readSegmentInfo.run infoCursor)
  let deletionGeneration ← readLong
  let deletionOffset ← position
  let deletionCount ← readInt
  if deletionCount < 0 ∨ info.documentCount < deletionCount then
    throw (.malformed commitName deletionOffset
      (s!"deletion count {deletionCount} is outside 0..={info.documentCount} for segment " ++ name))
  else
    let (fieldInfosGeneration, generationFiles) ← readFieldInfosGeneration formatVersion
    return (⟨name, codecName, deletionGeneration, deletionCount, fieldInfosGeneration, info⟩,
      generationFiles)

/-- Reads a `segments_N`, with the `.si` of each segment. -/
def readCommitFile (commitName : String) (openInfo : String → Except LuceneReadError Cursor) :
    LuceneReader CommitFile := do
  match generationFromCommitFileName commitName with
  | none => throw (.malformed commitName 0 "the name carries no commit generation")
  | some generation =>
    let offset ← position
    let magic ← readInt
    if magic ≠ Int32.ofInt CodecOutput.codecMagic then
      let word := Utf8.ascii (Digits.padded 16 8 magic.toUInt32.toNat)
      throw (.malformed commitName offset ("first word 0x" ++ word ++ " is not Lucene's codec " ++
        "magic, so this is a Lucene 3.x commit file this froe does not read"))
    else
      let header ← readCodecHeaderWithoutMagic segmentsCodec 0 (Int32.ofInt segmentsVersion46)
      let version ← readLong
      let counter ← readInt
      let countOffset ← position
      let segmentCount ← readInt
      if segmentCount < 0 then
        throw (.malformed commitName countOffset s!"segment count {segmentCount} is negative")
      else
        let segments ← times (readSegmentEntry commitName openInfo header.version)
          segmentCount.toInt.toNat
        let userData ← readStringMap stringBound
        -- the checksum is read and not compared
        let _ ← readLong
        return ⟨commitName, generation, header.version, version, counter, segments.map Prod.fst,
          userData, (segments.map Prod.snd).flatten⟩

/-! ## What is written and what is read -/

/-- A descriptor as it is read. -/
def SegmentDescriptor.toInfo (descriptor : SegmentDescriptor) : SegmentInfo :=
  ⟨luceneVersion, descriptor.documentCount, descriptor.compound, descriptor.diagnostics,
    descriptor.files⟩

/-- A descriptor within the bounds of the format. -/
def SegmentDescriptor.Fits (descriptor : SegmentDescriptor) : Prop :=
  ¬ descriptor.documentCount < 0 ∧
    (descriptor.diagnostics.length ≤ CodecOutput.maximumI32 ∧
      ∀ entry ∈ descriptor.diagnostics,
        entry.1.utf8.length ≤ stringBound ∧ entry.2.utf8.length ≤ stringBound) ∧
    descriptor.files.length ≤ CodecOutput.maximumI32 ∧
      ∀ file ∈ descriptor.files, file.utf8.length ≤ stringBound

/-- The `.si` of a descriptor reads back. -/
def SegmentDescriptor.ReadsBack (fileName : String) (descriptor : SegmentDescriptor) : Prop :=
  ∃ bytes cursor, writeSegmentInfo descriptor = .ok bytes ∧
    readSegmentInfo.run (.start fileName bytes) = .ok (descriptor.toInfo, cursor)

/-- What a commit is written from. -/
structure Commit where
  version : Int64
  counter : Int32
  segments : List CommittedSegment
  userData : List (String × String)

/-- A commit within the bounds of the format. -/
def Commit.Fits (commit : Commit) : Prop :=
  (commit.segments.length ≤ CodecOutput.maximumI32 ∧
    ∀ segment ∈ commit.segments,
      segment.name.utf8.length ≤ stringBound ∧ segment.codecName.utf8.length ≤ stringBound) ∧
  commit.userData.length ≤ CodecOutput.maximumI32 ∧
    ∀ entry ∈ commit.userData,
      entry.1.utf8.length ≤ stringBound ∧ entry.2.utf8.length ≤ stringBound

/-- A commit as it is read. -/
def Commit.toFile (commit : Commit) (commitName : String) (generation : Int64)
    (infos : String → SegmentInfo) : CommitFile where
  fileName := commitName
  generation := generation
  formatVersion := 1
  version := commit.version
  counter := commit.counter
  segments := commit.segments.map fun segment =>
    ⟨segment.name, segment.codecName, -1, 0, -1, infos segment.name⟩
  userData := commit.userData
  generationFiles := []

/-- The `segments_N` of a commit reads back. -/
def Commit.ReadsBack (commitName : String) (generation : Int64)
    (openInfo : String → Except LuceneReadError Cursor) (infos : String → SegmentInfo)
    (commit : Commit) : Prop :=
  ∃ bytes cursor, writeCommit commit.version commit.counter commit.segments commit.userData =
      .ok bytes ∧
    (readCommitFile commitName openInfo).run (.start commitName bytes) =
      .ok (commit.toFile commitName generation infos, cursor)

/-! ## Reading a descriptor -/

variable {bytes : Bytes} {info : SegmentInfo} {cursor cursor' : Cursor} {commitName : String}
  {openInfo : String → Except LuceneReadError Cursor} {generation : Int64}
  {infos : String → SegmentInfo}

theorem readsIff_segmentInfoFields {descriptor : SegmentDescriptor}
    (h : writeSegmentInfo descriptor = .ok bytes)
    (hdiagnostics : descriptor.diagnostics.length ≤ maximumI32)
    (hfiles : descriptor.files.length ≤ maximumI32) :
    ReadsIff readSegmentInfoFields bytes descriptor.toInfo descriptor.Fits := by
  obtain ⟨header, hheader, h⟩ := bind_ok_iff.mp h
  obtain ⟨version, hversion, h⟩ := bind_ok_iff.mp h
  obtain ⟨diagnostics, hwrittenDiagnostics, h⟩ := bind_ok_iff.mp h
  obtain ⟨files, hwrittenFiles, h⟩ := bind_ok_iff.mp h
  cases h
  have hversionLength : luceneVersion.utf8.length ≤ stringBound := by decide
  refine (reads_header hheader (by decide) (by decide)).bindIff ?_
  refine ((readsIff_string hversion stringBound).1 hversionLength).bindIff ?_
  refine reads_position fun offset => (reads_int _).bindIff ?_
  rw [Int32.ofInt_toInt]
  by_cases hnegative : descriptor.documentCount < 0
  · rw [if_pos hnegative]
    exact ⟨fun hfits => absurd hnegative hfits.1, fun _ => refuses_fileName _ _⟩
  · have hcompound : ((if descriptor.compound then 1 else 0xff : UInt8) == 1) =
        descriptor.compound := by
      cases descriptor.compound <;> rfl
    rw [if_neg hnegative]
    refine (reads_byte _).bindIff ?_
    rw [hcompound]
    refine ((readsIff_stringMap hwrittenDiagnostics hdiagnostics stringBound).bind fun _ =>
      (readsIff_stringSet hwrittenFiles hfiles stringBound).andThen ?_).congr
      ⟨fun h => ?_, fun h => ⟨h.2.1.2, h.2.2.2⟩⟩
    · exact reads_pure _
    · exact ⟨hnegative, ⟨hdiagnostics, h.1⟩, hfiles, h.2⟩

theorem readSegmentInfoFields_counts (h : readSegmentInfoFields.run cursor = .ok (info, cursor')) :
    ¬ info.documentCount < 0 ∧ info.diagnostics.length ≤ maximumI32 ∧
      info.files.length ≤ maximumI32 := by
  obtain ⟨header, cursor₁, -, h⟩ := StateT.bind_ok_iff.mp h
  obtain ⟨version, cursor₂, -, h⟩ := StateT.bind_ok_iff.mp h
  obtain ⟨offset, cursor₃, -, h⟩ := StateT.bind_ok_iff.mp h
  obtain ⟨documentCount, cursor₄, -, h⟩ := StateT.bind_ok_iff.mp h
  split at h
  · obtain ⟨name, cursor₅, -, h⟩ := StateT.bind_ok_iff.mp h
    cases h
  · rename_i hnegative
    obtain ⟨byte, cursor₅, -, h⟩ := StateT.bind_ok_iff.mp h
    obtain ⟨diagnostics, cursor₆, hdiagnostics, h⟩ := StateT.bind_ok_iff.mp h
    obtain ⟨files, cursor₇, hfiles, h⟩ := StateT.bind_ok_iff.mp h
    obtain ⟨rfl, -⟩ := StateT.pure_ok_iff.mp h
    exact ⟨hnegative, length_readStringMap_le hdiagnostics, length_readStringSet_le hfiles⟩

/-- A descriptor is read when its fields are and nothing follows. -/
theorem readSegmentInfo_ok (h : readSegmentInfo.run cursor = .ok (info, cursor')) :
    readSegmentInfoFields.run cursor = .ok (info, cursor') := by
  obtain ⟨read, cursor₁, hread, h⟩ := StateT.bind_ok_iff.mp h
  obtain ⟨position, cursor₂, hposition, h⟩ := StateT.bind_ok_iff.mp h
  obtain ⟨remaining, cursor₃, hremaining, h⟩ := StateT.bind_ok_iff.mp h
  cases hposition
  cases hremaining
  split at h
  · obtain ⟨name, cursor₄, -, h⟩ := StateT.bind_ok_iff.mp h
    cases h
  · obtain ⟨rfl, rfl⟩ := StateT.pure_ok_iff.mp h
    exact hread

theorem exists_writeString {text : String} (h : text.utf8.length ≤ stringBound) :
    ∃ bytes, writeString text = .ok bytes :=
  ⟨_, writeString_ok_iff.mpr ⟨h.trans (by decide), rfl⟩⟩

theorem exists_writeStringSet {texts : List String}
    (h : ∀ text ∈ texts, text.utf8.length ≤ stringBound) :
    ∃ bytes, CodecOutput.writeStringSet texts = .ok bytes := by
  obtain ⟨written, hwritten⟩ : ∃ written, texts.mapM writeString = .ok written :=
    Except.exists_mapM fun text htext => exists_writeString (h text htext)
  exact ⟨_, bind_ok_iff.mpr ⟨written, hwritten, rfl⟩⟩

theorem exists_writeStringMap {entries : List (String × String)}
    (h : ∀ entry ∈ entries, entry.1.utf8.length ≤ stringBound ∧ entry.2.utf8.length ≤ stringBound) :
    ∃ bytes, CodecOutput.writeStringMap entries = .ok bytes := by
  have hentry : ∀ entry ∈ entries, ∃ bytes, (do
      let key ← writeString entry.1
      let value ← writeString entry.2
      return key ++ value : Except Error Bytes) = .ok bytes := by
    intro entry hentry
    obtain ⟨key, hkey⟩ := exists_writeString (h entry hentry).1
    obtain ⟨value, hvalue⟩ := exists_writeString (h entry hentry).2
    exact ⟨_, bind_ok_iff.mpr ⟨key, hkey, bind_ok_iff.mpr ⟨value, hvalue, rfl⟩⟩⟩
  obtain ⟨written, hwritten⟩ := Except.exists_mapM hentry
  exact ⟨_, bind_ok_iff.mpr ⟨written, hwritten, rfl⟩⟩

theorem SegmentDescriptor.readsBack_iff (fileName : String) (descriptor : SegmentDescriptor) :
    descriptor.ReadsBack fileName ↔ descriptor.Fits := by
  constructor
  · rintro ⟨bytes, cursor, hbytes, hread⟩
    have hfields := readSegmentInfo_ok hread
    obtain ⟨-, hdiagnostics, hfiles⟩ := readSegmentInfoFields_counts hfields
    exact ((readsIff_segmentInfoFields hbytes hdiagnostics hfiles).of_ok hfields).1
  · intro hfits
    obtain ⟨header, hheader, -⟩ := @exists_writeHeader segmentInfoCodec segmentInfoVersion
      (by decide) (by decide)
    have hversionLength : luceneVersion.utf8.length ≤ stringBound := by decide
    obtain ⟨version, hversion⟩ := exists_writeString hversionLength
    obtain ⟨diagnostics, hdiagnostics⟩ := exists_writeStringMap hfits.2.1.2
    obtain ⟨files, hfiles⟩ := exists_writeStringSet hfits.2.2.2
    obtain ⟨bytes, hbytes⟩ : ∃ bytes, writeSegmentInfo descriptor = .ok bytes :=
      ⟨_, bind_ok_iff.mpr ⟨header, hheader, bind_ok_iff.mpr ⟨version, hversion,
        bind_ok_iff.mpr ⟨diagnostics, hdiagnostics, bind_ok_iff.mpr
          ⟨files, hfiles, rfl⟩⟩⟩⟩⟩
    have hfields := (readsIff_segmentInfoFields hbytes hfits.2.1.1 hfits.2.2.1).1 hfits fileName 0 []
    rw [List.append_nil] at hfields
    exact ⟨bytes, ⟨fileName, 0 + bytes.length, []⟩, hbytes,
      StateT.bind_ok_iff.mpr ⟨_, _, hfields, rfl⟩⟩

/-! ## Reading a commit -/

theorem reads_fieldInfosGeneration :
    Reads (readFieldInfosGeneration (Int32.ofInt segmentsVersion46))
      (CodecOutput.writeLong (-1) ++ writeInt 0) (-1, []) := by
  have hnone : ReadsIff (times (do
      let _ ← readLong
      readStringSet stringBound) 0 >>= fun files => pure (-1, files.flatten) :
        LuceneReader (Int64 × List String)) [] (-1, []) True := (reads_pure _).iff
  rw [readFieldInfosGeneration, if_neg (by decide), ← List.append_nil (writeInt 0)]
  exact (reads_long (-1)).bind ((readsIff_counted (Nat.zero_le _) (Nat.zero_le _) hnone).1 trivial)

/-- A row is read back, with what its `.si` reads as. -/
theorem readsIff_segmentEntry {segment : CommittedSegment} (h : writeSegmentRow segment = .ok bytes)
    (hinfo : ∃ cursor cursor', openInfo (segment.name ++ ".si") = .ok cursor ∧
      readSegmentInfo.run cursor = .ok (info, cursor')) :
    ReadsIff (readSegmentEntry commitName openInfo (Int32.ofInt segmentsVersion46)) bytes
      (⟨segment.name, segment.codecName, -1, 0, -1, info⟩, [])
      (segment.name.utf8.length ≤ stringBound ∧ segment.codecName.utf8.length ≤ stringBound) := by
  obtain ⟨name, hname, h⟩ := bind_ok_iff.mp h
  obtain ⟨codecName, hcodecName, h⟩ := bind_ok_iff.mp h
  cases h
  obtain ⟨cursor, cursor', hopen, hread⟩ := hinfo
  obtain ⟨hcount, -⟩ := readSegmentInfoFields_counts (readSegmentInfo_ok hread)
  refine (readsIff_string hname stringBound).bind fun _ => ?_
  refine ((readsIff_string hcodecName stringBound).bind fun _ => Reads.iff ?_).congr
    (and_iff_left trivial)
  refine Reads.lift_bind hopen (Reads.lift_bind hread ?_)
  refine (reads_long _).bind ?_
  refine (reads_position fun deletionOffset => Reads.iff ?_).1 trivial
  refine (reads_int _).bind ?_
  have hinside : ¬ (Int32.ofInt 0 < 0 ∨ info.documentCount < Int32.ofInt 0) :=
    not_or.mpr ⟨by decide, hcount⟩
  rw [if_neg hinside]
  exact reads_fieldInfosGeneration.andThen (reads_pure _)

/-- A segment of a commit as it is read, with the files of its updates. -/
def CommittedSegment.toEntry (infos : String → SegmentInfo) (segment : CommittedSegment) :
    SegmentEntry × List String :=
  (⟨segment.name, segment.codecName, -1, 0, -1, infos segment.name⟩, [])

/-- The names of a segment are within the bounds. -/
def ShortNames (entry : SegmentEntry × List String) : Prop :=
  entry.1.name.utf8.length ≤ stringBound ∧ entry.1.codecName.utf8.length ≤ stringBound

theorem readsIff_segmentRows {segments : List CommittedSegment} {rows : List Bytes}
    (h : segments.mapM writeSegmentRow = .ok rows) {commitName : String}
    {openInfo : String → Except LuceneReadError Cursor} {infos : String → SegmentInfo}
    (hinfos : ∀ segment ∈ segments, ∃ cursor cursor',
      openInfo (segment.name ++ ".si") = .ok cursor ∧
        readSegmentInfo.run cursor = .ok (infos segment.name, cursor')) :
    List.Forall₂ (fun row entry => ReadsIff (readSegmentEntry commitName openInfo
      (Int32.ofInt segmentsVersion46)) row entry (ShortNames entry)) rows
      (segments.map (CommittedSegment.toEntry infos)) := by
  induction segments generalizing rows with
  | nil =>
    cases h
    exact .nil
  | cons segment segments ih =>
    obtain ⟨row, later, hrow, hlater, rfl⟩ := Except.mapM_cons_ok_iff.mp h
    exact .cons (readsIff_segmentEntry hrow (hinfos segment List.mem_cons_self))
      (ih hlater fun segment hsegment => hinfos segment (List.mem_cons_of_mem _ hsegment))

/-- A commit is read back when its names and its user data are within the bounds. -/
theorem readsIff_commit {commit : Commit}
    (h : writeCommit commit.version commit.counter commit.segments commit.userData = .ok bytes)
    (hgeneration : generationFromCommitFileName commitName = some generation)
    (hinfos : ∀ segment ∈ commit.segments, ∃ cursor cursor',
      openInfo (segment.name ++ ".si") = .ok cursor ∧
        readSegmentInfo.run cursor = .ok (infos segment.name, cursor'))
    (hsegments : commit.segments.length ≤ maximumI32)
    (huserData : commit.userData.length ≤ maximumI32) :
    ReadsIff (readCommitFile commitName openInfo) bytes (commit.toFile commitName generation infos)
      commit.Fits := by
  obtain ⟨header, hheader, h⟩ := bind_ok_iff.mp h
  obtain ⟨rows, hrows, h⟩ := bind_ok_iff.mp h
  obtain ⟨userData, hwrittenUserData, h⟩ := bind_ok_iff.mp h
  cases h
  obtain ⟨hlength, name, hname, rfl⟩ := writeHeader_ok hheader
  have hcount := toInt_ofInt_length hsegments
  have hnegative : ¬ Int32.ofInt (commit.segments.length : Int) < 0 := by
    rw [Int32.lt_iff_toInt_lt, hcount]
    exact Int.not_lt.mpr (Int.natCast_nonneg _)
  rw [readCommitFile, hgeneration]
  simp only [List.append_assoc]
  refine reads_position fun offset => (reads_int _).bindIff ?_
  rw [if_neg (not_not.mpr rfl), ← List.append_assoc name]
  refine (reads_headerWithoutMagic hlength hname (by decide) (by decide)).bindIff ?_
  refine (reads_long _).bindIff ((reads_int _).bindIff ?_)
  refine reads_position fun countOffset => (reads_int _).bindIff ?_
  rw [if_neg hnegative, hcount, Int.toNat_natCast, Int64.ofInt_toInt, Int32.ofInt_toInt]
  have hentries := timesIff (@readsIff_segmentRows _ _ hrows commitName _ _ hinfos)
  rw [List.length_map] at hentries
  refine (hentries.bind fun _ =>
    (readsIff_stringMap hwrittenUserData huserData stringBound).bind fun _ => Reads.iff
      ((reads_long _).andThen (b := commit.toFile commitName generation infos) ?_)).congr ?_
  · have hsegmentEntries : (commit.segments.map (CommittedSegment.toEntry infos)).map Prod.fst =
        (commit.toFile commitName generation infos).segments := by
      rw [List.map_map]
      rfl
    have hfiles : ((commit.segments.map (CommittedSegment.toEntry infos)).map Prod.snd).flatten =
        [] := by
      rw [List.map_map, List.flatten_eq_nil_iff]
      intro files hfiles
      obtain ⟨segment, -, rfl⟩ := List.mem_map.mp hfiles
      rfl
    rw [hsegmentEntries, hfiles]
    exact reads_pure _
  · rw [List.forall_mem_map, and_iff_left trivial]
    exact ⟨fun h => ⟨⟨hsegments, h.1⟩, huserData, h.2⟩, fun h => ⟨h.1.2, h.2.2⟩⟩

theorem readCommitFile_counts {file : CommitFile}
    (h : (readCommitFile commitName openInfo).run cursor = .ok (file, cursor')) :
    file.segments.length ≤ maximumI32 ∧
      file.userData.length ≤ maximumI32 := by
  rw [readCommitFile] at h
  split at h
  · cases h
  · obtain ⟨offset, cursor₁, -, h⟩ := StateT.bind_ok_iff.mp h
    obtain ⟨magic, cursor₂, -, h⟩ := StateT.bind_ok_iff.mp h
    dsimp only at h
    split at h
    · cases h
    · obtain ⟨header, cursor₃, -, h⟩ := StateT.bind_ok_iff.mp h
      obtain ⟨version, cursor₄, -, h⟩ := StateT.bind_ok_iff.mp h
      obtain ⟨counter, cursor₅, -, h⟩ := StateT.bind_ok_iff.mp h
      obtain ⟨countOffset, cursor₆, -, h⟩ := StateT.bind_ok_iff.mp h
      obtain ⟨count, cursor₇, -, h⟩ := StateT.bind_ok_iff.mp h
      split at h
      · cases h
      · obtain ⟨segments, cursor₈, hsegments, h⟩ := StateT.bind_ok_iff.mp h
        obtain ⟨userData, cursor₉, huserData, h⟩ := StateT.bind_ok_iff.mp h
        obtain ⟨checksum, cursor₁₀, -, h⟩ := StateT.bind_ok_iff.mp h
        obtain ⟨rfl, -⟩ := StateT.pure_ok_iff.mp h
        have hlt := count.toInt_lt
        refine ⟨?_, length_readStringMap_le huserData⟩
        rw [List.length_map, length_times hsegments, maximumI32]
        omega

theorem Commit.readsBack_iff
    (hgeneration : generationFromCommitFileName commitName = some generation) {commit : Commit}
    (hinfos : ∀ segment ∈ commit.segments, ∃ cursor cursor',
      openInfo (segment.name ++ ".si") = .ok cursor ∧
        readSegmentInfo.run cursor = .ok (infos segment.name, cursor')) :
    commit.ReadsBack commitName generation openInfo infos ↔ commit.Fits := by
  constructor
  · rintro ⟨bytes, cursor, hbytes, hread⟩
    obtain ⟨hsegments, huserData⟩ := readCommitFile_counts hread
    rw [Commit.toFile, List.length_map] at hsegments
    exact ((readsIff_commit hbytes hgeneration hinfos hsegments huserData).of_ok hread).1
  · intro hfits
    obtain ⟨header, hheader, -⟩ := @exists_writeHeader segmentsCodec segmentsVersion46
      (by decide) (by decide)
    obtain ⟨rows, hrows⟩ : ∃ rows, commit.segments.mapM writeSegmentRow = .ok rows := by
      refine Except.exists_mapM fun segment hsegment => ?_
      obtain ⟨name, hname⟩ := exists_writeString (hfits.1.2 segment hsegment).1
      obtain ⟨codecName, hcodecName⟩ := exists_writeString (hfits.1.2 segment hsegment).2
      exact ⟨_, bind_ok_iff.mpr ⟨name, hname,
        bind_ok_iff.mpr ⟨codecName, hcodecName, rfl⟩⟩⟩
    obtain ⟨userData, huserData⟩ := exists_writeStringMap hfits.2.2
    obtain ⟨bytes, hbytes⟩ : ∃ bytes, writeCommit commit.version commit.counter commit.segments
        commit.userData = .ok bytes :=
      ⟨_, bind_ok_iff.mpr ⟨header, hheader, bind_ok_iff.mpr ⟨rows, hrows,
        bind_ok_iff.mpr ⟨userData, huserData, rfl⟩⟩⟩⟩
    obtain ⟨cursor, hread⟩ :=
      (readsIff_commit hbytes hgeneration hinfos hfits.1.1 hfits.2.1).ok hfits commitName
    exact ⟨bytes, cursor, hbytes, hread⟩

/-! ## The container of a segment -/

/-- The compound files, the `.si` and the `segments_N` that are written read back exactly when no
name without its segment begins with an underscore and everything is within the bounds of the
formats. -/
theorem container_readsBack_iff (tableName infoName : String) {files : List (String × Bytes)}
    (hdistinct : (files.map fun file => stripSegmentName file.1).Nodup)
    (descriptor : SegmentDescriptor) {commitName : String} {generation : Int64}
    (hgeneration : generationFromCommitFileName commitName = some generation)
    {openInfo : String → Except LuceneReadError Cursor} {infos : String → SegmentInfo}
    {commit : Commit} (hinfos : ∀ segment ∈ commit.segments, ∃ cursor cursor',
      openInfo (segment.name ++ ".si") = .ok cursor ∧
        readSegmentInfo.run cursor = .ok (infos segment.name, cursor')) :
    CompoundFile.ReadsBack tableName files ∧ descriptor.ReadsBack infoName ∧
        commit.ReadsBack commitName generation openInfo infos ↔
      CompoundFile.Fits files ∧ descriptor.Fits ∧ commit.Fits :=
  and_congr (CompoundFile.readsBack_iff tableName hdistinct)
    (and_congr (descriptor.readsBack_iff infoName) (Commit.readsBack_iff hgeneration hinfos))

/-- A segment of one document. -/
def oneDocument : SegmentDescriptor := ⟨1, true, [("source", "froe")], ["_0.cfs", "_0.cfe", "_0.si"]⟩

/-- A commit of one segment. -/
def oneSegment : Commit := ⟨0, 1, [⟨"_0", "oakCodec"⟩], []⟩

theorem container_readsBack_iff_oneSegment :
    ∃ openInfo, CompoundFile.ReadsBack "_0.cfe" [("_0.fnm", [1, 2]), ("_0.fdt", [3])] ∧
      oneDocument.ReadsBack "_0.si" ∧
        oneSegment.ReadsBack "segments_1" 1 openInfo fun _ => oneDocument.toInfo := by
  have hfits : oneDocument.Fits := by
    refine ⟨by decide, ⟨by decide, by decide⟩, by decide, by decide⟩
  obtain ⟨bytes, cursor, -, hread⟩ := (oneDocument.readsBack_iff "_0.si").mpr hfits
  have hgeneration : generationFromCommitFileName "segments_1" = some 1 := by decide +kernel
  refine ⟨fun _ => .ok (.start "_0.si" bytes), ?_⟩
  exact (container_readsBack_iff "_0.cfe" "_0.si" (by decide) oneDocument hgeneration
    fun segment _ => ⟨_, cursor, rfl, hread⟩).mpr
    ⟨⟨by decide, by decide, by decide⟩, hfits, ⟨by decide, by decide⟩, by decide, by decide⟩

end Froe
