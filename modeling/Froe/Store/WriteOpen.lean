import Froe.Store.ArchiveNumber
import Froe.Store.StaleArchives

/-!
# Opening the archives of a directory for writing

Of each archive number the newest letter with a valid index is kept and its other
letters are deleted.  A number without one is recovered: what its letters still hold
is written as a new archive under the name of the lowest letter with bytes, and the
letters with bytes are retired to backup names.  A number of empty files is left alone.

`OpenedForWriting` says what one number yields and what becomes of its files.  What the
numbers yield together is what the directory served when it was opened for reading
(`served_for_writing`).
-/

namespace Froe

open List (mem_map)
open Finmap (lookup_erase_ne lookup_insert lookup_insert_of_ne)
open Except (bind_ok_iff)

open ArchiveFileName TarArchiveWriter
open TarArchiveReader (openFile_fileName)
open Directory (archiveNames isEmptyFile openArchive)

/-- What opening for writing asks of the file system. -/
inductive FileOperation where
  | remove (fileName : String)
  | writeReplacement (temporaryName : String)
  | inheritMetadata (targetName temporaryName : String)
  | reopen (fileName : String)
  | retire (fileName backup : String)
  | install (temporaryName targetName : String)

/-- What opening for writing takes from outside: which operations the file system refuses,
and the times that the archives rebuilt under a name are written with. -/
structure WriteEnvironment where
  refusal : FileOperation → Option Error
  clock : String → SegmentIdentifier → UInt64
  times : String → CloseTimes

/-- Performs an operation, unless the file system refuses it. -/
def WriteEnvironment.perform (environment : WriteEnvironment) (operation : FileOperation) :
    Result Unit :=
  match environment.refusal operation with
  | some error => .error error
  | none => .ok ()

namespace Directory

/-- The letter of a number as the recovery scan reads it.  A file that cannot be opened
has nothing to read. -/
def letter (directory : Directory) (name : ArchiveFileName) : ArchiveLetter :=
  ⟨name.fileName, name.archiveNumber, match directory.lookup name.fileName with
    | some (.readable bytes) => bytes
    | _ => []⟩

/-- Whether a file is there and not empty. -/
def isNonemptyFile (directory : Directory) (fileName : String) : Bool :=
  match directory.lookup fileName with
  | some file => file.length ≠ 0
  | none => false

/-- The name a rebuild is installed under: that of the lowest letter that is not empty. -/
def installTargetName (directory : Directory) (generations : List ArchiveFileName) : String :=
  (((generations.find? fun generation => directory.isNonemptyFile generation.fileName).or
    generations.head?).map ArchiveFileName.fileName).getD ""

/-- Probes the letters of a number, newest first: the archive to write against, and whether
any letter held bytes at all. -/
def probeWritable (directory : Directory) :
    List ArchiveFileName → Bool → Option TarArchiveReader × Bool
  | [], anyNonempty => (none, anyNonempty)
  | candidate :: older, anyNonempty =>
    if directory.isEmptyFile candidate.fileName then probeWritable directory older anyNonempty
    else match directory.openArchive candidate.fileName with
      | .ok reader =>
        if !reader.isRecovered then (some reader, true) else probeWritable directory older true
      | .error _ => probeWritable directory older true

/-- Picks the letter to write against.  The letters are given in ascending order. -/
def selectWritableGeneration (directory : Directory) (generations : List ArchiveFileName) :
    Option TarArchiveReader × Bool :=
  directory.probeWritable generations.reverse false

end Directory

/-- The name of the backup number `counter`. -/
def numberedBackup (fileName : String) (counter : Nat) : String :=
  fileName ++ "." ++ counter.repr ++ ".bak"

variable (directory : Directory) (fileName : String)

theorem numberedBackup_injective :
    Function.Injective (numberedBackup fileName) := by
  intro a b h
  rw [numberedBackup, numberedBackup, String.append_left_inj, String.append_right_inj,
    Nat.repr_eq_ofList_toDigits, Nat.repr_eq_ofList_toDigits] at h
  have hdigits := String.ofList_injective h
  rw [← @Nat.ofDigitChars_ten_toDigits a, ← @Nat.ofDigitChars_ten_toDigits b, hdigits]

/-- A directory has finitely many names. -/
theorem exists_numberedBackup_free :
    ∃ counter, directory.lookup (numberedBackup fileName (counter + 2)) = none := by
  by_contra hnone
  have hall : ∀ counter, numberedBackup fileName (counter + 2) ∈ directory.keys := by
    intro counter
    rw [Finmap.mem_keys, ← Finmap.lookup_isSome, Option.isSome_iff_ne_none]
    exact fun hfree => hnone ⟨counter, hfree⟩
  have hinjective : Function.Injective fun counter => numberedBackup fileName (counter + 2) :=
    (numberedBackup_injective fileName).comp (add_left_injective 2)
  refine Set.infinite_range_of_injective hinjective (directory.keys.finite_toSet.subset ?_)
  rintro _ ⟨counter, rfl⟩
  exact hall counter

/-- The first free backup name of a damaged archive: `name.bak`, `name.2.bak`, and so on. -/
def backupPath (directory : Directory) (fileName : String) : String :=
  let first := fileName ++ ".bak"
  if directory.lookup first = none then first
  else numberedBackup fileName (Nat.find (exists_numberedBackup_free directory fileName) + 2)

section Write

variable (environment : WriteEnvironment)

/-- Deletes a letter that is not the winning one. -/
def removeLoser (winner : String) (directory : Directory) (stale : ArchiveFileName) :
    Result Directory :=
  if stale.fileName ≠ winner then do
    environment.perform (.remove stale.fileName)
    return directory.erase stale.fileName
  else .ok directory

/-- Retires one letter to a backup name.  The target keeps its name. -/
def retireGeneration (targetName : String) (directory : Directory) (generation : ArchiveFileName) :
    Result Directory :=
  match directory.lookup generation.fileName with
  | none => .error (.inputOutput s!"{generation.fileName}: No such file or directory")
  | some file =>
    if file.length = 0 then .ok directory
    else do
      let backup := backupPath directory generation.fileName
      environment.perform (.retire generation.fileName backup)
      if generation.fileName = targetName then return directory.insert backup file
      else return Finmap.insert backup file (directory.erase generation.fileName)

/-- Retires the letters and installs the replacement under the target name. -/
def installRecoveredArchive (directory : Directory) (generations : List ArchiveFileName)
    (targetName : String) (file : Bytes) : Result (Directory × TarArchiveReader) := do
  let retired ← generations.foldlM (retireGeneration environment targetName) directory
  environment.perform (.install (targetName ++ ".recovering") targetName)
  environment.perform (.reopen targetName)
  let reader ← TarArchiveReader.openFile targetName file
  return (retired.insert targetName (.readable file), reader)

/-- Recovers a number with no valid index.  Its letters are given in ascending order. -/
def recoverNumber (directory : Directory) (generations : List ArchiveFileName) :
    Result (Directory × TarArchiveReader) := do
  let letters := generations.map directory.letter
  let recovered := scanRecoverableSegments letters
  if recovered.isEmpty then .error (unrecoverableArchiveNumberRefusal letters)
  else do
    let targetName := directory.installTargetName generations
    let temporaryName := targetName ++ ".recovering"
    let staged := directory.erase temporaryName
    environment.perform (.writeReplacement temporaryName)
    let file ← rebuildArchive targetName (environment.clock targetName)
      (environment.times targetName) recovered
    environment.perform (.inheritMetadata targetName temporaryName)
    environment.perform (.reopen temporaryName)
    installRecoveredArchive environment staged generations targetName file

/-- Opens one number.  Its letters are given in the order of the listing. -/
def openNumberForWriting (directory : Directory) (names : List ArchiveFileName) :
    Result (Directory × List TarArchiveReader) := do
  let generations := oldestFirst names
  match directory.selectWritableGeneration generations with
  | (some reader, _) =>
    let kept ← generations.foldlM (removeLoser environment reader.fileName) directory
    return (kept, [reader])
  | (none, false) => return (directory, [])
  | (none, true) =>
    let (installed, archive) ← recoverNumber environment directory generations
    return (installed, [archive])

/-- Opens the numbers one after the other. -/
def openArchiveNumbersForWriting :
    Directory → List (Nat × List ArchiveFileName) → Result (Directory × List TarArchiveReader)
  | directory, [] => .ok (directory, [])
  | directory, (_, names) :: byNumber => do
    let (next, opened) ← openNumberForWriting environment directory names
    let (last, archives) ← openArchiveNumbersForWriting next byNumber
    return (last, opened ++ archives)

/-- Opens the archives of a directory for writing, newest number first. -/
def initializeArchivesForWriting (directory : Directory) (listing : List String) :
    Result (Directory × List TarArchiveReader) := do
  let fileNames := listArchiveFileNames listing
  let _ ← groupFileGenerationsNewestFirst fileNames
  let (last, archives) ← openArchiveNumbersForWriting environment directory
    (namesByNumber fileNames).rows
  return (last, archives.reverse)

end Write

/-! ## The content of a rebuilt archive -/

/-- The segments that a reader serves. -/
def TarArchiveReader.segments (reader : TarArchiveReader) : List RecoveredSegment :=
  reader.segmentIdentifiers.filterMap fun identifier =>
    (reader.segmentData identifier).map fun bytes => (identifier, bytes)

variable {reader : TarArchiveReader} {last : Directory} {readers : List TarArchiveReader}

theorem TarArchiveReader.mem_segments {identifier : SegmentIdentifier}
    {bytes : Bytes} : (identifier, bytes) ∈ reader.segments ↔
      identifier ∈ reader.segmentIdentifiers ∧ reader.segmentData identifier = some bytes := by
  simp only [segments, List.mem_filterMap, Option.map_eq_some_iff, Prod.mk.injEq]
  constructor
  · rintro ⟨_, hlisted, _, hdata, rfl, rfl⟩
    exact ⟨hlisted, hdata⟩
  · rintro ⟨hlisted, hdata⟩
    exact ⟨identifier, hlisted, bytes, hdata, rfl, rfl⟩

/-- What the recovery scan lists can be read. -/
theorem TarArchiveReader.segmentData_of_recovered {fileName : String} {bytes : Bytes} (hopen : openFile fileName bytes = .ok reader)
    (hrecovered : reader.isRecovered = true) {identifier : SegmentIdentifier}
    (hlisted : identifier ∈ reader.segmentIdentifiers) :
    ∃ data, reader.segmentData identifier = some data := by
  rw [openFile] at hopen
  split at hopen
  · exact absurd hopen invalid_ne_ok
  split at hopen
  · cases hopen
    cases hrecovered
  · cases hopen
    obtain ⟨entry, hentry, rfl⟩ := mem_map.mp hlisted
    obtain ⟨data, hdata⟩ : ∃ data, (recoverSegmentEntries bytes fileName).lookup entry.1 =
        some data := by
      rw [← Option.isSome_iff_exists, List.lookup_isSome_iff]
      exact ⟨entry, hentry, beq_self_eq_true _⟩
    obtain ⟨before, after, hsplit, -⟩ := List.lookup_eq_some_iff.mp hdata
    have hinside := recoverFrom_inside (fun entry hentry => absurd hentry List.not_mem_nil)
      (entry.1, data) (show _ ∈ recoverSegmentEntries bytes fileName by rw [hsplit]; simp)
    refine ⟨bytes.slice data.start (data.stop - data.start), ?_⟩
    refine Option.bind_eq_some_iff.mpr ⟨data, hdata, ?_⟩
    exact if_pos hinside

section Letters

variable {directory : Directory} {group : List ArchiveFileName} {name : ArchiveFileName}
  {identifier : SegmentIdentifier} {bytes : Bytes}

theorem letterSegments_letter (directory : Directory) (name : ArchiveFileName) :
    letterSegments (directory.letter name) =
      if directory.isEmptyFile name.fileName then []
      else match directory.openArchive name.fileName with
        | .ok reader => reader.segments
        | .error _ => [] := by
  have hnothing : letterSegments ⟨name.fileName, name.archiveNumber, []⟩ = [] := rfl
  cases hfile : directory.lookup name.fileName with
  | none =>
    simp only [Directory.letter, isEmptyFile, openArchive, hfile, hnothing,
      Bool.false_eq_true, if_false]
  | some file =>
    cases file with
    | unopenable length error =>
      simp only [Directory.letter, openArchive, hfile, hnothing, ite_self]
    | readable bytes =>
      by_cases hempty : bytes.length = 0
      · obtain rfl := List.length_eq_zero_iff.mp hempty
        simp only [Directory.letter, isEmptyFile, hfile, hnothing, ArchiveFile.length,
          List.length_nil, decide_true, if_true]
      · simp only [Directory.letter, isEmptyFile, openArchive, hfile,
          ArchiveFile.length, hempty, decide_false, Bool.false_eq_true, if_false, letterSegments]
        cases TarArchiveReader.openFile name.fileName bytes with
        | error error => rfl
        | ok reader => rfl

/-- The letters of a number without a valid index serve the bytes of the newest one. -/
theorem servedSegment_recoveredArchives
    (h : ∀ reader ∈ directory.recoveredArchives group, reader.isRecovered = true) :
    servedSegment (directory.recoveredArchives group) identifier = some bytes ↔
      Newest (group.reverse.map directory.letter) identifier bytes := by
  induction group with
  | nil =>
    refine iff_of_false (fun hserved => by cases hserved) ?_
    rintro ⟨older, letter, newer, hsplit, -⟩
    simp at hsplit
  | cons name older ih =>
    rw [List.reverse_cons, List.map_append, List.map_singleton, newest_append_singleton,
      letterSegments_letter]
    rw [Directory.recoveredArchives, List.filterMap_cons] at h ⊢
    cases hempty : directory.isEmptyFile name.fileName with
    | true =>
      rw [hempty, if_pos rfl] at h
      rw [if_pos rfl, if_pos rfl]
      simp only [List.not_mem_nil, false_or, List.map_nil, not_false_eq_true, true_and]
      exact ih h
    | false =>
      rw [hempty, if_neg Bool.false_ne_true] at h
      rw [if_neg Bool.false_ne_true, if_neg Bool.false_ne_true]
      cases hopen : directory.openArchive name.fileName with
      | error error =>
        rw [hopen] at h
        simp only [Except.toOption, List.not_mem_nil, false_or, List.map_nil, not_false_eq_true,
          true_and]
        exact ih h
      | ok reader =>
        rw [hopen] at h
        obtain ⟨hrecovered, hrest⟩ := List.forall_mem_cons.mp h
        have hlater := ih hrest
        dsimp only [Except.toOption]
        rw [servedSegment_cons, TarArchiveReader.mem_segments]
        have hlisted : identifier ∈ identifiersOf reader.segments ↔
            identifier ∈ reader.segmentIdentifiers := by
          rw [mem_map]
          constructor
          · rintro ⟨segment, hsegment, rfl⟩
            exact (TarArchiveReader.mem_segments.mp hsegment).1
          · intro hin
            obtain ⟨file, hfile⟩ : ∃ file, directory.lookup name.fileName =
                some (.readable file) ∧ TarArchiveReader.openFile name.fileName file = .ok reader := by
              rw [openArchive] at hopen
              split at hopen
              · cases hopen
              · cases hopen
              · rename_i file hfile
                exact ⟨file, hfile, hopen⟩
            obtain ⟨data, hdata⟩ :=
              TarArchiveReader.segmentData_of_recovered hfile.2 hrecovered hin
            exact ⟨(identifier, data), TarArchiveReader.mem_segments.mpr ⟨hin, hdata⟩, rfl⟩
        rw [hlisted]
        by_cases hin : identifier ∈ reader.segmentIdentifiers
        · simp only [hin, if_true, true_and, not_true_eq_false, false_and, or_false]
        · simp only [hin, if_false, false_and, false_or, not_false_eq_true, true_and]
          exact hlater

/-- A number is recovered from what its letters serve. -/
theorem recoveredArchives_ne_nil
    (h : scanRecoverableSegments (group.reverse.map directory.letter) ≠ []) :
    directory.recoveredArchives group ≠ [] := by
  intro hnone
  obtain ⟨segment, hsegment⟩ := List.exists_mem_of_ne_nil _ h
  have hserved : servedSegment (directory.recoveredArchives group) segment.1 = some segment.2 :=
    (servedSegment_recoveredArchives (by rw [hnone]; simp)).mpr (mem_scan_iff.mp hsegment)
  rw [hnone] at hserved
  cases hserved

end Letters

/-- A rebuilt archive has a valid index and serves the recovered segments. -/
theorem rebuildArchive_ok (name : String) {targetName : String} {clock : SegmentIdentifier → UInt64}
    {times : CloseTimes} {recovered : List RecoveredSegment} {file : Bytes}
    (h : rebuildArchive targetName clock times recovered = .ok file)
    (hdistinct : (identifiersOf recovered).Nodup) :
    ∃ archive, TarArchiveReader.openFile name file = .ok archive ∧ archive.isRecovered = false ∧
      ∀ identifier bytes, servedSegment [archive] identifier = some bytes ↔
        (identifier, bytes) ∈ recovered := by
  rw [rebuildArchive] at h
  obtain ⟨ws, hwrites, h⟩ := bind_ok_iff.mp h
  obtain ⟨file', hfile, h⟩ := bind_ok_iff.mp h
  obtain ⟨validated, hvalidated, h⟩ := bind_ok_iff.mp h
  split at h
  · exact absurd h invalid_ne_ok
  rename_i hindexed
  cases h
  obtain ⟨writer, hrun, hclose⟩ := writeReplacement_ok hfile
  have hsegments := recoveryWrites_segments hwrites
  have hcalls : writes (ws.map .writeSegment) = ws := by
    rw [writes, List.filterMap_map]
    exact List.filterMap_some
  have hkeys : ws.map SegmentWrite.identifier = identifiersOf recovered := by
    rw [← hsegments, identifiersOf, List.map_map]
    rfl
  obtain ⟨archive, index, hopen, hindex, hholds⟩ := @roundTrips_of_index _ _ name _ _ _ _ _
    (represents_run hrun) (by rw [hcalls, hkeys]; exact hdistinct) hclose hvalidated
    (Bool.eq_false_iff.mpr hindexed)
  refine ⟨archive, hopen, exists_index.mpr ⟨index, hindex⟩, fun identifier bytes => ?_⟩
  have hdata := hholds.data
  have habsent := hholds.absent
  rw [hcalls] at hdata habsent
  rw [servedSegment_singleton, segmentIdentifiers_of_index hindex, ← hsegments]
  constructor
  · intro hserved
    split at hserved
    · by_cases hin : identifier ∈ ws.map SegmentWrite.identifier
      · obtain ⟨write, hwrite, rfl⟩ := mem_map.mp hin
        rw [(hdata write hwrite).2] at hserved
        exact mem_map.mpr ⟨write, hwrite, Prod.ext rfl (Option.some.inj hserved)⟩
      · rw [(habsent identifier hin).2] at hserved
        cases hserved
    · cases hserved
  · intro hmem
    obtain ⟨write, hwrite, heq⟩ := mem_map.mp hmem
    cases heq
    obtain ⟨hfound, hread⟩ := hdata write hwrite
    obtain ⟨entry, hentry⟩ := Option.isSome_iff_exists.mp hfound
    obtain ⟨hlisted, hidentifier⟩ := SegmentIndex.findEntry_eq_some_iff.mp hentry
    rw [if_pos (mem_map.mpr ⟨entry, hlisted, hidentifier⟩)]
    exact hread

/-! ## What becomes of the files -/

/-- The names of retired archives. -/
def IsBackup (name : String) : Prop := ".bak".utf8 <:+ name.utf8

/-- The names of archives that are being rebuilt. -/
def IsStaging (name : String) : Prop :=
  ∃ fileName, (parse fileName).isSome = true ∧ name = fileName ++ ".recovering"

theorem isBackup_backupPath :
    IsBackup (backupPath directory fileName) := by
  rw [IsBackup, backupPath]
  split
  · rw [Utf8.utf8_append]
    exact List.suffix_append ..
  · rw [numberedBackup, Utf8.utf8_append]
    exact List.suffix_append ..

theorem lookup_backupPath :
    directory.lookup (backupPath directory fileName) = none := by
  by_cases hfirst : directory.lookup (fileName ++ ".bak") = none
  · rw [backupPath, if_pos hfirst]
    exact hfirst
  · rw [backupPath, if_neg hfirst]
    exact Nat.find_spec (exists_numberedBackup_free directory fileName)

/-- Suffixes of one length are the same. -/
theorem eq_of_suffix {a b bytes : Bytes} (ha : a <:+ bytes) (hb : b <:+ bytes)
    (hlength : a.length = b.length) : a = b :=
  (List.suffix_of_suffix_length_le ha hb hlength.le).eq_of_length hlength

section

variable {name : String}

theorem parse_of_suffix {last : Bytes} (h : last <:+ name.utf8)
    (hlength : last.length = 4) (hne : last ≠ ".tar".utf8) : parse name = none := by
  cases hparse : parse name with
  | none => rfl
  | some parsed =>
    have htar := List.isSuffixOf_iff_suffix.mp (Directory.isSuffixOf_of_parse hparse)
    exact absurd (eq_of_suffix h htar hlength) hne

theorem IsBackup.parse (h : IsBackup name) : parse name = none :=
  parse_of_suffix h (by decide) (by decide)

theorem IsStaging.suffix (h : IsStaging name) : "ring".utf8 <:+ name.utf8 := by
  obtain ⟨fileName, -, rfl⟩ := h
  rw [Utf8.utf8_append, show ".recovering".utf8 = ".recove".utf8 ++ "ring".utf8 by decide,
    ← List.append_assoc]
  exact List.suffix_append ..

theorem IsStaging.parse (h : IsStaging name) : ArchiveFileName.parse name = none :=
  parse_of_suffix h.suffix (by decide) (by decide)

theorem IsBackup.not_isStaging (h : IsBackup name) : ¬ IsStaging name :=
  fun hstaging => absurd (eq_of_suffix h hstaging.suffix (by decide)) (by decide)

end

/-- A file is still there, under its name or under a backup name. -/
def KeptIn (directory : Directory) (fileName : String) (file : ArchiveFile) : Prop :=
  ∃ name, (name = fileName ∨ IsBackup name) ∧ directory.lookup name = some file

/-- What one number does to the files of a directory: its letters that are not served may be
deleted, and a file in the place of its replacement. -/
structure FilesKept (directory next : Directory) (number : Nat) (readers : List TarArchiveReader) :
    Prop where
  kept : ∀ fileName file, directory.lookup fileName = some file →
    KeptIn next fileName file ∨
      (∃ name, parse fileName = some name ∧ name.archiveNumber = number ∧
        ∀ reader ∈ readers, reader.fileName ≠ fileName) ∨
      IsStaging fileName
  others : ∀ other, other ≠ number → directory.AgreeOn next other

section Files

variable {environment : WriteEnvironment} {directory next : Directory}
  {names : List ArchiveFileName} {targetName : String}

theorem removeLosers_ok {winner : String}
    (h : names.foldlM (removeLoser environment winner) directory = .ok next) :
    next = directory.without
      ((names.filter fun name => name.fileName ≠ winner).map ArchiveFileName.fileName) := by
  induction names generalizing directory with
  | nil =>
    cases h
    rfl
  | cons name names ih =>
    obtain ⟨middle, hmiddle, hrest⟩ := Except.foldlM_cons_ok_iff.mp h
    rw [ih hrest, List.filter_cons]
    rw [removeLoser] at hmiddle
    split at hmiddle
    · rename_i hlosing
      obtain ⟨-, -, heq⟩ := bind_ok_iff.mp hmiddle
      cases heq
      rw [if_pos (decide_eq_true hlosing)]
      rfl
    · rename_i hwinning
      cases hmiddle
      rw [if_neg (by simpa using hwinning)]

/-- Retiring a letter keeps every file; a letter with bytes is kept under a backup name. -/
theorem retireGeneration_ok {generation : ArchiveFileName}
    (h : retireGeneration environment targetName directory generation = .ok next) :
    (∀ fileName file, directory.lookup fileName = some file → KeptIn next fileName file) ∧
      (∀ file, directory.lookup generation.fileName = some file → file.length ≠ 0 →
        ∃ name, IsBackup name ∧ next.lookup name = some file) ∧
      ∀ fileName, fileName ≠ generation.fileName → ¬ IsBackup fileName →
        next.lookup fileName = directory.lookup fileName := by
  rw [retireGeneration] at h
  split at h
  · cases h
  rename_i found hfound
  split at h
  · rename_i hzero
    cases h
    refine ⟨fun fileName file hfile => ⟨fileName, .inl rfl, hfile⟩, ?_, fun _ _ _ => rfl⟩
    intro file hfile hlong
    rw [hfound] at hfile
    cases hfile
    exact absurd hzero hlong
  · obtain ⟨-, -, h⟩ := bind_ok_iff.mp h
    have hfree := lookup_backupPath directory generation.fileName
    have hbackup := isBackup_backupPath directory generation.fileName
    obtain ⟨backup, hname⟩ : ∃ backup, backup = backupPath directory generation.fileName := ⟨_, rfl⟩
    rw [← hname] at hfree hbackup h
    have hnew : next.lookup backup = some found := by
      split at h
      · cases h
        exact lookup_insert _
      · cases h
        exact lookup_insert _
    have hold : ∀ fileName, fileName ≠ generation.fileName → fileName ≠ backup →
        next.lookup fileName = directory.lookup fileName := by
      intro fileName hother hnot
      split at h
      · cases h
        exact lookup_insert_of_ne _ hnot
      · cases h
        rw [lookup_insert_of_ne _ hnot, lookup_erase_ne hother]
    refine ⟨?_, ?_, ?_⟩
    · intro fileName file hfile
      by_cases hsame : fileName = generation.fileName
      · subst hsame
        rw [hfound] at hfile
        cases hfile
        exact ⟨backup, .inr hbackup, hnew⟩
      · refine ⟨fileName, .inl rfl, (hold fileName hsame ?_).trans hfile⟩
        rintro rfl
        rw [hfree] at hfile
        cases hfile
    · intro file hfile _
      rw [hfound] at hfile
      cases hfile
      exact ⟨backup, hbackup, hnew⟩
    · intro fileName hother hnot
      refine hold fileName hother ?_
      rintro rfl
      exact hnot hbackup

variable {file : ArchiveFile}

theorem KeptIn.trans {last : Directory} {fileName : String} (h : KeptIn next fileName file)
    (hlater : ∀ name, next.lookup name = some file → KeptIn last name file) :
    KeptIn last fileName file := by
  obtain ⟨name, hname, hfile⟩ := h
  obtain ⟨later, hlater, hkept⟩ := hlater name hfile
  refine ⟨later, ?_, hkept⟩
  rcases hlater with rfl | hbackup
  · exact hname
  · exact .inr hbackup

theorem KeptIn.backup {fileName : String} (h : KeptIn next fileName file)
    (hbackup : IsBackup fileName) : ∃ name, IsBackup name ∧ next.lookup name = some file := by
  obtain ⟨name, hname, hfile⟩ := h
  refine ⟨name, ?_, hfile⟩
  rcases hname with rfl | hname
  · exact hbackup
  · exact hname

/-- Retiring the letters keeps every file, and those with bytes under a backup name. -/
theorem retireGenerations_ok
    (h : names.foldlM (retireGeneration environment targetName) directory = .ok next) :
    (∀ fileName file, directory.lookup fileName = some file → KeptIn next fileName file) ∧
      (∀ generation ∈ names, ∀ file, directory.lookup generation.fileName = some file →
        file.length ≠ 0 → ∃ name, IsBackup name ∧ next.lookup name = some file) ∧
      ∀ fileName, (∀ generation ∈ names, fileName ≠ generation.fileName) → ¬ IsBackup fileName →
        next.lookup fileName = directory.lookup fileName := by
  induction names generalizing directory with
  | nil =>
    cases h
    exact ⟨fun fileName file hfile => ⟨fileName, .inl rfl, hfile⟩,
      fun generation hmem => absurd hmem List.not_mem_nil, fun _ _ _ => rfl⟩
  | cons generation names ih =>
    obtain ⟨middle, hmiddle, hrest⟩ := Except.foldlM_cons_ok_iff.mp h
    obtain ⟨hkept, hretired, hsame⟩ := retireGeneration_ok hmiddle
    obtain ⟨hkeptRest, hretiredRest, hsameRest⟩ := ih hrest
    have hfirst : ∀ file, directory.lookup generation.fileName = some file → file.length ≠ 0 →
        ∃ name, IsBackup name ∧ next.lookup name = some file := by
      intro file hfile hlong
      obtain ⟨name, hbackup, hname⟩ := hretired file hfile hlong
      exact (hkeptRest name file hname).backup hbackup
    refine ⟨?_, ?_, ?_⟩
    · intro fileName file hfile
      exact (hkept fileName file hfile).trans fun name hname => hkeptRest name file hname
    · intro other hother file hfile hlong
      by_cases heq : other.fileName = generation.fileName
      · rw [heq] at hfile
        exact hfirst file hfile hlong
      rcases List.mem_cons.mp hother with rfl | hin
      · exact absurd rfl heq
      · by_cases hbackup : IsBackup other.fileName
        · obtain ⟨name, hname, hkeptName⟩ := (hkept other.fileName file hfile).backup hbackup
          exact (hkeptRest name file hkeptName).backup hname
        · exact hretiredRest other hin file ((hsame _ heq hbackup).trans hfile) hlong
    · intro fileName hother hnot
      rw [hsameRest fileName (fun other hin => hother other (List.mem_cons_of_mem _ hin)) hnot]
      exact hsame fileName (hother generation (List.mem_cons_self ..)) hnot

/-- Letters that are there are retired when the file system refuses nothing. -/
theorem exists_retired (hallowed : ∀ operation, environment.refusal operation = none)
    (hnodup : (names.map ArchiveFileName.fileName).Nodup)
    (hnames : ∀ name ∈ names, ¬ IsBackup name.fileName ∧
      ∃ file, directory.lookup name.fileName = some file) :
    ∃ retired, names.foldlM (retireGeneration environment targetName) directory = .ok retired := by
  induction names generalizing directory with
  | nil => exact ⟨directory, rfl⟩
  | cons name names ih =>
    obtain ⟨hfirst, hrest⟩ := List.forall_mem_cons.mp hnames
    rw [List.map_cons, List.nodup_cons] at hnodup
    obtain ⟨file, hfile⟩ := hfirst.2
    obtain ⟨middle, hmiddle⟩ : ∃ middle,
        retireGeneration environment targetName directory name = .ok middle := by
      rw [retireGeneration, hfile]
      dsimp only
      split
      · exact ⟨directory, rfl⟩
      · rw [WriteEnvironment.perform, hallowed]
        by_cases htarget : name.fileName = targetName
        · rw [if_pos htarget]
          exact ⟨_, rfl⟩
        · rw [if_neg htarget]
          exact ⟨_, rfl⟩
    obtain ⟨retired, hretired⟩ := ih hnodup.2 fun other hother => by
      obtain ⟨hother', file, hlookup⟩ := hrest other hother
      refine ⟨hother', file, ?_⟩
      rw [(retireGeneration_ok hmiddle).2.2 _ ?_ hother', hlookup]
      intro heq
      exact hnodup.1 (mem_map.mpr ⟨other, hother, heq⟩)
    exact ⟨retired, Except.foldlM_cons_ok_iff.mpr ⟨middle, hmiddle, hretired⟩⟩

end Files

/-! ## One number -/

/-- What a number yields for writing, beside what it serves for reading: the same archive
when that has a valid index, and else one archive with a valid index and the same content. -/
structure SameContent (read written : List TarArchiveReader) : Prop where
  served : ∀ identifier, servedSegment written identifier = servedSegment read identifier
  indexed : (∀ reader ∈ read, reader.isRecovered = false) → written = read
  rebuilt : (∃ reader ∈ read, reader.isRecovered = true) →
    ∃ archive, written = [archive] ∧ archive.isRecovered = false

section Number

variable {environment : WriteEnvironment} {directory next : Directory} {number : Nat}
  {group : List ArchiveFileName} {names : List ArchiveFileName} {archives : List TarArchiveReader}

/-- The letter to write against is the newest one with a valid index. -/
theorem probeWritable_eq (directory : Directory) (group : List ArchiveFileName)
    (anyNonempty : Bool) :
    (∃ newer name older reader, group = newer ++ name :: older ∧ directory.Indexless newer ∧
        directory.Indexed name.fileName reader ∧
        directory.probeWritable group anyNonempty = (some reader, true)) ∨
      directory.Indexless group ∧ directory.probeWritable group anyNonempty =
        (none, anyNonempty || group.any fun name => !directory.isEmptyFile name.fileName) := by
  induction group generalizing anyNonempty with
  | nil =>
    refine .inr ⟨fun name hname => absurd hname List.not_mem_nil, ?_⟩
    rw [Directory.probeWritable, List.any_nil, Bool.or_false]
  | cons candidate older ih =>
    have hpassed : ∀ flag : Bool, (∀ reader, ¬ directory.Indexed candidate.fileName reader) →
        directory.probeWritable (candidate :: older) anyNonempty =
          directory.probeWritable older flag →
        flag = (anyNonempty || !directory.isEmptyFile candidate.fileName) →
        (∃ newer name older' reader, candidate :: older = newer ++ name :: older' ∧
            directory.Indexless newer ∧ directory.Indexed name.fileName reader ∧
            directory.probeWritable (candidate :: older) anyNonempty = (some reader, true)) ∨
          directory.Indexless (candidate :: older) ∧
            directory.probeWritable (candidate :: older) anyNonempty = (none, anyNonempty ||
              (candidate :: older).any fun name => !directory.isEmptyFile name.fileName) := by
      intro flag hnot hprobe hflag
      rw [hprobe]
      rcases ih flag with ⟨newer, name, older', reader, rfl, hnewer, hindexed, heq⟩ | ⟨hnone, heq⟩
      · exact .inl ⟨candidate :: newer, name, older', reader, rfl,
          List.forall_mem_cons.mpr ⟨hnot, hnewer⟩, hindexed, heq⟩
      · refine .inr ⟨List.forall_mem_cons.mpr ⟨hnot, hnone⟩, ?_⟩
        rw [heq, hflag, List.any_cons, Bool.or_assoc]
    cases hempty : directory.isEmptyFile candidate.fileName with
    | true =>
      refine hpassed anyNonempty (fun reader hreader => ?_) ?_
        (by rw [hempty, Bool.not_true, Bool.or_false])
      · rw [hreader.nonempty] at hempty
        cases hempty
      · rw [Directory.probeWritable, if_pos hempty]
    | false =>
      have hskip := Bool.eq_false_iff.mp hempty
      cases hopen : directory.openArchive candidate.fileName with
      | error error =>
        refine hpassed true (fun reader hreader => ?_) ?_
          (by rw [hempty, Bool.not_false, Bool.or_true])
        · rw [hreader.opens] at hopen
          cases hopen
        · rw [Directory.probeWritable, if_neg hskip, hopen]
      | ok reader =>
        cases hrecovered : reader.isRecovered with
        | true =>
          refine hpassed true (fun other hother => ?_) ?_
            (by rw [hempty, Bool.not_false, Bool.or_true])
          · obtain rfl := Except.ok.inj (hopen.symm.trans hother.opens)
            rw [hother.indexed] at hrecovered
            cases hrecovered
          · rw [Directory.probeWritable, if_neg hskip, hopen]
            dsimp only
            rw [hrecovered, Bool.not_true, if_neg Bool.false_ne_true]
        | false =>
          refine .inl ⟨[], candidate, older, reader, rfl,
            fun name hname => absurd hname List.not_mem_nil, ⟨hempty, hopen, hrecovered⟩, ?_⟩
          rw [Directory.probeWritable, if_neg hskip, hopen]
          dsimp only
          rw [hrecovered, Bool.not_false, if_pos rfl]

/-- Deleting the losing letters leaves the winner and the files of other numbers. -/
theorem filesKept_of_removeLosers {reader : TarArchiveReader}
    (hletters : directory.Letters number group) (hnames : ∀ name ∈ names, name ∈ group)
    (h : names.foldlM (removeLoser environment reader.fileName) directory = .ok next) :
    FilesKept directory next number [reader] where
  kept fileName file hfile := by
    rw [removeLosers_ok h]
    by_cases hremoved : fileName ∈
        (names.filter fun name => name.fileName ≠ reader.fileName).map ArchiveFileName.fileName
    · obtain ⟨name, hname, rfl⟩ := mem_map.mp hremoved
      obtain ⟨hmem, hlosing⟩ := List.mem_filter.mp hname
      obtain ⟨hparse, -, hnumber⟩ := (hletters.mem name).mp (hnames name hmem)
      refine .inr (.inl ⟨name, hparse, hnumber, fun other hother heq => ?_⟩)
      rw [List.mem_singleton.mp hother] at heq
      exact of_decide_eq_true hlosing heq.symm
    · refine .inl ⟨fileName, .inl rfl, ?_⟩
      rw [Directory.lookup_without, if_neg hremoved]
      exact hfile
  others other hother := by
    intro name hparse hnumber
    rw [removeLosers_ok h, Directory.lookup_without, if_neg]
    intro hremoved
    obtain ⟨loser, hloser, hsame⟩ := mem_map.mp hremoved
    obtain ⟨hparseLoser, -, hnumberLoser⟩ :=
      (hletters.mem loser).mp (hnames loser (List.mem_filter.mp hloser).1)
    rw [hsame, hparse] at hparseLoser
    rw [← hnumber, ← hnumberLoser, Option.some.inj hparseLoser] at hother
    exact hother rfl

/-- The target of an installation is one of the letters. -/
theorem installTargetName_mem (directory : Directory) (hne : names ≠ []) :
    ∃ target ∈ names, directory.installTargetName names = target.fileName := by
  rw [Directory.installTargetName]
  cases hfind : names.find? fun name => directory.isNonemptyFile name.fileName with
  | some target => exact ⟨target, List.mem_of_find?_eq_some hfind, rfl⟩
  | none =>
    obtain ⟨first, rest, rfl⟩ := List.exists_cons_of_ne_nil hne
    exact ⟨first, List.mem_cons_self .., rfl⟩

section

variable (hletters : directory.Letters number group)
include hletters

/-- Installing a replacement keeps every file with bytes. -/
theorem filesKept_of_install {retired : Directory} {readers : List TarArchiveReader}
    {target : ArchiveFileName} {file : ArchiveFile} (hnames : ∀ name, name ∈ names ↔ name ∈ group)
    (htarget : target ∈ names)
    (hreaders : ∀ reader ∈ readers, directory.isEmptyFile reader.fileName = false)
    (h : names.foldlM (retireGeneration environment target.fileName)
      (directory.erase (target.fileName ++ ".recovering")) = .ok retired) :
    FilesKept directory (retired.insert target.fileName file) number readers := by
  obtain ⟨hparseTarget, -, hnumberTarget⟩ := (hletters.mem target).mp ((hnames target).mp htarget)
  have hstaging : IsStaging (target.fileName ++ ".recovering") :=
    ⟨target.fileName, by rw [hparseTarget]; rfl, rfl⟩
  obtain ⟨hkept, hretired, hsame⟩ := retireGenerations_ok h
  refine ⟨fun fileName old hfile => ?_, fun other hother name hparse hnumber => ?_⟩
  · by_cases htemporary : fileName = target.fileName ++ ".recovering"
    · exact .inr (.inr (htemporary ▸ hstaging))
    have hstaged : Finmap.lookup fileName (directory.erase (target.fileName ++ ".recovering")) =
        some old := by
      rw [lookup_erase_ne htemporary]
      exact hfile
    obtain ⟨name, hname, hold⟩ := hkept fileName old hstaged
    by_cases hreplaced : name = target.fileName
    · -- the file under the target name is kept as a backup, unless it is empty
      have hown : fileName = target.fileName := by
        rcases hname with rfl | hbackup
        · exact hreplaced
        · rw [hreplaced] at hbackup
          rw [hbackup.parse] at hparseTarget
          cases hparseTarget
      subst hown
      by_cases hempty : old.length = 0
      · refine .inr (.inl ⟨target, hparseTarget, hnumberTarget, fun reader hreader heq => ?_⟩)
        have hnonempty := hreaders reader hreader
        rw [heq, isEmptyFile, hfile] at hnonempty
        exact of_decide_eq_false hnonempty hempty
      · obtain ⟨backup, hbackup, hlookup⟩ := hretired target htarget old hstaged hempty
        refine .inl ⟨backup, .inr hbackup, ?_⟩
        rw [lookup_insert_of_ne]
        · exact hlookup
        · rintro rfl
          rw [hbackup.parse] at hparseTarget
          cases hparseTarget
    · refine .inl ⟨name, hname, ?_⟩
      rw [lookup_insert_of_ne _ hreplaced]
      exact hold
  · have hforeign : ∀ letter ∈ names, name.fileName ≠ letter.fileName := by
      intro letter hletter heq
      obtain ⟨hparseLetter, -, hnumberLetter⟩ :=
        (hletters.mem letter).mp ((hnames letter).mp hletter)
      rw [← heq, hparse] at hparseLetter
      rw [← hnumber, ← hnumberLetter, Option.some.inj hparseLetter] at hother
      exact hother rfl
    have hnoBackup : ¬ IsBackup name.fileName := by
      intro hbackup
      rw [hbackup.parse] at hparse
      cases hparse
    have hnoStaging : name.fileName ≠ target.fileName ++ ".recovering" := by
      intro heq
      rw [heq, hstaging.parse] at hparse
      cases hparse
    rw [lookup_insert_of_ne _ (hforeign target htarget), hsame _ hforeign hnoBackup,
      lookup_erase_ne hnoStaging]

/-- A number without a valid index is rebuilt with the content it serves. -/
theorem recoverNumber_ok {archive : TarArchiveReader} (hindexless : directory.Indexless group)
    (h : recoverNumber environment directory group.reverse = .ok (next, archive)) :
    directory.openGroup group = .ok (directory.recoveredArchives group) ∧
      SameContent (directory.recoveredArchives group) [archive] ∧
      archive.archiveNumber = some number ∧
      FilesKept directory next number (directory.recoveredArchives group) := by
  rw [recoverNumber] at h
  dsimp only at h
  split at h
  · cases h
  rename_i hsegments
  have hrecovered : scanRecoverableSegments (group.reverse.map directory.letter) ≠ [] := by
    simpa using hsegments
  obtain ⟨-, -, h⟩ := bind_ok_iff.mp h
  obtain ⟨file, hfile, h⟩ := bind_ok_iff.mp h
  obtain ⟨-, -, h⟩ := bind_ok_iff.mp h
  obtain ⟨-, -, h⟩ := bind_ok_iff.mp h
  rw [installRecoveredArchive] at h
  obtain ⟨retired, hretired, h⟩ := bind_ok_iff.mp h
  obtain ⟨-, -, h⟩ := bind_ok_iff.mp h
  obtain ⟨-, -, h⟩ := bind_ok_iff.mp h
  obtain ⟨reader, hreader, h⟩ := bind_ok_iff.mp h
  cases h
  have hne : directory.recoveredArchives group ≠ [] := recoveredArchives_ne_nil hrecovered
  have hopen := Directory.openGroup_indexless hindexless
  rw [if_pos hne] at hopen
  have hsource := fun reader (hreader : reader ∈ directory.recoveredArchives group) =>
    Directory.fileName_of_openGroup hopen hreader
  have hscan : ∀ reader ∈ directory.recoveredArchives group, reader.isRecovered = true := by
    intro reader hreader
    obtain ⟨name, hname, hempty, hresult⟩ := hsource reader hreader
    by_contra hindexed
    exact hindexless name hname reader ⟨hempty, hresult, Bool.eq_false_iff.mpr hindexed⟩
  have hnodup : (identifiersOf
      (scanRecoverableSegments (group.reverse.map directory.letter))).Nodup :=
    List.nodup_putAllFirst List.nodup_nil
  obtain ⟨rebuilt, hrebuilt, hindexed, hserved⟩ :=
    rebuildArchive_ok (directory.installTargetName group.reverse) hfile hnodup
  obtain rfl := Except.ok.inj (hrebuilt.symm.trans hreader)
  have hgroup : group.reverse ≠ [] := by
    intro hnil
    rw [hnil] at hrecovered
    exact hrecovered rfl
  obtain ⟨target, htarget, hname⟩ := installTargetName_mem directory hgroup
  obtain ⟨hparse, -, hnumber⟩ := (hletters.mem target).mp (List.mem_reverse.mp htarget)
  refine ⟨hopen, ⟨fun identifier => Option.ext fun bytes => ?_, fun hall => ?_, fun _ => ?_⟩, ?_, ?_⟩
  · rw [hserved, mem_scan_iff]
    exact (servedSegment_recoveredArchives hscan).symm
  · obtain ⟨first, rest, hcons⟩ := List.exists_cons_of_ne_nil hne
    have hfirst : first ∈ directory.recoveredArchives group := by
      rw [hcons]
      exact List.mem_cons_self ..
    have hboth := hscan first hfirst
    rw [hall first hfirst] at hboth
    cases hboth
  · exact ⟨rebuilt, rfl, hindexed⟩
  · rw [TarArchiveReader.archiveNumber, openFile_fileName hreader, hname, hparse,
      Option.map_some, hnumber]
  · rw [hname] at hretired ⊢
    refine filesKept_of_install hletters (fun name => List.mem_reverse) htarget ?_ hretired
    intro reader hreader
    obtain ⟨name, -, hempty, hresult⟩ := hsource reader hreader
    rw [Directory.openArchive_fileName hresult]
    exact hempty

/-- Opening a number for writing yields what it serves for reading. -/
theorem openNumberForWriting_ok (hnames : oldestFirst names = group.reverse)
    (h : openNumberForWriting environment directory names = .ok (next, archives)) :
    ∃ readers, directory.openGroup group = .ok readers ∧ SameContent readers archives ∧
      archives.length ≤ 1 ∧ (∀ archive ∈ archives, archive.archiveNumber = some number) ∧
      FilesKept directory next number readers := by
  rw [openNumberForWriting] at h
  dsimp only at h
  rw [hnames, Directory.selectWritableGeneration, List.reverse_reverse] at h
  rcases probeWritable_eq directory group false with
    ⟨newer, name, older, reader, hsplit, hnewer, hindexed, hselect⟩ | ⟨hindexless, hselect⟩
  · rw [hselect] at h
    obtain ⟨kept, hkept, heq⟩ := bind_ok_iff.mp h
    cases heq
    have hname : name ∈ group := by rw [hsplit]; simp
    obtain ⟨hparse, -, hnumber⟩ := (hletters.mem name).mp hname
    have hopen : directory.openGroup group = .ok [reader] := by
      rw [hsplit]
      exact Directory.openGroup_indexed hnewer hindexed
    refine ⟨[reader], hopen, ⟨fun _ => rfl, fun _ => rfl, ?_⟩, le_rfl, ?_, ?_⟩
    · rintro ⟨other, hother, hrecovered⟩
      rw [List.mem_singleton.mp hother, hindexed.indexed] at hrecovered
      cases hrecovered
    · intro archive harchive
      rw [List.mem_singleton.mp harchive, TarArchiveReader.archiveNumber,
        Directory.openArchive_fileName hindexed.opens, hparse, Option.map_some, hnumber]
    · exact filesKept_of_removeLosers hletters (fun name hin => List.mem_reverse.mp hin) hkept
  · rw [hselect, Bool.false_or] at h
    cases hany : group.any fun name => !directory.isEmptyFile name.fileName with
    | false =>
      rw [hany] at h
      cases h
      have hempty : ∀ name ∈ group, directory.isEmptyFile name.fileName = true := by
        intro name hname
        have hone := List.any_eq_false.mp hany name hname
        simpa using hone
      have hnone : directory.recoveredArchives group = [] := by
        refine List.filterMap_eq_nil_iff.mpr fun name hname => ?_
        rw [if_pos (hempty name hname)]
      have hfailures : directory.openFailures group = [] := by
        refine List.filterMap_eq_nil_iff.mpr fun name hname => ?_
        rw [if_pos (hempty name hname)]
      refine ⟨[], ?_, ⟨fun _ => rfl, fun _ => rfl, ?_⟩, Nat.zero_le _, ?_, ?_⟩
      · rw [Directory.openGroup_indexless hindexless, hnone, hfailures]
        rfl
      · rintro ⟨reader, hreader, -⟩
        cases hreader
      · intro archive harchive
        cases harchive
      · exact ⟨fun fileName file hfile => .inl ⟨fileName, .inl rfl, hfile⟩,
          fun other _ name _ _ => rfl⟩
    | true =>
      rw [hany] at h
      obtain ⟨⟨installed, archive⟩, hrecover, heq⟩ := bind_ok_iff.mp h
      cases heq
      obtain ⟨hopen, hcontent, hnumber, hkept⟩ := recoverNumber_ok hletters hindexless hrecover
      refine ⟨_, hopen, hcontent, le_rfl, ?_, hkept⟩
      intro other hother
      rw [List.mem_singleton.mp hother]
      exact hnumber

end

end Number

/-! ## All numbers -/

def YieldsForWriting (directory : Directory) (number : Nat) (archives : List TarArchiveReader) :
    Prop :=
  ∃ readers, directory.Serves number readers ∧ SameContent readers archives ∧
    archives.length ≤ 1 ∧ ∀ archive ∈ archives, archive.archiveNumber = some number

/-- Every file of the directory is kept, or is a letter that its number, one of `numbers`,
does not serve, or stands in the place of a replacement. -/
def FilesSurvive (numbers : Set Nat) (directory last : Directory) : Prop :=
  ∀ fileName file, directory.lookup fileName = some file →
    KeptIn last fileName file ∨
      (∃ name readers, parse fileName = some name ∧ name.archiveNumber ∈ numbers ∧
        directory.Serves name.archiveNumber readers ∧
        ∀ reader ∈ readers, reader.fileName ≠ fileName) ∨
      IsStaging fileName

theorem Directory.AgreeOn.symm {directory directory' : Directory} {number : Nat}
    (h : directory.AgreeOn directory' number) : directory'.AgreeOn directory number :=
  fun name hparse hnumber => (h name hparse hnumber).symm

/-- What is served for the other numbers is not touched by opening one of them. -/
theorem FilesKept.survive {directory next : Directory} {number : Nat} {numbers : Set Nat}
    (h : FilesKept directory next number readers) (hserves : directory.Serves number readers)
    (hnumber : number ∉ numbers) (hlater : FilesSurvive numbers next last) :
    FilesSurvive (insert number numbers) directory last := by
  intro fileName file hfile
  rcases h.kept fileName file hfile with ⟨name, hname, hkept⟩ | ⟨name, hparse, hown, hunserved⟩ |
      hstaging
  · rcases hlater name file hkept with hkeptLater | ⟨letter, served, hparse, hmem, hserved,
        hunserved⟩ | hstaging
    · obtain ⟨later, hlaterName, hlookup⟩ := hkeptLater
      refine .inl ⟨later, ?_, hlookup⟩
      rcases hlaterName with rfl | hbackup
      · exact hname
      · exact .inr hbackup
    · rcases hname with rfl | hbackup
      · have hother : letter.archiveNumber ≠ number := fun heq => hnumber (heq ▸ hmem)
        exact .inr (.inl ⟨letter, served, hparse, .inr hmem,
          hserved.congr (h.others _ hother).symm, hunserved⟩)
      · rw [hbackup.parse] at hparse
        cases hparse
    · rcases hname with rfl | hbackup
      · exact .inr (.inr hstaging)
      · exact absurd hstaging hbackup.not_isStaging
  · exact .inr (.inl ⟨name, readers, hparse, .inl hown, hown ▸ hserves, hunserved⟩)
  · exact .inr (.inr hstaging)

section

variable {environment : WriteEnvironment} {directory : Directory}
  {archives : List TarArchiveReader}

/-- Opening the numbers of a directory for writing yields what each serves for reading. -/
theorem openArchiveNumbersForWriting_ok {byNumber : List (Nat × List ArchiveFileName)}
    (hletters : ∀ row ∈ byNumber, ∃ group, directory.Letters row.1 group ∧
      oldestFirst row.2 = group.reverse)
    (hnodup : (byNumber.map Prod.fst).Nodup)
    (h : openArchiveNumbersForWriting environment directory byNumber = .ok (last, archives)) :
    FilesSurvive {number | number ∈ byNumber.map Prod.fst} directory last ∧
      ∃ parts, archives = parts.flatten ∧
        List.Forall₂ (fun number part => YieldsForWriting directory number part)
          (byNumber.map Prod.fst) parts := by
  induction byNumber generalizing directory archives with
  | nil =>
    cases h
    exact ⟨fun fileName file hfile => .inl ⟨fileName, .inl rfl, hfile⟩, [], rfl, .nil⟩
  | cons row byNumber ih =>
    obtain ⟨number, names⟩ := row
    rw [openArchiveNumbersForWriting] at h
    obtain ⟨⟨next, opened⟩, hopened, h⟩ := bind_ok_iff.mp h
    obtain ⟨⟨rest, later⟩, hlater, heq⟩ := bind_ok_iff.mp h
    cases heq
    obtain ⟨group, hown, hnames⟩ := hletters _ (List.mem_cons_self ..)
    obtain ⟨readers, hread, hcontent, hlength, hnumber, hkept⟩ :=
      openNumberForWriting_ok hown hnames hopened
    have hserves : directory.Serves number readers := ⟨group, hown, hread⟩
    rw [List.map_cons, List.nodup_cons] at hnodup
    have hother : ∀ other ∈ byNumber.map Prod.fst, other ≠ number := by
      rintro other hin rfl
      exact hnodup.1 hin
    have hlettersRest : ∀ row ∈ byNumber, ∃ group, next.Letters row.1 group ∧
        oldestFirst row.2 = group.reverse := by
      intro row hrow
      obtain ⟨group, hgroup, hsorted⟩ := hletters row (List.mem_cons_of_mem _ hrow)
      exact ⟨group, hgroup.congr (hkept.others row.1 (hother _ (List.mem_map_of_mem hrow))), hsorted⟩
    obtain ⟨hsurvive, parts, hparts, hyields⟩ := ih hlettersRest hnodup.2 hlater
    refine ⟨?_, opened :: parts, ?_, .cons ⟨readers, hserves, hcontent, hlength, hnumber⟩ ?_⟩
    · intro fileName file hfile
      refine (hkept.survive hserves hnodup.1 hsurvive fileName file hfile).imp_right
        (Or.imp_left ?_)
      rintro ⟨name, served, hparse, hmem, hrest⟩
      exact ⟨name, served, hparse, List.mem_cons.mpr hmem, hrest⟩
    · rw [hparts, List.flatten_cons]
    · have hboth := (List.forall₂_and_left _ _).mpr ⟨hother, hyields⟩
      refine hboth.imp ?_
      rintro other part ⟨hne, served, hserved, hrest⟩
      exact ⟨served, hserved.congr (hkept.others other hne).symm, hrest⟩

/-- A directory that opens for writing yields, number by number, what it serves. -/
theorem initializeArchivesForWriting_ok {listing : List String}
    (hlisted : directory.ListedAs listing)
    (h : initializeArchivesForWriting environment directory listing = .ok (last, archives)) :
    FilesSurvive Set.univ directory last ∧
      ∀ number, YieldsForWriting directory number (readersOf archives number) := by
  rw [initializeArchivesForWriting] at h
  obtain ⟨groups, hgroups, h⟩ := bind_ok_iff.mp h
  obtain ⟨⟨after, opened⟩, hopened, heq⟩ := bind_ok_iff.mp h
  cases heq
  obtain ⟨hclaims, -⟩ := group_ok_iff.mp hgroups
  have hdistinct := (Directory.distinct_iff hlisted).mp hclaims
  have hrows : (namesByNumber (listArchiveFileNames listing)).rows =
      (((archiveNames listing).map archiveNumber).toFinset.sort (· ≤ ·)).map
        fun number => (number, (archiveNames listing).filter
          fun name => name.archiveNumber = number) :=
    Finmap.rows_of_lookup (lookup_namesByNumber _)
  have hkeys : (namesByNumber (listArchiveFileNames listing)).rows.map Prod.fst =
      ((archiveNames listing).map archiveNumber).toFinset.sort (· ≤ ·) := by
    rw [hrows, List.map_map]
    exact List.map_id _
  have hletters : ∀ row ∈ (namesByNumber (listArchiveFileNames listing)).rows,
      ∃ group, directory.Letters row.1 group ∧ oldestFirst row.2 = group.reverse := by
    intro row hrow
    rw [hrows] at hrow
    obtain ⟨number, -, rfl⟩ := mem_map.mp hrow
    exact ⟨_, Directory.letters_lettersOf hlisted hdistinct number, oldestFirst_eq number hclaims⟩
  obtain ⟨hsurvive, parts, rfl, hyields⟩ := openArchiveNumbersForWriting_ok hletters
    (by rw [hkeys]; exact Finset.sort_nodup ..) hopened
  refine ⟨fun fileName file hfile => ?_, fun number => ?_⟩
  · refine (hsurvive fileName file hfile).imp_right (Or.imp_left ?_)
    rintro ⟨name, served, hparse, -, hrest⟩
    exact ⟨name, served, hparse, Set.mem_univ _, hrest⟩
  · have hreaders := Directory.readersOf_flatten hyields
      (fun own part hpart reader hreader => hpart.choose_spec.2.2.2 reader hreader)
      (by rw [hkeys]; exact Finset.sort_nodup ..) number
    have hreverse : readersOf parts.flatten.reverse number =
        (readersOf parts.flatten number).reverse := List.filter_reverse ..
    rw [hreverse]
    by_cases hmem : number ∈ (namesByNumber (listArchiveFileNames listing)).rows.map Prod.fst
    · obtain ⟨readers, hserves, hcontent, hlength, hnumber⟩ := hreaders.2 hmem
      have hshort : (readersOf parts.flatten number).reverse = readersOf parts.flatten number := by
        match readersOf parts.flatten number, hlength with
        | [], _ => rfl
        | [_], _ => rfl
      rw [hshort]
      exact ⟨readers, hserves, hcontent, hlength, hnumber⟩
    · rw [hreaders.1 hmem]
      rw [hkeys, Finset.mem_sort, List.mem_toFinset] at hmem
      refine ⟨[], ⟨[], ⟨List.Pairwise.nil, fun name => ?_⟩, rfl⟩, ⟨fun _ => rfl, fun _ => rfl, ?_⟩,
        Nat.zero_le _, ?_⟩
      · refine iff_of_false List.not_mem_nil ?_
        rintro ⟨hparse, hin, hnumber⟩
        exact hmem (mem_map.mpr
          ⟨name, (Directory.mem_archiveNames hlisted).mpr ⟨hparse, hin⟩, hnumber⟩)
      · rintro ⟨reader, hreader, -⟩
        cases hreader
      · intro archive harchive
        cases harchive

end

/-- **One selection of generations.**  Deleting the stale archives of an open directory
leaves every number the archives it served.  Opening a directory for writing, when that
does not fail, yields for every number the map from identifiers to bytes that the directory
serves for reading: the same archive where that has a valid index, and one rebuilt archive
with the content of the recovered letters where it has none.  The only letters deleted are
ones that are not served. -/
theorem one_selection_of_generations {directory : Directory} {listing : List String}
    (hlisted : directory.ListedAs listing) :
    (∀ readers listing' stale warnings, directory.openArchives listing = .ok readers →
      directory.ListedAs listing' →
      planStaleArchives directory listing' readers = .ok (stale, warnings) →
      ∃ kept, (∀ listing'', (directory.without (staleNames stale)).ListedAs listing'' →
          (directory.without (staleNames stale)).openArchives listing'' = .ok kept) ∧
        ∀ number, readersOf kept number = readersOf readers number) ∧
    ∀ environment last archives,
      initializeArchivesForWriting environment directory listing = .ok (last, archives) →
      ∃ readers, directory.openArchives listing = .ok readers ∧
        (∀ number, SameContent (readersOf readers number) (readersOf archives number)) ∧
        FilesSurvive Set.univ directory last := by
  refine ⟨?_, ?_⟩
  · intro readers listing' stale warnings hopen hlisted' hplan
    exact Directory.openArchives_of_serves fun number =>
      serves_without_stale hlisted hopen hlisted' hplan number
  · intro environment last archives hwrite
    obtain ⟨hsurvive, hyields⟩ := initializeArchivesForWriting_ok hlisted hwrite
    choose parts hserves hcontent _ _ using hyields
    obtain ⟨readers, hopens, hparts⟩ := Directory.openArchives_of_serves hserves
    refine ⟨readers, hopens listing hlisted, fun number => ?_, hsurvive⟩
    rw [hparts]
    exact hcontent number

/-! ## Two damaged letters and an empty one -/

/-- The bulk segment that both damaged letters hold. -/
def damagedBulk (byte : UInt8) : SegmentWrite :=
  ⟨0, ⟨2, 0xB000000000000000⟩, [byte], ⟨0, 0, false⟩, [], []⟩

/-- Two letters of one number without trailers, and an empty file. -/
def damagedDirectory : Directory :=
  Finmap.insert "data00000a.tar" (.readable (bodyBytes [damagedBulk 1]))
    (Finmap.insert "data00000b.tar" (.readable (bodyBytes [damagedBulk 2]))
      (Finmap.singleton "data00000c.tar" (.readable [])))

def damagedListing : List String := ["data00000a.tar", "data00000b.tar", "data00000c.tar"]

def damagedLetters : List ArchiveFileName :=
  [⟨"data00000a.tar", 0, 97⟩, ⟨"data00000b.tar", 0, 98⟩, ⟨"data00000c.tar", 0, 99⟩]

/-- The merged letters are rebuilt. -/
theorem exists_rebuilt_damaged : ∃ file, rebuildArchive "data00000a.tar" (fun _ => 0) ⟨0, 0, 0⟩
    [((damagedBulk 2).identifier, (damagedBulk 2).content)] = .ok file := by
  have hwrites : recoveryWrites "data00000a.tar" (fun _ => 0)
      [((damagedBulk 2).identifier, (damagedBulk 2).content)] = .ok [damagedBulk 2] := rfl
  obtain ⟨writer, hrun, hrep, hfile, -⟩ := exists_writer ("data00000a.tar" ++ ".recovering")
    [damagedBulk 2] (by simp) (by decide)
  obtain ⟨file, hclose⟩ : ∃ file, writer.close ⟨0, 0, 0⟩ = some file := by
    rw [close, hfile]
    exact ⟨_, rfl⟩
  obtain ⟨archive, index, hopen, hindex, -⟩ := @roundTrips_of_length _
    ("data00000a.tar" ++ ".recovering") _ writer ⟨0, 0, 0⟩ hrep (by decide) (by decide) (by decide)
    (by decide)
  rw [← (hrep.close_eq hclose).2] at hopen
  have hreplacement : writeReplacement ("data00000a.tar" ++ ".recovering") ⟨0, 0, 0⟩
      [damagedBulk 2] = .ok file := by
    refine bind_ok_iff.mpr ⟨writer, hrun, ?_⟩
    rw [hclose]
    rfl
  refine ⟨file, ?_⟩
  rw [rebuildArchive]
  refine bind_ok_iff.mpr ⟨_, hwrites, bind_ok_iff.mpr ⟨file, hreplacement,
    bind_ok_iff.mpr ⟨archive, hopen, ?_⟩⟩⟩
  rw [exists_index.mpr ⟨index, hindex⟩, if_neg Bool.false_ne_true]
  rfl

theorem length_damaged (byte : UInt8) : (bodyBytes [damagedBulk byte]).length = 1024 := by
  rw [length_bodyBytes_cons, length_entryBytes]
  exact (rfl : 512 + blocks 1 + 0 = 1024)

theorem damaged_ne_nil (byte : UInt8) : bodyBytes [damagedBulk byte] ≠ [] := by
  intro h
  have hlength := length_damaged byte
  rw [h] at hlength
  cases hlength

theorem lookup_damagedDirectory :
    damagedDirectory.lookup "data00000a.tar" = some (.readable (bodyBytes [damagedBulk 1])) ∧
      damagedDirectory.lookup "data00000b.tar" = some (.readable (bodyBytes [damagedBulk 2])) ∧
      damagedDirectory.lookup "data00000c.tar" = some (.readable []) := by
  refine ⟨lookup_insert _, ?_, ?_⟩
  · rw [damagedDirectory, lookup_insert_of_ne _ (by decide), lookup_insert]
  · rw [damagedDirectory, lookup_insert_of_ne _ (by decide),
      lookup_insert_of_ne _ (by decide), Finmap.lookup_singleton_eq]

theorem damagedDirectory_listedAs : damagedDirectory.ListedAs damagedListing := by
  refine ⟨by decide, fun name => ?_⟩
  rw [damagedDirectory, Finmap.mem_insert, Finmap.mem_insert, Finmap.mem_singleton]
  simp only [damagedListing, List.mem_cons, List.not_mem_nil, or_false]

theorem isEmptyFile_damagedDirectory :
    damagedDirectory.isEmptyFile "data00000a.tar" = false ∧
      damagedDirectory.isEmptyFile "data00000b.tar" = false ∧
      damagedDirectory.isEmptyFile "data00000c.tar" = true := by
  obtain ⟨hfirst, hsecond, hthird⟩ := lookup_damagedDirectory
  refine ⟨?_, ?_, ?_⟩
  · rw [isEmptyFile, hfirst]
    exact decide_eq_false fun h => damaged_ne_nil 1 (List.length_eq_zero_iff.mp h)
  · rw [isEmptyFile, hsecond]
    exact decide_eq_false fun h => damaged_ne_nil 2 (List.length_eq_zero_iff.mp h)
  · rw [isEmptyFile, hthird]
    rfl

/-- The damaged letters are opened by the recovery scan. -/
theorem openArchive_damagedDirectory : ∃ first second,
    damagedDirectory.openArchive "data00000a.tar" = .ok first ∧ first.isRecovered = true ∧
      damagedDirectory.openArchive "data00000b.tar" = .ok second ∧ second.isRecovered = true := by
  obtain ⟨hfirst, hsecond, -⟩ := lookup_damagedDirectory
  have hshort : ∀ byte, (bodyBytes [damagedBulk byte]).length < 3072 := fun byte =>
    (length_damaged byte).trans_lt (Nat.lt_of_sub_ne_zero (Nat.succ_ne_zero 2047))
  obtain ⟨reason, hopenFirst⟩ := openFile_short "data00000a.tar" (hshort 1) (damaged_ne_nil 1)
  obtain ⟨reason', hopenSecond⟩ := openFile_short "data00000b.tar" (hshort 2) (damaged_ne_nil 2)
  rw [openArchive, hfirst, openArchive, hsecond]
  exact ⟨_, _, hopenFirst, rfl, hopenSecond, rfl⟩

/-- The empty letter is all that is stale. -/
theorem planStaleArchives_damagedDirectory
    (hfrom : OpenedFrom damagedDirectory readers) : ∃ stale warnings,
    planStaleArchives damagedDirectory damagedListing readers = .ok (stale, warnings) ∧
      staleNames stale = ["data00000c.tar"] := by
  obtain ⟨hfirst, hsecond, hthird⟩ := lookup_damagedDirectory
  obtain ⟨first, second, hreadFirst, hrecovered, hreadSecond, hrecovered'⟩ :=
    openArchive_damagedDirectory
  have hgroups : groupFileGenerationsNewestFirst
      (damagedListing.filter fun name => (parse name).isSome) = .ok [damagedLetters.reverse] :=
    group_ok_iff.mpr ⟨by decide +kernel, by decide +kernel⟩
  have hlengths : fileLength damagedDirectory "data00000a.tar" = .ok 1024 ∧
      fileLength damagedDirectory "data00000b.tar" = .ok 1024 ∧
      fileLength damagedDirectory "data00000c.tar" = .ok 0 := by
    rw [fileLength, hfirst, fileLength, hsecond, fileLength, hthird]
    exact ⟨congrArg Except.ok (length_damaged 1), congrArg Except.ok (length_damaged 2), rfl⟩
  have hactive : findActiveLetter damagedDirectory readers damagedLetters.reverse =
      .ok .noneIndexed := by
    simp [damagedLetters, findActiveLetter, hlengths, archiveReaderForLetter_eq hfrom,
      hreadFirst, hreadSecond, Except.toOption, hrecovered, hrecovered']
  obtain ⟨warnings, hgroup⟩ : ∃ warnings,
      planStaleGroup damagedDirectory readers damagedLetters.reverse =
        .ok ([⟨"data00000c.tar", .emptyIncomplete, 0⟩], warnings) := by
    refine ⟨_, bind_ok_iff.mpr ⟨_, hactive, bind_ok_iff.mpr
      ⟨[0, 1024, 1024], ?_, rfl⟩⟩⟩
    rw [Except.mapM_ok_iff]
    exact .cons hlengths.2.2 (.cons hlengths.2.1 (.cons hlengths.1 .nil))
  have hplans : [damagedLetters.reverse].mapM (planStaleGroup damagedDirectory readers) =
      .ok [([⟨"data00000c.tar", .emptyIncomplete, 0⟩], warnings)] :=
    Except.mapM_ok_iff.mpr (.cons hgroup .nil)
  exact ⟨_, _, bind_ok_iff.mpr ⟨_, hgroups, bind_ok_iff.mpr ⟨_, hplans, rfl⟩⟩, rfl⟩

theorem oldestFirst_damagedLetters : oldestFirst damagedLetters = damagedLetters := by
  decide +kernel

/-- Nothing is indexed, and the merged letters have the bytes of the newer one. -/
theorem scan_damagedDirectory :
    damagedDirectory.selectWritableGeneration damagedLetters = (none, true) ∧
      scanRecoverableSegments (damagedLetters.map damagedDirectory.letter) =
        [((damagedBulk 2).identifier, (damagedBulk 2).content)] ∧
      damagedDirectory.installTargetName damagedLetters = "data00000a.tar" := by
  obtain ⟨hfirst, hsecond, hthird⟩ := lookup_damagedDirectory
  obtain ⟨first, second, hreadFirst, hrecovered, hreadSecond, hrecovered'⟩ :=
    openArchive_damagedDirectory
  refine ⟨?_, ?_, ?_⟩
  · simp [Directory.selectWritableGeneration, damagedLetters, Directory.probeWritable,
      isEmptyFile_damagedDirectory, hreadFirst, hreadSecond, hrecovered, hrecovered']
  · have hletters : damagedLetters.map damagedDirectory.letter =
        [⟨"data00000a.tar", 0, bodyBytes [damagedBulk 1]⟩,
          ⟨"data00000b.tar", 0, bodyBytes [damagedBulk 2]⟩, ⟨"data00000c.tar", 0, []⟩] := by
      simp [damagedLetters, Directory.letter, hfirst, hsecond, hthird]
    rw [hletters, scanRecoverableSegments, List.flatMap_cons, List.flatMap_cons, List.flatMap_cons,
      List.flatMap_nil, letterSegments_unclosed (by simp) (by decide) (by decide),
      letterSegments_unclosed (by simp) (by decide) (by decide)]
    decide
  · have hlong : (ArchiveFile.readable (bodyBytes [damagedBulk 1])).length ≠ 0 :=
      fun h => damaged_ne_nil 1 (List.length_eq_zero_iff.mp h)
    simp [damagedLetters, Directory.installTargetName, Directory.isNonemptyFile, hfirst, hlong]

/-- An environment that refuses nothing. -/
def quietEnvironment : WriteEnvironment := ⟨fun _ => none, fun _ _ => 0, fun _ => ⟨0, 0, 0⟩⟩

theorem exists_retired_damaged : ∃ retired, damagedLetters.foldlM
    (retireGeneration quietEnvironment "data00000a.tar")
    (damagedDirectory.erase ("data00000a.tar" ++ ".recovering")) = .ok retired := by
  refine exists_retired (fun operation => rfl) (by decide) fun name hname => ?_
  have hparses : ∀ name ∈ damagedLetters, parse name.fileName = some name := by decide +kernel
  have hstaging : ∀ name ∈ damagedLetters,
      name.fileName ≠ "data00000a.tar" ++ ".recovering" := by decide
  refine ⟨fun hbackup => ?_, ?_⟩
  · have hparse := hparses name hname
    rw [hbackup.parse] at hparse
    cases hparse
  · rw [lookup_erase_ne (hstaging name hname), ← Option.isSome_iff_exists,
      Finmap.lookup_isSome, ← damagedDirectory_listedAs.mem]
    exact List.mem_map_of_mem hname

/-- The damaged directory opens for writing with one archive. -/
theorem initializeArchivesForWriting_damaged : ∃ last archive,
    initializeArchivesForWriting quietEnvironment damagedDirectory damagedListing =
        .ok (last, [archive]) ∧
      servedSegment (readersOf [archive] 0) (damagedBulk 1).identifier = some [2] := by
  obtain ⟨hselect, hscan, htarget⟩ := scan_damagedDirectory
  obtain ⟨file, hfile⟩ := exists_rebuilt_damaged
  obtain ⟨archive, hopen, -, hserved⟩ := rebuildArchive_ok "data00000a.tar" hfile
    (List.nodup_singleton _)
  obtain ⟨retired, hretired⟩ := exists_retired_damaged
  have hrecover : recoverNumber quietEnvironment damagedDirectory damagedLetters =
      .ok (retired.insert "data00000a.tar" (.readable file), archive) := by
    rw [recoverNumber]
    dsimp only
    rw [hscan, htarget]
    refine (if_neg (by simp)).trans (bind_ok_iff.mpr ⟨(), rfl, bind_ok_iff.mpr
      ⟨file, hfile, bind_ok_iff.mpr ⟨(), rfl, bind_ok_iff.mpr ⟨(), rfl, ?_⟩⟩⟩⟩)
    rw [installRecoveredArchive]
    exact bind_ok_iff.mpr ⟨retired, hretired, bind_ok_iff.mpr ⟨(), rfl,
      bind_ok_iff.mpr ⟨(), rfl, bind_ok_iff.mpr ⟨archive, hopen, rfl⟩⟩⟩⟩
  have hclaims : ((parsedNames (listArchiveFileNames damagedListing)).map claim).Nodup := by
    decide +kernel
  have hrows : (namesByNumber (listArchiveFileNames damagedListing)).rows =
      [(0, damagedLetters)] :=
    (Finmap.rows_of_lookup (lookup_namesByNumber _)).trans (by decide +kernel)
  refine ⟨retired.insert "data00000a.tar" (.readable file), archive, ?_, ?_⟩
  · rw [initializeArchivesForWriting]
    refine bind_ok_iff.mpr ⟨_, group_ok_iff.mpr ⟨hclaims, rfl⟩, ?_⟩
    rw [hrows, openArchiveNumbersForWriting]
    refine bind_ok_iff.mpr ⟨(retired.insert "data00000a.tar" (.readable file), [archive]),
      ?_, rfl⟩
    refine bind_ok_iff.mpr
      ⟨(retired.insert "data00000a.tar" (.readable file), [archive]), ?_, rfl⟩
    rw [openNumberForWriting]
    dsimp only
    rw [oldestFirst_damagedLetters, hselect]
    exact bind_ok_iff.mpr ⟨_, hrecover, rfl⟩
  · have hnumber : archive.archiveNumber = some 0 := by
      have hparse : parse "data00000a.tar" = some ⟨"data00000a.tar", 0, 97⟩ := by decide +kernel
      rw [TarArchiveReader.archiveNumber, openFile_fileName hopen, hparse]
      rfl
    have hown : readersOf [archive] 0 = [archive] := by
      rw [readersOf, List.filter_singleton, hnumber]
      rfl
    rw [hown]
    exact (hserved _ _).mpr (List.mem_singleton_self _)

/-- The letters of number 0 are recovered into one archive with the bytes of the newer
letter, and the empty letter is stale. -/
theorem one_selection_of_generations_damaged :
    ∃ readers stale warnings kept last archives,
      damagedDirectory.openArchives damagedListing = .ok readers ∧
        planStaleArchives damagedDirectory damagedListing readers = .ok (stale, warnings) ∧
        staleNames stale = ["data00000c.tar"] ∧
        (∀ listing', (damagedDirectory.without (staleNames stale)).ListedAs listing' →
          (damagedDirectory.without (staleNames stale)).openArchives listing' = .ok kept) ∧
        readersOf kept 0 = readersOf readers 0 ∧
        initializeArchivesForWriting quietEnvironment damagedDirectory damagedListing =
          .ok (last, archives) ∧
        servedSegment (readersOf archives 0) (damagedBulk 1).identifier = some [2] ∧
        servedSegment (readersOf readers 0) (damagedBulk 1).identifier = some [2] := by
  have hlisted := damagedDirectory_listedAs
  obtain ⟨last, archive, hwrite, hserved⟩ := initializeArchivesForWriting_damaged
  obtain ⟨hplanning, hwriting⟩ := one_selection_of_generations hlisted
  obtain ⟨readers, hread, hsame, -⟩ := hwriting _ _ _ hwrite
  obtain ⟨stale, warnings, hplan, hstale⟩ := planStaleArchives_damagedDirectory
    fun archive harchive => Directory.openArchive_of_mem hlisted hread harchive
  obtain ⟨kept, hkept, hkeptSame⟩ := hplanning _ _ _ _ hread hlisted hplan
  refine ⟨readers, stale, warnings, kept, _, _, hread, hplan, hstale, hkept, hkeptSame 0, hwrite,
    hserved, ?_⟩
  rw [← (hsame 0).served, hserved]

end Froe
