import Froe.Tar.Archive
import Froe.Tar.FileName

/-!
# Opening the archives of a directory

Of each archive number the newest letter with a valid index is opened.  When no
letter has one, all letters that can be opened by the recovery scan are served,
newest first, and only when none can be opened is the first failure reported.
Empty files are passed over: a writer creates its next archive lazily.

`openArchives_ok_iff` splits the opening of a directory into its numbers.  Each number
depends on its own letters only (`Letters`), and not on the order of the listing.
-/

namespace Froe

open List (mem_append mem_cons mem_cons_self)

open ArchiveFileName

/-- A file of a store directory, as opening it finds it. -/
inductive ArchiveFile where
  | readable (bytes : Bytes)
  /-- The file has a length, but opening or mapping it fails. -/
  | unopenable (length : Nat) (error : Error)

/-- The length of a file. -/
def ArchiveFile.length : ArchiveFile → Nat
  | .readable bytes => bytes.length
  | .unopenable length _ => length

/-- The files of a store directory by name. -/
abbrev Directory := Finmap fun _ : String => ArchiveFile

/-- An order in which the file system may list the directory. -/
structure Directory.ListedAs (directory : Directory) (listing : List String) : Prop where
  nodup : listing.Nodup
  mem : ∀ name, name ∈ listing ↔ name ∈ directory

/-- The names ending in `.tar`. -/
def listArchiveFileNames (listing : List String) : List String :=
  listing.filter fun name => ".tar".utf8.isSuffixOf name.utf8

namespace Directory

variable (directory : Directory)

/-- Whether a file is empty. -/
def isEmptyFile (fileName : String) : Bool :=
  match directory.lookup fileName with
  | some file => file.length = 0
  | none => false

/-- Opens one archive file. -/
def openArchive (fileName : String) : Result TarArchiveReader :=
  match directory.lookup fileName with
  | none => .error (.inputOutput s!"{fileName}: No such file or directory")
  | some (.unopenable _ error) => .error error
  | some (.readable bytes) => TarArchiveReader.openFile fileName bytes

/-- Probes the letters of a number, newest first, with the recovered archives and the
first failure met so far. -/
def probeGenerations : List ArchiveFileName → List TarArchiveReader → Option Error →
    Result (List TarArchiveReader)
  | [], recovered, firstError =>
    if !recovered.isEmpty then .ok recovered
    else match firstError with
      | some error => .error error
      | none => .ok []
  | candidate :: older, recovered, firstError =>
    if directory.isEmptyFile candidate.fileName then probeGenerations older recovered firstError
    else match directory.openArchive candidate.fileName with
      | .ok reader =>
        if !reader.isRecovered then .ok [reader]
        else probeGenerations older (recovered ++ [reader]) firstError
      | .error error => probeGenerations older recovered (firstError.or (some error))

/-- Opens the newest usable file of a number. -/
def openGroup (group : List ArchiveFileName) : Result (List TarArchiveReader) :=
  directory.probeGenerations group [] none

/-- Opens all numbers. -/
def openArchiveGroups (groups : List (List ArchiveFileName)) : Result (List TarArchiveReader) :=
  return (← groups.mapM directory.openGroup).flatten

/-- Opens one archive per number: the highest letter with a valid index wins. -/
def openArchivesNewestValidFirst (fileNames : List String) : Result (List TarArchiveReader) := do
  directory.openArchiveGroups (← groupFileGenerationsNewestFirst fileNames)

/-- Opens the archives of a directory that lists its files in a given order. -/
def openArchives (listing : List String) : Result (List TarArchiveReader) :=
  directory.openArchivesNewestValidFirst (listArchiveFileNames listing)

end Directory

/-! ## What the opened archives serve -/

/-- The number in the name of an archive. -/
def TarArchiveReader.archiveNumber (reader : TarArchiveReader) : Option Nat :=
  (parse reader.fileName).map ArchiveFileName.archiveNumber

/-- The opened archives of one number, in probe order. -/
def readersOf (readers : List TarArchiveReader) (number : Nat) : List TarArchiveReader :=
  readers.filter fun reader => reader.archiveNumber = some number

/-- The bytes that the first archive with a segment serves. -/
def servedSegment (readers : List TarArchiveReader) (identifier : SegmentIdentifier) :
    Option Bytes := do
  let reader ← readers.find? fun reader => identifier ∈ reader.segmentIdentifiers
  reader.segmentData identifier

section

variable {fileName : String} {bytes : Bytes} {reader : TarArchiveReader}
  (h : TarArchiveReader.openFile fileName bytes = .ok reader)
include h

theorem TarArchiveReader.openFile_fileName :
    reader.fileName = fileName := by
  rw [openFile] at h
  split at h
  · exact absurd h invalid_ne_ok
  split at h
  · cases h
    rfl
  · cases h
    rfl

theorem TarArchiveReader.openFile_bytes :
    reader.bytes = bytes := by
  rw [openFile] at h
  split at h
  · exact absurd h invalid_ne_ok
  split at h
  · cases h
    rfl
  · cases h
    rfl

end

theorem exists_index {reader : TarArchiveReader} :
    reader.isRecovered = false ↔ ∃ index, reader.index = some index := by
  cases hcontent : reader.content with
  | indexed index => simp [TarArchiveReader.isRecovered, TarArchiveReader.index, hcontent]
  | recovered reason entries =>
    simp [TarArchiveReader.isRecovered, TarArchiveReader.index, hcontent]

theorem segmentIdentifiers_of_index {reader : TarArchiveReader} {index : SegmentIndex}
    (h : reader.index = some index) :
    reader.segmentIdentifiers = index.entries.map SegmentIndexEntry.segmentIdentifier := by
  rw [TarArchiveReader.index] at h
  rw [TarArchiveReader.segmentIdentifiers]
  split at h
  · cases h
    simp_all
  · cases h

theorem servedSegment_singleton (reader : TarArchiveReader) (identifier : SegmentIdentifier) :
    servedSegment [reader] identifier =
      if identifier ∈ reader.segmentIdentifiers then reader.segmentData identifier else none := by
  rw [servedSegment, List.find?_singleton]
  by_cases h : identifier ∈ reader.segmentIdentifiers
  · rw [if_pos (decide_eq_true h), if_pos h]
    rfl
  · rw [if_neg (by simpa using h), if_neg h]
    rfl

theorem servedSegment_cons (reader : TarArchiveReader) (readers : List TarArchiveReader)
    (identifier : SegmentIdentifier) :
    servedSegment (reader :: readers) identifier =
      if identifier ∈ reader.segmentIdentifiers then reader.segmentData identifier
      else servedSegment readers identifier := by
  rw [servedSegment, List.find?_cons]
  by_cases h : identifier ∈ reader.segmentIdentifiers
  · rw [decide_eq_true h, if_pos h]
    rfl
  · rw [decide_eq_false h, if_neg h]
    rfl

/-! ## Probing the letters of a number -/

namespace Directory

/-- A file that is opened through a valid index. -/
structure Indexed (directory : Directory) (fileName : String) (reader : TarArchiveReader) : Prop where
  nonempty : directory.isEmptyFile fileName = false
  opens : directory.openArchive fileName = .ok reader
  indexed : reader.isRecovered = false

/-- No letter of the group has a valid index. -/
def Indexless (directory : Directory) (group : List ArchiveFileName) : Prop :=
  ∀ name ∈ group, ∀ reader, ¬ directory.Indexed name.fileName reader

/-- The letters of a group that are opened by the recovery scan. -/
def recoveredArchives (directory : Directory) (group : List ArchiveFileName) :
    List TarArchiveReader :=
  group.filterMap fun name =>
    if directory.isEmptyFile name.fileName then none
    else (directory.openArchive name.fileName).toOption

/-- The failures of a group, in probe order. -/
def openFailures (directory : Directory) (group : List ArchiveFileName) : List Error :=
  group.filterMap fun name =>
    if directory.isEmptyFile name.fileName then none
    else match directory.openArchive name.fileName with
      | .ok _ => none
      | .error error => some error

section Probe

variable {directory : Directory} {group newer older : List ArchiveFileName}
  {recovered readers : List TarArchiveReader} {firstError : Option Error}
  {name : ArchiveFileName} {reader : TarArchiveReader}

/-- Letters without a valid index are collected. -/
theorem probeGenerations_indexless (h : directory.Indexless newer) (older : List ArchiveFileName)
    (recovered : List TarArchiveReader) (firstError : Option Error) :
    directory.probeGenerations (newer ++ older) recovered firstError =
      directory.probeGenerations older (recovered ++ directory.recoveredArchives newer)
        (firstError.or (directory.openFailures newer).head?) := by
  induction newer generalizing recovered firstError with
  | nil => simp [recoveredArchives, openFailures]
  | cons candidate newer ih =>
    have hrest : directory.Indexless newer := fun other hother =>
      h other (List.mem_cons_of_mem _ hother)
    rw [List.cons_append, probeGenerations, recoveredArchives, openFailures, List.filterMap_cons,
      List.filterMap_cons]
    cases hempty : directory.isEmptyFile candidate.fileName with
    | true =>
      rw [if_pos rfl, ih hrest]
      rfl
    | false =>
      rw [if_neg (by decide)]
      cases hopen : directory.openArchive candidate.fileName with
      | error error =>
        dsimp only
        rw [ih hrest, Option.or_assoc]
        rfl
      | ok reader =>
        have hrecovered : reader.isRecovered = true := by
          by_contra hindexed
          exact h candidate (mem_cons_self ..) reader
            ⟨hempty, hopen, Bool.eq_false_iff.mpr hindexed⟩
        simp only [hrecovered, Bool.not_true, Bool.false_eq_true, ↓reduceIte]
        rw [ih hrest, List.append_assoc]
        rfl

/-- The newest letter with a valid index wins. -/
theorem openGroup_indexed (hnewer : directory.Indexless newer)
    (h : directory.Indexed name.fileName reader) :
    directory.openGroup (newer ++ name :: older) = .ok [reader] := by
  rw [openGroup, probeGenerations_indexless hnewer, probeGenerations]
  simp only [h.nonempty, h.opens, h.indexed, Bool.false_eq_true, ↓reduceIte, Bool.not_false]

/-- Without a valid index the recovered letters are served. -/
theorem openGroup_indexless (h : directory.Indexless group) :
    directory.openGroup group =
      if directory.recoveredArchives group ≠ [] then .ok (directory.recoveredArchives group)
      else match (directory.openFailures group).head? with
        | some error => .error error
        | none => .ok [] := by
  have hprobe := probeGenerations_indexless h [] [] none
  rw [List.append_nil, List.nil_append, Option.none_or] at hprobe
  rw [openGroup, hprobe]
  cases directory.recoveredArchives group with
  | nil =>
    cases (directory.openFailures group).head? with
    | none => rfl
    | some error => rfl
  | cons reader readers =>
    cases (directory.openFailures group).head? with
    | none => rfl
    | some error => rfl

/-- A group either has a newest letter with a valid index or none. -/
theorem indexless_or_split (directory : Directory) (group : List ArchiveFileName) :
    directory.Indexless group ∨ ∃ newer name older reader, group = newer ++ name :: older ∧
      directory.Indexless newer ∧ directory.Indexed name.fileName reader := by
  induction group with
  | nil => exact .inl fun name hname => absurd hname List.not_mem_nil
  | cons name group ih =>
    by_cases hname : ∃ reader, directory.Indexed name.fileName reader
    · obtain ⟨reader, hreader⟩ := hname
      exact .inr ⟨[], name, group, reader, rfl, fun name hname => absurd hname List.not_mem_nil,
        hreader⟩
    · have hfirst : ∀ reader, ¬ directory.Indexed name.fileName reader :=
        fun reader hreader => hname ⟨reader, hreader⟩
      rcases ih with hnone | ⟨newer, winner, older, reader, rfl, hnewer, hreader⟩
      · exact .inl (List.forall_mem_cons.mpr ⟨hfirst, hnone⟩)
      · exact .inr ⟨name :: newer, winner, older, reader, rfl,
          List.forall_mem_cons.mpr ⟨hfirst, hnewer⟩, hreader⟩

theorem openArchive_fileName {fileName : String} (h : directory.openArchive fileName = .ok reader) :
    reader.fileName = fileName := by
  rw [openArchive] at h
  split at h
  · cases h
  · cases h
  · exact TarArchiveReader.openFile_fileName h

/-- What a group serves comes from its letters. -/
theorem fileName_of_openGroup (h : directory.openGroup group = .ok readers)
    (hreader : reader ∈ readers) : ∃ name ∈ group, directory.isEmptyFile name.fileName = false ∧
      directory.openArchive name.fileName = .ok reader := by
  rcases indexless_or_split directory group with hnone | ⟨newer, name, older, winner, rfl, hnewer,
      hwinner⟩
  · have hrecovered : readers = directory.recoveredArchives group := by
      rw [openGroup_indexless hnone] at h
      split at h
      · cases h
        rfl
      · rename_i hnil
        split at h
        · cases h
        · cases h
          exact (not_not.mp hnil).symm
    rw [hrecovered, recoveredArchives, List.mem_filterMap] at hreader
    obtain ⟨name, hname, hopen⟩ := hreader
    refine ⟨name, hname, ?_⟩
    split at hopen
    · cases hopen
    · rename_i hempty
      refine ⟨Bool.eq_false_iff.mpr hempty, ?_⟩
      cases hresult : directory.openArchive name.fileName with
      | error error =>
        rw [hresult] at hopen
        cases hopen
      | ok opened =>
        rw [hresult] at hopen
        cases hopen
        rfl
  · rw [openGroup_indexed hnewer hwinner] at h
    cases h
    cases List.mem_singleton.mp hreader
    exact ⟨name, by simp, hwinner.nonempty, hwinner.opens⟩

end Probe

/-! ## Opening number by number -/

/-- What a directory must have for one number. -/
structure Letters (directory : Directory) (number : Nat) (group : List ArchiveFileName) : Prop where
  newestFirst : NewestFirst group
  mem : ∀ name, name ∈ group ↔
    parse name.fileName = some name ∧ name.fileName ∈ directory ∧ name.archiveNumber = number

/-- No two names of the directory claim one number and letter. -/
def Distinct (directory : Directory) : Prop :=
  ∀ a b : ArchiveFileName, parse a.fileName = some a → parse b.fileName = some b →
    a.fileName ∈ directory → b.fileName ∈ directory → a.claim = b.claim → a = b

theorem Letters.unique {directory : Directory} {number : Nat} {group group' : List ArchiveFileName}
    (h : directory.Letters number group) (h' : directory.Letters number group') : group = group' :=
  h.newestFirst.eq_of_mem_iff h'.newestFirst fun name => (h.mem name).trans (h'.mem name).symm

section Listed

variable {directory : Directory} {listing listing' : List String} {number : Nat}
  {group : List ArchiveFileName} {readers : List TarArchiveReader}

/-- The archive names of a listing. -/
abbrev archiveNames (listing : List String) : List ArchiveFileName :=
  parsedNames (listArchiveFileNames listing)

theorem isSuffixOf_of_parse {fileName : String} {name : ArchiveFileName}
    (h : parse fileName = some name) : ".tar".utf8.isSuffixOf fileName.utf8 = true := by
  obtain ⟨-, -, -, hbytes⟩ := parse_eq_some_iff.mp h
  refine List.isSuffixOf_iff_suffix.mpr ?_
  rcases hbytes with hbytes | ⟨-, hbytes⟩
  · rw [hbytes]
    exact List.suffix_append ..
  · rw [hbytes]
    exact List.suffix_append ..

theorem archiveNames_eq (listing : List String) : archiveNames listing = parsedNames listing :=
  parsedNames_filter (fun _ _ => isSuffixOf_of_parse) listing

section

variable (h : directory.ListedAs listing)
include h

theorem mem_archiveNames {name : ArchiveFileName} :
    name ∈ archiveNames listing ↔ parse name.fileName = some name ∧ name.fileName ∈ directory := by
  rw [archiveNames, parsedNames, List.mem_filterMap]
  constructor
  · rintro ⟨fileName, hmem, hparse⟩
    obtain rfl := parse_fileName hparse
    exact ⟨hparse, (h.mem _).mp (List.mem_of_mem_filter hmem)⟩
  · rintro ⟨hparse, hmem⟩
    exact ⟨name.fileName, List.mem_filter.mpr ⟨(h.mem _).mpr hmem, isSuffixOf_of_parse hparse⟩,
      hparse⟩

theorem distinct_iff :
    ((archiveNames listing).map claim).Nodup ↔ directory.Distinct := by
  have hnodup : (archiveNames listing).Nodup := by
    refine List.Nodup.filterMap ?_ (h.nodup.filter _)
    intro a b name ha hb
    exact (parse_fileName ha).symm.trans (parse_fileName hb)
  rw [List.nodup_map_iff_inj_on hnodup]
  simp only [mem_archiveNames h]
  exact ⟨fun hinj a b ha hb hain hbin heq => hinj a ⟨ha, hain⟩ b ⟨hb, hbin⟩ heq,
    fun hinj a ha b hb heq => hinj a b ha.1 hb.1 ha.2 hb.2 heq⟩

theorem letters_lettersOf (hdistinct : directory.Distinct)
    (number : Nat) : directory.Letters number (lettersOf (archiveNames listing) number) where
  newestFirst := newestFirst_lettersOf number ((distinct_iff h).mpr hdistinct)
  mem name := by rw [mem_lettersOf, mem_archiveNames h, and_assoc]

/-- A directory opens when no two names claim the same and every number opens. -/
theorem openArchives_ok_iff :
    directory.openArchives listing = .ok readers ↔
      directory.Distinct ∧ ∃ parts, List.Forall₂ (fun number part =>
          directory.openGroup (lettersOf (archiveNames listing) number) = .ok part)
        (numbersNewestFirst (archiveNames listing)) parts ∧ readers = parts.flatten := by
  rw [openArchives, openArchivesNewestValidFirst, Except.bind_ok_iff, ← distinct_iff h]
  constructor
  · rintro ⟨groups, hgroups, hopen⟩
    obtain ⟨hnodup, rfl⟩ := group_ok_iff.mp hgroups
    obtain ⟨parts, hparts, heq⟩ := Except.bind_ok_iff.mp hopen
    rw [Except.mapM_ok_iff, List.forall₂_map_left_iff] at hparts
    exact ⟨hnodup, parts, hparts, (Except.pure_ok_iff.mp heq).symm⟩
  · rintro ⟨hnodup, parts, hparts, rfl⟩
    refine ⟨_, group_ok_iff.mpr ⟨hnodup, rfl⟩, Except.bind_ok_iff.mpr ⟨parts, ?_, rfl⟩⟩
    rw [Except.mapM_ok_iff, List.forall₂_map_left_iff]
    exact hparts

end

/-- Of archives opened number by number, those of one number are what it opened to. -/
theorem readersOf_flatten {R : Nat → List TarArchiveReader → Prop} {numbers : List Nat}
    {parts : List (List TarArchiveReader)} (hparts : List.Forall₂ R numbers parts)
    (hown : ∀ own part, R own part → ∀ reader ∈ part,
      TarArchiveReader.archiveNumber reader = some own)
    (hnodup : numbers.Nodup) (number : Nat) :
    (number ∉ numbers → readersOf parts.flatten number = []) ∧
      (number ∈ numbers → R number (readersOf parts.flatten number)) := by
  induction hparts with
  | nil => exact ⟨fun _ => rfl, fun h => absurd h List.not_mem_nil⟩
  | @cons own part numbers parts hpart _ ih =>
    obtain ⟨hnot, hrest⟩ := List.nodup_cons.mp hnodup
    obtain ⟨habsent, hpresent⟩ := ih hrest
    have happend : readersOf (part :: parts).flatten number =
        readersOf part number ++ readersOf parts.flatten number := by
      rw [List.flatten_cons, readersOf, List.filter_append]
      rfl
    rw [happend]
    by_cases hsame : own = number
    · subst hsame
      have hall : readersOf part own = part :=
        List.filter_eq_self.mpr fun reader hreader => decide_eq_true (hown own part hpart _ hreader)
      rw [hall, habsent hnot, List.append_nil]
      exact ⟨fun h => absurd (mem_cons_self ..) h, fun _ => hpart⟩
    · have hnone : readersOf part number = [] := by
        refine List.filter_eq_nil_iff.mpr fun reader hreader heq => hsame ?_
        rw [hown own part hpart reader hreader] at heq
        exact Option.some.inj (of_decide_eq_true heq)
      rw [hnone, List.nil_append, mem_cons, or_iff_right (Ne.symm hsame)]
      exact ⟨habsent, hpresent⟩

theorem archiveNumber_of_openGroup (hletters : directory.Letters number group)
    (hopen : directory.openGroup group = .ok readers) {reader : TarArchiveReader}
    (hreader : reader ∈ readers) : reader.archiveNumber = some number := by
  obtain ⟨name, hname, -, hresult⟩ := fileName_of_openGroup hopen hreader
  obtain ⟨hparse, -, hnumber⟩ := (hletters.mem name).mp hname
  rw [TarArchiveReader.archiveNumber, openArchive_fileName hresult, hparse, Option.map_some,
    hnumber]

/-- What an open directory serves for a number is what the letters of the number open to. -/
theorem openGroup_of_openArchives (h : directory.ListedAs listing)
    (hopen : directory.openArchives listing = .ok readers)
    (hletters : directory.Letters number group) :
    directory.openGroup group = .ok (readersOf readers number) := by
  obtain ⟨hdistinct, parts, hparts, rfl⟩ := (openArchives_ok_iff h).mp hopen
  have hown := fun own part (hpart : directory.openGroup
      (lettersOf (archiveNames listing) own) = .ok part) reader (hreader : reader ∈ part) =>
    archiveNumber_of_openGroup (letters_lettersOf h hdistinct own) hpart hreader
  obtain ⟨habsent, hpresent⟩ := readersOf_flatten hparts hown (nodup_numbersNewestFirst _) number
  rw [hletters.unique (letters_lettersOf h hdistinct number)]
  by_cases hmem : number ∈ numbersNewestFirst (archiveNames listing)
  · exact hpresent hmem
  · have hnone : lettersOf (archiveNames listing) number = [] := by
      refine List.eq_nil_iff_forall_not_mem.mpr ?_
      intro name hname
      exact hmem (mem_numbersNewestFirst.mpr ⟨name, mem_lettersOf.mp hname⟩)
    rw [hnone, habsent hmem]
    rfl

/-- A directory opens, in one order, however its files are listed, when no two names claim
the same and the letters of every number open. -/
theorem exists_openArchives (hdistinct : directory.Distinct)
    (hgroups : ∀ number group, directory.Letters number group →
      ∃ part, directory.openGroup group = .ok part) :
    ∃ readers, ∀ listing, directory.ListedAs listing →
      directory.openArchives listing = .ok readers := by
  have hopens : ∀ listing, directory.ListedAs listing → ∃ readers,
      directory.openArchives listing = .ok readers := by
    intro listing h
    have hmapM : ∀ numbers : List Nat, ∃ parts, List.Forall₂ (fun number part =>
        directory.openGroup (lettersOf (archiveNames listing) number) = .ok part)
        numbers parts := by
      intro numbers
      induction numbers with
      | nil => exact ⟨[], .nil⟩
      | cons number numbers ih =>
        obtain ⟨parts, hparts⟩ := ih
        obtain ⟨part, hpart⟩ := hgroups number _ (letters_lettersOf h hdistinct number)
        exact ⟨part :: parts, .cons hpart hparts⟩
    obtain ⟨parts, hparts⟩ := hmapM (numbersNewestFirst (archiveNames listing))
    exact ⟨parts.flatten, (openArchives_ok_iff h).mpr ⟨hdistinct, parts, hparts, rfl⟩⟩
  by_cases hlisted : ∃ listing, directory.ListedAs listing
  · obtain ⟨listing, h⟩ := hlisted
    obtain ⟨readers, hopen⟩ := hopens listing h
    refine ⟨readers, fun listing' h' => ?_⟩
    obtain ⟨-, parts, hparts, rfl⟩ := (openArchives_ok_iff h).mp hopen
    refine (openArchives_ok_iff h').mpr ⟨hdistinct, parts, ?_, rfl⟩
    -- the numbers and the letters of each are the same in both listings
    have hnames : ((archiveNames listing).map ArchiveFileName.archiveNumber).toFinset =
        ((archiveNames listing').map ArchiveFileName.archiveNumber).toFinset := by
      ext number
      simp only [List.mem_toFinset, List.mem_map, mem_archiveNames h, mem_archiveNames h']
    have hletters : ∀ number, lettersOf (archiveNames listing) number =
        lettersOf (archiveNames listing') number := fun number =>
      (letters_lettersOf h hdistinct number).unique (letters_lettersOf h' hdistinct number)
    simp only [numbersNewestFirst, hnames, hletters] at hparts
    exact hparts
  · exact ⟨[], fun listing h => absurd ⟨listing, h⟩ hlisted⟩

end Listed

/-! ## What a number serves -/

/-- The letters of a number open to these archives. -/
def Serves (directory : Directory) (number : Nat) (readers : List TarArchiveReader) : Prop :=
  ∃ group, directory.Letters number group ∧ directory.openGroup group = .ok readers

/-- Two directories agree on the files of an archive number. -/
def AgreeOn (directory directory' : Directory) (number : Nat) : Prop :=
  ∀ name : ArchiveFileName, parse name.fileName = some name → name.archiveNumber = number →
    directory.lookup name.fileName = directory'.lookup name.fileName

section Serves

variable {directory directory' : Directory} {number : Nat} {group : List ArchiveFileName}
  {readers readers' : List TarArchiveReader}

theorem Serves.unique (h : directory.Serves number readers) (h' : directory.Serves number readers') :
    readers = readers' := by
  obtain ⟨group, hletters, hopen⟩ := h
  obtain ⟨group', hletters', hopen'⟩ := h'
  rw [hletters.unique hletters', hopen'] at hopen
  exact (Except.ok.inj hopen).symm

theorem Serves.archiveNumber (h : directory.Serves number readers) {reader : TarArchiveReader}
    (hreader : reader ∈ readers) : reader.archiveNumber = some number := by
  obtain ⟨group, hletters, hopen⟩ := h
  exact archiveNumber_of_openGroup hletters hopen hreader

section

variable {listing : List String} (h : directory.ListedAs listing)
  (hopen : directory.openArchives listing = .ok readers)
include h hopen

theorem serves_of_openArchives (number : Nat) :
    directory.Serves number (readersOf readers number) := by
  have hdistinct := ((openArchives_ok_iff h).mp hopen).1
  have hletters := letters_lettersOf h hdistinct number
  exact ⟨_, hletters, openGroup_of_openArchives h hopen hletters⟩

theorem openArchive_of_mem {reader : TarArchiveReader}
    (hreader : reader ∈ readers) : directory.openArchive reader.fileName = .ok reader := by
  obtain ⟨hdistinct, parts, hparts, rfl⟩ := (openArchives_ok_iff h).mp hopen
  obtain ⟨part, hpart, hin⟩ := List.mem_flatten.mp hreader
  obtain ⟨i, hi, rfl⟩ := List.mem_iff_getElem.mp hpart
  obtain ⟨hlength, hgroup⟩ := List.forall₂_iff_get.mp hparts
  obtain ⟨name, -, -, hresult⟩ := fileName_of_openGroup (hgroup i (hlength ▸ hi) hi) hin
  rw [openArchive_fileName hresult]
  exact hresult

/-- An opened archive has an archive name. -/
theorem exists_archiveNumber {reader : TarArchiveReader}
    (hreader : reader ∈ readers) : ∃ number, reader.archiveNumber = some number := by
  obtain ⟨hdistinct, parts, hparts, rfl⟩ := (openArchives_ok_iff h).mp hopen
  obtain ⟨part, hpart, hin⟩ := List.mem_flatten.mp hreader
  obtain ⟨i, hi, rfl⟩ := List.mem_iff_getElem.mp hpart
  obtain ⟨hlength, hgroup⟩ := List.forall₂_iff_get.mp hparts
  exact ⟨_, archiveNumber_of_openGroup (letters_lettersOf h hdistinct _)
    (hgroup i (hlength ▸ hi) hi) hin⟩

end

theorem exists_listing (directory : Directory) : ∃ listing, directory.ListedAs listing :=
  ⟨directory.keys.toList, directory.keys.nodup_toList, fun name => by
    rw [Finset.mem_toList, Finmap.mem_keys]⟩

/-- A directory opens when each number serves something. -/
theorem openArchives_of_serves {parts : Nat → List TarArchiveReader}
    (h : ∀ number, directory.Serves number (parts number)) :
    ∃ readers, (∀ listing, directory.ListedAs listing →
        directory.openArchives listing = .ok readers) ∧
      ∀ number, readersOf readers number = parts number := by
  have hdistinct : directory.Distinct := by
    intro a b ha hb hain hbin hclaim
    obtain ⟨hnumber, hletter⟩ := Prod.mk.inj hclaim
    obtain ⟨group, hletters, -⟩ := h a.archiveNumber
    exact hletters.newestFirst.eq_of_letter ((hletters.mem a).mpr ⟨ha, hain, rfl⟩)
      ((hletters.mem b).mpr ⟨hb, hbin, hnumber.symm⟩) hletter
  obtain ⟨readers, hopens⟩ := exists_openArchives hdistinct fun number group hletters => by
    obtain ⟨group', hletters', hopen⟩ := h number
    exact ⟨_, hletters.unique hletters' ▸ hopen⟩
  obtain ⟨listing, hlisted⟩ := exists_listing directory
  exact ⟨readers, hopens, fun number =>
    (serves_of_openArchives hlisted (hopens listing hlisted) number).unique (h number)⟩

/-- Opening a group looks at its own files. -/
theorem openGroup_congr (h : ∀ name ∈ group,
    directory.lookup name.fileName = directory'.lookup name.fileName) :
    directory.openGroup group = directory'.openGroup group := by
  have hprobe : ∀ {group recovered firstError}, (∀ name ∈ group,
      directory.lookup name.fileName = directory'.lookup name.fileName) →
      directory.probeGenerations group recovered firstError =
        directory'.probeGenerations group recovered firstError := by
    intro group
    induction group with
    | nil => intro recovered firstError _; rfl
    | cons candidate older ih =>
      intro recovered firstError hsame
      have hfirst := hsame candidate (mem_cons_self ..)
      have hrest := fun name hname => hsame name (List.mem_cons_of_mem _ hname)
      rw [probeGenerations, probeGenerations, isEmptyFile, isEmptyFile, openArchive, openArchive,
        hfirst]
      simp only [ih hrest]
  exact hprobe h

section

variable (h : directory.AgreeOn directory' number)
include h

theorem AgreeOn.mem_iff {name : ArchiveFileName}
    (hparse : parse name.fileName = some name) (hnumber : name.archiveNumber = number) :
    name.fileName ∈ directory ↔ name.fileName ∈ directory' := by
  rw [← Finmap.lookup_isSome, ← Finmap.lookup_isSome, h name hparse hnumber]

theorem AgreeOn.mem_fileName {reader : TarArchiveReader}
    (hnumber : reader.archiveNumber = some number) :
    reader.fileName ∈ directory ↔ reader.fileName ∈ directory' := by
  obtain ⟨name, hparse, hname⟩ := Option.map_eq_some_iff.mp hnumber
  have hfileName := parse_fileName hparse
  rw [← hfileName] at hparse ⊢
  exact h.mem_iff hparse hname

theorem Letters.congr
    (hletters : directory.Letters number group) : directory'.Letters number group where
  newestFirst := hletters.newestFirst
  mem name := by
    rw [hletters.mem]
    constructor
    · rintro ⟨hparse, hmem, hnumber⟩
      exact ⟨hparse, (h.mem_iff hparse hnumber).mp hmem, hnumber⟩
    · rintro ⟨hparse, hmem, hnumber⟩
      exact ⟨hparse, (h.mem_iff hparse hnumber).mpr hmem, hnumber⟩

/-- What a number serves depends on its own files. -/
theorem Serves.congr
    (hserves : directory.Serves number readers) : directory'.Serves number readers := by
  obtain ⟨group, hletters, hopen⟩ := hserves
  refine ⟨group, hletters.congr h, ?_⟩
  rw [← hopen]
  refine (openGroup_congr fun name hname => ?_).symm
  obtain ⟨hparse, -, hnumber⟩ := (hletters.mem name).mp hname
  exact h name hparse hnumber

end

/-- An archive with a valid index is the only one its number serves, and stands behind
letters without one. -/
theorem Serves.winner (h : directory.Serves number readers) {reader : TarArchiveReader}
    (hreader : reader ∈ readers) (hindexed : reader.isRecovered = false) :
    readers = [reader] ∧ ∃ newer name older, directory.Letters number (newer ++ name :: older) ∧
      directory.Indexless newer ∧ directory.Indexed name.fileName reader := by
  obtain ⟨group, hletters, hopen⟩ := h
  obtain ⟨source, hsource, hempty, hresult⟩ := fileName_of_openGroup hopen hreader
  rcases indexless_or_split directory group with hnone | ⟨newer, name, older, winner, rfl, hnewer,
      hwinner⟩
  · exact absurd ⟨hempty, hresult, hindexed⟩ (hnone source hsource reader)
  · rw [openGroup_indexed hnewer hwinner] at hopen
    cases hopen
    cases List.mem_singleton.mp hreader
    exact ⟨rfl, newer, name, older, hletters, hnewer, hwinner⟩

end Serves

/-! ## Adding and removing a letter -/

section Letters

variable {directory : Directory} {number : Nat} {newer older : List ArchiveFileName}
  {name : ArchiveFileName}

/-- A file name has one parse. -/
theorem Letters.eq_of_fileName {group : List ArchiveFileName}
    (h : directory.Letters number group) {a b : ArchiveFileName} (ha : a ∈ group)
    (hb : parse b.fileName = some b) (heq : a.fileName = b.fileName) : a = b := by
  have hparse := ((h.mem a).mp ha).1
  rw [heq, hb] at hparse
  exact (Option.some.inj hparse).symm

/-- Removing a letter leaves the others. -/
theorem Letters.erase (h : directory.Letters number (newer ++ name :: older)) :
    Letters (directory.erase name.fileName) number (newer ++ older) where
  newestFirst := h.newestFirst.sublist (List.Sublist.append_left (List.sublist_cons_self ..) _)
  mem other := by
    have hname : parse name.fileName = some name := ((h.mem name).mp (by simp)).1
    obtain ⟨-, holder, hnewer⟩ := List.pairwise_append.mp h.newestFirst
    have hdistinct : name ∉ newer ++ older := by
      intro hin
      rcases mem_append.mp hin with hin | hin
      · exact lt_irrefl _ (hnewer name hin name (mem_cons_self ..))
      · exact lt_irrefl _ ((List.pairwise_cons.mp holder).1 name hin)
    have hrest : other ∈ newer ++ older ↔ other ∈ newer ++ name :: older ∧ other ≠ name := by
      rw [mem_append, mem_append, mem_cons]
      constructor
      · intro hin
        refine ⟨hin.imp_right Or.inr, ?_⟩
        rintro rfl
        exact hdistinct (mem_append.mpr hin)
      · rintro ⟨hin | heq | hin, hne⟩
        · exact .inl hin
        · exact absurd heq hne
        · exact .inr hin
    rw [hrest, Finmap.mem_erase]
    constructor
    · rintro ⟨hin, hne⟩
      obtain ⟨hparse, hmem, hnumber⟩ := (h.mem other).mp hin
      exact ⟨hparse, ⟨fun heq => hne (h.eq_of_fileName hin hname heq), hmem⟩, hnumber⟩
    · rintro ⟨hparse, ⟨hne, hmem⟩, hnumber⟩
      exact ⟨(h.mem other).mpr ⟨hparse, hmem, hnumber⟩, fun heq => hne (congrArg _ heq)⟩

/-- A new file takes its place among the letters of its number. -/
theorem Letters.insert (h : directory.Letters number (newer ++ older)) (file : ArchiveFile)
    (hparse : parse name.fileName = some name) (hnumber : name.archiveNumber = number)
    (hfree : name.fileName ∉ directory)
    (hnewer : ∀ other ∈ newer, name.fileGeneration < other.fileGeneration)
    (holder : ∀ other ∈ older, other.fileGeneration < name.fileGeneration) :
    Letters (directory.insert name.fileName file) number (newer ++ name :: older) where
  newestFirst := by
    obtain ⟨hfirst, hsecond, hcross⟩ := List.pairwise_append.mp h.newestFirst
    refine List.pairwise_append.mpr ⟨hfirst, List.pairwise_cons.mpr ⟨holder, hsecond⟩, ?_⟩
    intro a ha b hb
    rcases mem_cons.mp hb with rfl | hb
    · exact hnewer a ha
    · exact hcross a ha b hb
  mem other := by
    have hold := h.mem other
    rw [mem_append] at hold
    rw [mem_append, mem_cons, or_left_comm, hold, Finmap.mem_insert]
    constructor
    · rintro (rfl | ⟨hparseOther, hmem, hnum⟩)
      · exact ⟨hparse, .inl rfl, hnumber⟩
      · exact ⟨hparseOther, .inr hmem, hnum⟩
    · rintro ⟨hparseOther, heq | hmem, hnum⟩
      · rw [heq, hparse] at hparseOther
        exact .inl (Option.some.inj hparseOther).symm
      · exact .inr ⟨hparseOther, hmem, hnum⟩

theorem Indexless.congr {directory' : Directory} {group : List ArchiveFileName}
    (h : directory.Indexless group) (hsame : ∀ name ∈ group,
      directory'.lookup name.fileName = directory.lookup name.fileName) :
    directory'.Indexless group := by
  intro other hother found hfound
  refine h other hother found ⟨?_, ?_, hfound.indexed⟩
  · rw [← hfound.nonempty, isEmptyFile, isEmptyFile, hsame other hother]
  · rw [← hfound.opens, openArchive, openArchive, hsame other hother]

/-- A file that opens through its index is not empty. -/
theorem indexed_of_lookup {fileName : String} {bytes : Bytes} {reader : TarArchiveReader}
    (hfile : directory.lookup fileName = some (.readable bytes))
    (hopens : TarArchiveReader.openFile fileName bytes = .ok reader)
    (hindexed : reader.isRecovered = false) : directory.Indexed fileName reader where
  nonempty := by
    have hlong : bytes.length ≠ 0 := by
      intro hzero
      rw [TarArchiveReader.openFile, if_pos hzero] at hopens
      exact invalid_ne_ok hopens
    rw [isEmptyFile, hfile]
    exact decide_eq_false hlong
  opens := by
    rw [openArchive, hfile]
    exact hopens
  indexed := hindexed

end Letters

/-! ## Removing several files -/

/-- The directory after the files of a list were deleted. -/
def without (directory : Directory) (names : List String) : Directory :=
  names.foldl (fun rest name => rest.erase name) directory

theorem lookup_without (directory : Directory) (names : List String) (fileName : String) :
    (directory.without names).lookup fileName =
      if fileName ∈ names then none else directory.lookup fileName := by
  induction names generalizing directory with
  | nil => rw [if_neg List.not_mem_nil]; rfl
  | cons name names ih =>
    rw [without, List.foldl_cons]
    refine (ih _).trans ?_
    by_cases hlater : fileName ∈ names
    · rw [if_pos hlater, if_pos (List.mem_cons_of_mem _ hlater)]
    · rw [if_neg hlater]
      by_cases hsame : fileName = name
      · subst hsame
        rw [if_pos (mem_cons_self ..), Finmap.lookup_erase]
      · rw [Finmap.lookup_erase_ne hsame, if_neg]
        exact fun hmem => hlater (List.mem_of_ne_of_mem hsame hmem)

theorem mem_without {directory : Directory} {names : List String} {fileName : String} :
    fileName ∈ directory.without names ↔ fileName ∈ directory ∧ fileName ∉ names := by
  rw [← Finmap.lookup_isSome, ← Finmap.lookup_isSome, lookup_without]
  by_cases h : fileName ∈ names
  · simp [h]
  · simp [h]

/-- Deleting files takes their letters away. -/
theorem Letters.without {directory : Directory} {number : Nat} {group : List ArchiveFileName}
    (h : directory.Letters number group) (names : List String) :
    (directory.without names).Letters number (group.filter fun name => name.fileName ∉ names) where
  newestFirst := h.newestFirst.sublist List.filter_sublist
  mem name := by
    rw [List.mem_filter, h.mem, mem_without, decide_eq_true_eq]
    constructor
    · rintro ⟨⟨hparse, hmem, hnumber⟩, hkept⟩
      exact ⟨hparse, ⟨hmem, hkept⟩, hnumber⟩
    · rintro ⟨hparse, ⟨hmem, hkept⟩, hnumber⟩
      exact ⟨⟨hparse, hmem, hnumber⟩, hkept⟩

/-- Empty files have no part in what a group opens to. -/
theorem openGroup_filter_nonempty (directory : Directory) (group : List ArchiveFileName) :
    directory.openGroup (group.filter fun name => !directory.isEmptyFile name.fileName) =
      directory.openGroup group := by
  have hprobe : ∀ recovered firstError, directory.probeGenerations
      (group.filter fun name => !directory.isEmptyFile name.fileName) recovered firstError =
        directory.probeGenerations group recovered firstError := by
    induction group with
    | nil => intro recovered firstError; rfl
    | cons candidate older ih =>
      intro recovered firstError
      rw [List.filter_cons]
      cases hempty : directory.isEmptyFile candidate.fileName with
      | true =>
        rw [Bool.not_true, if_neg Bool.false_ne_true, ih, probeGenerations, if_pos hempty]
      | false =>
        rw [Bool.not_false, if_pos rfl, probeGenerations, probeGenerations, hempty]
        simp only [ih]
  exact hprobe [] none

end Directory

end Froe
