import Froe.Reclaim.Certificate
import Froe.Store.Directory

/-!
# Stale archives

The letters of a number that its active letter supersedes are stale, when the
active letter is certified.  Otherwise only the empty files of the number are.
Deleting what is stale leaves every number with the archives it served.
-/

namespace Froe

open List (mem_filter mem_map)
open Except (bind_ok_iff)

open ArchiveFileName

inductive StaleArchiveReason where
  | superseded
  | emptyIncomplete
deriving DecidableEq

/-- An archive that cleanup may delete. -/
structure StaleArchive where
  fileName : String
  reason : StaleArchiveReason
  bytes : Nat
deriving DecidableEq

/-- The segments of the opened archives of a store, the first archive of a segment first. -/
def repositoryProvider (archives : List TarArchiveReader) : SegmentProvider := fun identifier =>
  match servedSegment archives identifier with
  | none => .error (.segmentNotFound identifier)
  | some bytes => do return ⟨← ParsedSegment.parse identifier bytes, bytes⟩

/-- The archive of a letter: the one that is open already, or a fresh opening. -/
def archiveReaderForLetter (directory : Directory) (archives : List TarArchiveReader)
    (fileName : String) : Option TarArchiveReader :=
  (archives.find? fun archive => archive.fileName = fileName).or
    (directory.openArchive fileName).toOption

def fileLength (directory : Directory) (fileName : String) : Result Nat :=
  match directory.lookup fileName with
  | some file => .ok file.length
  | none => .error (.inputOutput s!"{fileName}: No such file or directory")

/-- The active letter of a number.  It is the winner when it is certified, and else the
reason why its number is left alone. -/
inductive ActiveLetter where
  | winner (fileName : String)
  | indexedButIncomplete (reason : String)
  | noneIndexed

/-- Finds the active letter of a number.  It never looks past the first letter with a
valid index. -/
def findActiveLetter (directory : Directory) (archives : List TarArchiveReader) :
    List ArchiveFileName → Result ActiveLetter
  | [] => .ok .noneIndexed
  | candidate :: older => do
    let length ← fileLength directory candidate.fileName
    if length = 0 then findActiveLetter directory archives older
    else match archiveReaderForLetter directory archives candidate.fileName with
      | none => findActiveLetter directory archives older
      | some reader =>
        if reader.isRecovered then findActiveLetter directory archives older
        else match certifyActiveArchive (repositoryProvider archives) reader with
          | .ok () => return .winner candidate.fileName
          | .error error => return (.indexedButIncomplete
              s!"active archive {candidate.fileName} has incomplete recovery metadata ({error.display})")

def supersededLetter (directory : Directory) (candidate : ArchiveFileName) : Result StaleArchive := do
  let bytes ← fileLength directory candidate.fileName
  return ⟨candidate.fileName, if bytes = 0 then .emptyIncomplete else .superseded, bytes⟩

/-- The warning about the files of a number that are left. -/
def preservationWarning (group : List ArchiveFileName) (nonempty : List String)
    (active : ActiveLetter) : String :=
  let number := (group.head?.map archiveNumber).getD 0
  let names := ", ".intercalate nonempty
  match active with
  | .indexedButIncomplete reason =>
    s!"{reason}; preserving every non-empty letter of archive number {number} as recovery evidence"
  | _ =>
    s!"archive number {number} has no valid indexed generation; preserving recoverable files {names}"

/-- The stale letters and the warnings of one number. -/
def planStaleGroup (directory : Directory) (archives : List TarArchiveReader)
    (group : List ArchiveFileName) : Result (List StaleArchive × List String) := do
  match ← findActiveLetter directory archives group with
  | .winner winner => do
    let stale ← (group.filter fun candidate => candidate.fileName ≠ winner).mapM
      (supersededLetter directory)
    return (stale, [])
  | active => do
    let lengths ← group.mapM fun candidate => fileLength directory candidate.fileName
    let sized := group.zip lengths
    let nonempty := (sized.filter fun row => row.2 ≠ 0).map fun row => row.1.fileName
    let stale := (sized.filter fun row => row.2 = 0).map fun row =>
      (⟨row.1.fileName, .emptyIncomplete, row.2⟩ : StaleArchive)
    return (stale, if nonempty.isEmpty then [] else [preservationWarning group nonempty active])

/-- Plans the removal of stale archives: what may be deleted, by name, and the warnings. -/
def planStaleArchives (directory : Directory) (listing : List String)
    (archives : List TarArchiveReader) : Result (List StaleArchive × List String) := do
  let names := listing.filter fun name => (parse name).isSome
  let groups ← groupFileGenerationsNewestFirst names
  let plans ← groups.mapM (planStaleGroup directory archives)
  return ((plans.flatMap Prod.fst).insertionSort fun left right => left.fileName ≤ right.fileName,
    plans.flatMap Prod.snd)

/-! ## What is stale -/

section Group

variable {directory : Directory} {archives : List TarArchiveReader} {group : List ArchiveFileName}

/-- The archive that is open for a letter is what opening its file gives. -/
def OpenedFrom (directory : Directory) (archives : List TarArchiveReader) : Prop :=
  ∀ archive ∈ archives, directory.openArchive archive.fileName = .ok archive

theorem archiveReaderForLetter_eq (h : OpenedFrom directory archives) (fileName : String) :
    archiveReaderForLetter directory archives fileName =
      (directory.openArchive fileName).toOption := by
  rw [archiveReaderForLetter]
  cases hfind : archives.find? fun archive => archive.fileName = fileName with
  | none => rfl
  | some archive =>
    have hmem := List.mem_of_find?_eq_some hfind
    have hname : archive.fileName = fileName := by simpa using List.find?_some hfind
    rw [← hname, h archive hmem]
    rfl

theorem fileLength_ok {fileName : String} {length : Nat}
    (h : fileLength directory fileName = .ok length) :
    directory.isEmptyFile fileName = decide (length = 0) := by
  rw [fileLength] at h
  rw [Directory.isEmptyFile]
  cases hfile : directory.lookup fileName with
  | none =>
    rw [hfile] at h
    cases h
  | some file =>
    rw [hfile] at h
    cases h
    rfl

/-- The winner is the newest letter with a valid index. -/
theorem findActiveLetter_winner (h : OpenedFrom directory archives) {winner : String}
    (hfind : findActiveLetter directory archives group = .ok (.winner winner)) :
    ∃ newer name older reader, group = newer ++ name :: older ∧ directory.Indexless newer ∧
      directory.Indexed name.fileName reader ∧ name.fileName = winner := by
  induction group with
  | nil => cases hfind
  | cons candidate older ih =>
    rw [findActiveLetter] at hfind
    obtain ⟨length, hlength, hfind⟩ := bind_ok_iff.mp hfind
    have hempty := fileLength_ok hlength
    have hlater : (∀ reader, ¬ directory.Indexed candidate.fileName reader) →
        findActiveLetter directory archives older = .ok (.winner winner) →
        ∃ newer name older' reader, candidate :: older = newer ++ name :: older' ∧
          directory.Indexless newer ∧ directory.Indexed name.fileName reader ∧
          name.fileName = winner := by
      intro hnot hrest
      obtain ⟨newer, name, older', reader, rfl, hnewer, hindexed, hname⟩ := ih hrest
      exact ⟨candidate :: newer, name, older', reader, rfl,
        List.forall_mem_cons.mpr ⟨hnot, hnewer⟩, hindexed, hname⟩
    split at hfind
    · rename_i hzero
      refine hlater (fun reader hreader => ?_) hfind
      rw [hreader.nonempty, decide_eq_true hzero] at hempty
      cases hempty
    · rename_i hlong
      rw [archiveReaderForLetter_eq h] at hfind
      cases hopen : directory.openArchive candidate.fileName with
      | error error =>
        rw [hopen] at hfind
        refine hlater (fun reader hreader => ?_) hfind
        rw [hreader.opens] at hopen
        cases hopen
      | ok reader =>
        rw [hopen] at hfind
        change (if reader.isRecovered = true then _ else _) = _ at hfind
        split at hfind
        · rename_i hrecovered
          refine hlater (fun other hother => ?_) hfind
          obtain rfl := Except.ok.inj (hopen.symm.trans hother.opens)
          rw [hother.indexed] at hrecovered
          cases hrecovered
        · rename_i hindexed
          split at hfind
          · cases hfind
            refine ⟨[], candidate, older, reader, rfl,
              fun name hname => absurd hname List.not_mem_nil, ⟨?_, hopen, ?_⟩, rfl⟩
            · rw [hempty]
              exact decide_eq_false hlong
            · exact Bool.eq_false_iff.mpr hindexed
          · cases hfind

/-- What is stale in a group: every letter but the winning one, or the empty files. -/
inductive StaleIn (directory : Directory) (group : List ArchiveFileName) (names : List String) :
    Prop where
  | superseded {newer older : List ArchiveFileName} {name : ArchiveFileName}
      {reader : TarArchiveReader} (split : group = newer ++ name :: older)
      (indexless : directory.Indexless newer) (indexed : directory.Indexed name.fileName reader)
      (mem : ∀ other ∈ group, other.fileName ∈ names ↔ other.fileName ≠ name.fileName)
  | empty (mem : ∀ other ∈ group, other.fileName ∈ names ↔
      directory.isEmptyFile other.fileName = true)

theorem StaleIn.congr {names names' : List String} (h : StaleIn directory group names)
    (hsame : ∀ other ∈ group, other.fileName ∈ names ↔ other.fileName ∈ names') :
    StaleIn directory group names' := by
  cases h with
  | superseded hsplit hnewer hindexed hmem =>
    exact .superseded hsplit hnewer hindexed fun other hin =>
      (hsame other hin).symm.trans (hmem other hin)
  | empty hmem => exact .empty fun other hin => (hsame other hin).symm.trans (hmem other hin)

theorem staleIn_of_planStaleGroup (h : OpenedFrom directory archives) {stale : List StaleArchive}
    {warnings : List String}
    (hplan : planStaleGroup directory archives group = .ok (stale, warnings)) :
    (∀ fileName ∈ stale.map StaleArchive.fileName, ∃ other ∈ group, other.fileName = fileName) ∧
      StaleIn directory group (stale.map StaleArchive.fileName) := by
  rw [planStaleGroup] at hplan
  obtain ⟨active, hactive, hplan⟩ := bind_ok_iff.mp hplan
  have hempties : ∀ {lengths : List Nat},
      (group.mapM fun candidate => fileLength directory candidate.fileName) = .ok lengths →
      ∀ fileName, fileName ∈ (((group.zip lengths).filter fun row => row.2 = 0).map fun row =>
        (⟨row.1.fileName, .emptyIncomplete, row.2⟩ : StaleArchive)).map StaleArchive.fileName ↔
        ∃ other ∈ group, other.fileName = fileName ∧
          directory.isEmptyFile other.fileName = true := by
    intro lengths hlengths fileName
    rw [Except.mapM_ok_iff] at hlengths
    rw [List.map_map, mem_map]
    constructor
    · rintro ⟨⟨other, length⟩, hrow, rfl⟩
      obtain ⟨hzip, hzero⟩ := mem_filter.mp hrow
      refine ⟨other, (List.of_mem_zip hzip).1, rfl, ?_⟩
      rw [fileLength_ok (List.forall₂_zip hlengths hzip)]
      exact hzero
    · rintro ⟨other, hother, rfl, hempty⟩
      obtain ⟨i, hi, rfl⟩ := List.mem_iff_getElem.mp hother
      have hlong : i < lengths.length := hlengths.length_eq ▸ hi
      have hzip : (group[i], lengths[i]) ∈ group.zip lengths := by
        rw [← List.getElem_zip]
        exact List.getElem_mem (by rw [List.length_zip]; omega)
      refine ⟨(group[i], lengths[i]), mem_filter.mpr ⟨hzip, ?_⟩, rfl⟩
      rw [fileLength_ok (List.forall₂_zip hlengths hzip)] at hempty
      exact hempty
  have hother : (∃ lengths, (group.mapM fun candidate => fileLength directory candidate.fileName) =
      .ok lengths ∧ stale = ((group.zip lengths).filter fun row => row.2 = 0).map fun row =>
        (⟨row.1.fileName, .emptyIncomplete, row.2⟩ : StaleArchive)) →
      (∀ fileName ∈ stale.map StaleArchive.fileName, ∃ other ∈ group, other.fileName = fileName) ∧
        StaleIn directory group (stale.map StaleArchive.fileName) := by
    rintro ⟨lengths, hlengths, rfl⟩
    refine ⟨fun fileName hmem => ?_, .empty fun other hin => ?_⟩
    · obtain ⟨other, hin, hname, -⟩ := (hempties hlengths fileName).mp hmem
      exact ⟨other, hin, hname⟩
    · rw [hempties hlengths]
      constructor
      · rintro ⟨found, -, hname, hempty⟩
        rw [← hname]
        exact hempty
      · intro hempty
        exact ⟨other, hin, rfl, hempty⟩
  cases active with
  | winner winner =>
    obtain ⟨found, hfound, heq⟩ := bind_ok_iff.mp hplan
    cases heq
    obtain ⟨newer, name, older, reader, hsplit, hnewer, hindexed, rfl⟩ :=
      findActiveLetter_winner h hactive
    have hnames : stale.map StaleArchive.fileName =
        (group.filter fun candidate => candidate.fileName ≠ name.fileName).map
          ArchiveFileName.fileName := by
      refine Except.mapM_ok_map hfound ?_
      intro candidate archive harchive
      obtain ⟨bytes, -, heq⟩ := bind_ok_iff.mp harchive
      cases heq
      rfl
    rw [hnames]
    refine ⟨fun fileName hmem => ?_, .superseded hsplit hnewer hindexed fun other hin => ?_⟩
    · obtain ⟨other, hin, rfl⟩ := mem_map.mp hmem
      exact ⟨other, List.mem_of_mem_filter hin, rfl⟩
    · constructor
      · intro hmem
        obtain ⟨found, hfound, hname⟩ := mem_map.mp hmem
        rw [← hname]
        exact of_decide_eq_true (mem_filter.mp hfound).2
      · intro hne
        exact List.mem_map_of_mem (mem_filter.mpr ⟨hin, decide_eq_true hne⟩)
  | indexedButIncomplete reason =>
    obtain ⟨lengths, hlengths, heq⟩ := bind_ok_iff.mp hplan
    cases heq
    exact hother ⟨lengths, hlengths, rfl⟩
  | noneIndexed =>
    obtain ⟨lengths, hlengths, heq⟩ := bind_ok_iff.mp hplan
    cases heq
    exact hother ⟨lengths, hlengths, rfl⟩

/-- Deleting what is stale in a group leaves its number serving the same archives. -/
theorem serves_without {number : Nat} {names : List String} {readers : List TarArchiveReader}
    (hserves : directory.Serves number readers) (hletters : directory.Letters number group)
    (h : StaleIn directory group names) : (directory.without names).Serves number readers := by
  obtain ⟨group', hletters', hopen⟩ := hserves
  obtain rfl := hletters.unique hletters'
  have hkept := hletters.without names
  cases h with
  | @superseded newer older name reader hsplit hnewer hindexed hmem =>
    have hname : name ∈ group := by rw [hsplit]; simp
    obtain ⟨hparse, -, -⟩ := (hletters.mem name).mp hname
    have hone : (group.filter fun other => other.fileName ∉ names) = [name] := by
      refine hkept.newestFirst.eq_of_mem_iff (List.pairwise_singleton _ _) fun other => ?_
      rw [mem_filter, List.mem_singleton, decide_eq_true_eq]
      constructor
      · rintro ⟨hin, hnot⟩
        exact hletters.eq_of_fileName hin hparse (not_not.mp fun hne => hnot ((hmem other hin).mpr hne))
      · rintro rfl
        exact ⟨hname, fun hin => (hmem other hname).mp hin rfl⟩
    rw [hone] at hkept
    have hlookup : (directory.without names).lookup name.fileName =
        directory.lookup name.fileName := by
      rw [Directory.lookup_without, if_neg fun hin => (hmem name hname).mp hin rfl]
    have hwinner : directory.openGroup (newer ++ name :: older) = .ok [reader] :=
      Directory.openGroup_indexed hnewer hindexed
    have halone : directory.openGroup ([] ++ name :: []) = .ok [reader] :=
      Directory.openGroup_indexed (fun other hin => absurd hin List.not_mem_nil) hindexed
    rw [← hsplit, hopen] at hwinner
    refine ⟨[name], hkept, ?_⟩
    rw [hwinner, ← halone]
    refine Directory.openGroup_congr fun other hin => ?_
    rw [List.mem_singleton.mp hin]
    exact hlookup
  | empty hmem =>
    refine ⟨_, hkept, ?_⟩
    have hfilter : (group.filter fun other => other.fileName ∉ names) =
        group.filter fun other => !directory.isEmptyFile other.fileName := by
      refine List.filter_congr fun other hin => ?_
      rw [Bool.eq_iff_iff, decide_eq_true_eq, hmem other hin, Bool.not_eq_true',
        Bool.not_eq_true]
    rw [← hopen, ← Directory.openGroup_filter_nonempty directory, ← hfilter]
    refine Directory.openGroup_congr fun other hin => ?_
    rw [Directory.lookup_without, if_neg (of_decide_eq_true (mem_filter.mp hin).2)]

end Group

/-- What is deleted of a plan. -/
def staleNames (stale : List StaleArchive) : List String := stale.map StaleArchive.fileName

/-- **Deleting the stale archives** leaves every number of an open directory serving the
archives it served. -/
theorem serves_without_stale {directory : Directory} {listing listing' : List String}
    {readers : List TarArchiveReader} {stale : List StaleArchive} {warnings : List String}
    (hlisted : directory.ListedAs listing) (hopen : directory.openArchives listing = .ok readers)
    (hlisted' : directory.ListedAs listing')
    (hplan : planStaleArchives directory listing' readers = .ok (stale, warnings)) (number : Nat) :
    (directory.without (staleNames stale)).Serves number (readersOf readers number) := by
  have hfrom : OpenedFrom directory readers := fun archive harchive =>
    Directory.openArchive_of_mem hlisted hopen harchive
  have hdistinct := ((Directory.openArchives_ok_iff hlisted).mp hopen).1
  have hnames : parsedNames (listing'.filter fun name => (parse name).isSome) =
      Directory.archiveNames listing' := by
    rw [Directory.archiveNames_eq]
    refine parsedNames_filter (fun fileName name hparse => ?_) listing'
    rw [hparse]
    rfl
  rw [planStaleArchives] at hplan
  obtain ⟨groups, hgroups, hplan⟩ := bind_ok_iff.mp hplan
  obtain ⟨plans, hplans, heq⟩ := bind_ok_iff.mp hplan
  cases heq
  obtain ⟨-, rfl⟩ := group_ok_iff.mp hgroups
  rw [hnames, Except.mapM_ok_iff, List.forall₂_map_left_iff] at hplans
  have hletters := fun own => Directory.letters_lettersOf hlisted' hdistinct own
  have hstale : ∀ fileName, fileName ∈ staleNames ((plans.flatMap Prod.fst).insertionSort
      fun left right => left.fileName ≤ right.fileName) ↔
        ∃ plan ∈ plans, fileName ∈ plan.1.map StaleArchive.fileName := by
    intro fileName
    simp only [staleNames, mem_map, List.mem_insertionSort, List.mem_flatMap]
    constructor
    · rintro ⟨archive, ⟨plan, hplan, hin⟩, rfl⟩
      exact ⟨plan, hplan, archive, hin, rfl⟩
    · rintro ⟨plan, hplan, archive, hin, rfl⟩
      exact ⟨archive, ⟨plan, hplan, hin⟩, rfl⟩
  refine serves_without (Directory.serves_of_openArchives hlisted hopen number) (hletters number) ?_
  by_cases hnumber : number ∈ numbersNewestFirst (Directory.archiveNames listing')
  · obtain ⟨hlength, hgroup⟩ := List.forall₂_iff_get.mp hplans
    obtain ⟨own, hownMem, hown⟩ : ∃ plan ∈ plans, planStaleGroup directory readers
        (lettersOf (Directory.archiveNames listing') number) = .ok plan := by
      obtain ⟨i, hi, rfl⟩ := List.mem_iff_getElem.mp hnumber
      exact ⟨_, List.getElem_mem (hlength ▸ hi), hgroup i hi (hlength ▸ hi)⟩
    refine (staleIn_of_planStaleGroup hfrom hown).2.congr fun other hother => ?_
    rw [hstale]
    constructor
    · intro hin
      exact ⟨own, hownMem, hin⟩
    · rintro ⟨plan, hplan, hin⟩
      -- a name in the plan of a number is a name of the number
      obtain ⟨j, hj, rfl⟩ := List.mem_iff_getElem.mp hplan
      have hfound := hgroup j (hlength ▸ hj) hj
      rw [List.get_eq_getElem, List.get_eq_getElem] at hfound
      obtain ⟨found, hfoundMem, hsame⟩ := (staleIn_of_planStaleGroup hfrom hfound).1 _ hin
      obtain ⟨hparse, -, hotherNumber⟩ := ((hletters number).mem other).mp hother
      obtain ⟨-, -, hfoundNumber⟩ := ((hletters _).mem found).mp hfoundMem
      obtain rfl := (hletters _).eq_of_fileName hfoundMem hparse hsame
      rw [← hfoundNumber, hotherNumber, hown] at hfound
      rw [Except.ok.inj hfound]
      exact hin
  · have hnone : lettersOf (Directory.archiveNames listing') number = [] := by
      refine List.eq_nil_iff_forall_not_mem.mpr fun name hname => ?_
      exact hnumber (mem_numbersNewestFirst.mpr ⟨name, mem_lettersOf.mp hname⟩)
    rw [hnone]
    exact .empty fun other hin => absurd hin List.not_mem_nil

end Froe
