import Froe.Lib.Moves
import Froe.Store.WriteOpen

/-!
# Installing a recovered archive step by step

The letters of a number are retired to backup names one after the other, and the replacement
is renamed to the name of the target, which keeps its own entry until then.  A step that fails
is followed by renames that take the earlier steps back.

At every moment there is an archive under the target name, and every letter with bytes is there
under its own name or a backup name (`install_safe`).  Not every failure leaves things as they
were (`rollsBack_iff`).
-/

namespace Froe

open List (append_nil forall_mem_cons mem_append mem_cons_self mem_map)
open Finmap (lookup_erase_ne lookup_insert lookup_insert_of_ne)

namespace Installation

open Moves

/-- A step of an installation.  Those about a letter carry its name. -/
inductive InstallStep where
  | hardLink (fileName : String)
  | copy (fileName : String)
  | retire (fileName : String)
  | install
  | reopen
  | restore (fileName : String)
  | restoreTarget
  | discard
deriving DecidableEq

/-- Which steps the file system refuses, and what a refused copy leaves under the new name. -/
structure InstallEnvironment where
  refusal : InstallStep → Option Error
  copyLeaves : Option ArchiveFile

/-- A directory, and every directory that there was after a step, the last one first. -/
structure Volume where
  directory : Directory
  passed : List Directory

def Volume.pass (volume : Volume) (next : Directory) : Volume := ⟨next, next :: volume.passed⟩

namespace InstallEnvironment

variable (environment : InstallEnvironment)

/-- Performs one step.  A refused one changes nothing, and so does one whose file is missing. -/
def perform (step : InstallStep) (fileName : String) (change : Directory → Option Directory)
    (volume : Volume) : Option Error × Volume :=
  match environment.refusal step with
  | some error => (some error, volume.pass volume.directory)
  | none =>
    match change volume.directory with
    | some next => (none, volume.pass next)
    | none => (some (.inputOutput s!"{fileName}: No such file or directory"),
        volume.pass volume.directory)

/-- Copies a file.  A refused copy may leave a part of it. -/
def copy (fileName backup : String) (volume : Volume) : Option Error × Volume :=
  match environment.refusal (.copy fileName), environment.copyLeaves with
  | some error, some part => (some error, volume.pass (volume.directory.insert backup part))
  | _, _ => environment.perform (.copy fileName) fileName (link? fileName backup) volume

/-- The backup of the target: a second link, or else a copy. -/
def backUpTarget (fileName backup : String) (volume : Volume) : Option Error × Volume :=
  match environment.perform (.hardLink fileName) fileName (link? fileName backup) volume with
  | (none, linked) => (none, linked)
  | (some _, unlinked) => environment.copy fileName backup unlinked

/-- Takes renames back, the last one first, and ignores what fails. -/
def rollBack (renamed : List (String × String)) (volume : Volume) : Volume :=
  renamed.foldr (fun pair volume =>
    (environment.perform (.restore pair.1) pair.2 (rename? pair.2 pair.1) volume).2) volume

/-- The letters retired so far: the renames, and the backup of the target. -/
structure Retired where
  renamed : List (String × String)
  targetBackup : Option String

def retireLetters (targetName : String) :
    List ArchiveFileName → Retired → Volume → Option Error × Retired × Volume
  | [], retired, volume => (none, retired, volume)
  | generation :: generations, retired, volume =>
    if volume.directory.isEmptyFile generation.fileName then
      retireLetters targetName generations retired volume
    else
      let backup := backupPath volume.directory generation.fileName
      if generation.fileName = targetName then
        match environment.backUpTarget generation.fileName backup volume with
        | (some error, next) => (some error, retired, environment.rollBack retired.renamed next)
        | (none, next) =>
          retireLetters targetName generations { retired with targetBackup := some backup } next
      else
        match environment.perform (.retire generation.fileName) generation.fileName
          (rename? generation.fileName backup) volume with
        | (some error, next) => (some error, retired, environment.rollBack retired.renamed next)
        | (none, next) =>
          retireLetters targetName generations
            { retired with renamed := retired.renamed ++ [(generation.fileName, backup)] } next

/-- Removes the backup of the target, and ignores a failure. -/
def discardBackup (targetBackup : Option String) (volume : Volume) : Volume :=
  match targetBackup with
  | none => volume
  | some backup => (environment.perform .discard backup (fun d => some (d.erase backup)) volume).2

/-- Puts the backup of the target back, and ignores a failure. -/
def restoreTarget (targetName : String) (targetBackup : Option String) (volume : Volume) : Volume :=
  match targetBackup with
  | none => volume
  | some backup =>
    (environment.perform .restoreTarget backup (rename? backup targetName) volume).2

/-- Opens the installed archive. -/
def reopen (targetName : String) (directory : Directory) : Result TarArchiveReader :=
  match environment.refusal .reopen with
  | some error => .error error
  | none => directory.openArchive targetName

/-- Retires the letters and installs the replacement under the target name. -/
def installRecoveredArchive (directory : Directory) (generations : List ArchiveFileName)
    (targetName temporaryName : String) : Result TarArchiveReader × Volume :=
  match environment.retireLetters targetName generations ⟨[], none⟩ ⟨directory, []⟩ with
  | (some error, _, volume) => (.error error, volume)
  | (none, retired, volume) =>
    match environment.perform .install temporaryName (rename? temporaryName targetName) volume with
    | (some error, next) =>
      (.error error,
        environment.rollBack retired.renamed (environment.discardBackup retired.targetBackup next))
    | (none, next) =>
      match environment.reopen targetName next.directory with
      | .ok reader => (.ok reader, next)
      | .error error =>
        (.error error, environment.rollBack retired.renamed
          (environment.restoreTarget targetName retired.targetBackup next))

end InstallEnvironment

/-! ## What an installation is for -/

/-- The letters of an archive number with a target among them, and a file to be installed. -/
structure Installable (before : Directory) (generations : List ArchiveFileName)
    (targetName temporaryName : String) : Prop where
  letters : ∀ generation ∈ generations, ArchiveFileName.parse generation.fileName = some generation
  distinct : (generations.map ArchiveFileName.fileName).Nodup
  present : ∀ generation ∈ generations, generation.fileName ∈ before
  target : targetName ∈ generations.map ArchiveFileName.fileName
  staging : IsStaging temporaryName

/-- There is an archive under the target name, and no letter with bytes is lost. -/
def Safe (before : Directory) (generations : List ArchiveFileName) (targetName : String)
    (directory : Directory) : Prop :=
  targetName ∈ directory ∧ ∀ generation ∈ generations, ∀ file,
    before.lookup generation.fileName = some file → file.length ≠ 0 →
    KeptIn directory generation.fileName file

/-- Every letter is what it was, and there are no new backups. -/
def RolledBack (before : Directory) (generations : List ArchiveFileName) (directory : Directory) :
    Prop :=
  (∀ generation ∈ generations,
    directory.lookup generation.fileName = before.lookup generation.fileName) ∧
  ∀ name, IsBackup name → name ∈ directory → name ∈ before

namespace InstallEnvironment

variable (environment : InstallEnvironment)

/-- The renames and removals that take a step back are not refused. -/
structure Undoes : Prop where
  restore : ∀ fileName, environment.refusal (.restore fileName) = none
  restoreTarget : environment.refusal .restoreTarget = none
  discard : environment.refusal .discard = none

/-- The letter cannot be retired.  A target needs a link or a copy. -/
def Refuses (before : Directory) (targetName : String) (generation : ArchiveFileName) : Prop :=
  before.isEmptyFile generation.fileName = false ∧
    if generation.fileName = targetName then
      environment.refusal (.hardLink generation.fileName) ≠ none ∧
        environment.refusal (.copy generation.fileName) ≠ none
    else environment.refusal (.retire generation.fileName) ≠ none

/-- The failures that are not undone: a letter that cannot be retired behind a target that has
been backed up, a copy of the target that breaks off, and a replacement of an empty target that
cannot be opened. -/
inductive Irreversible (before : Directory) (generations : List ArchiveFileName)
    (targetName temporaryName : String) : Prop where
  | behindTarget (front back : List ArchiveFileName) (generation target : ArchiveFileName)
      (split : generations = front ++ generation :: back)
      (accepted : ∀ other ∈ front, ¬ environment.Refuses before targetName other)
      (refused : environment.Refuses before targetName generation)
      (behind : target ∈ front) (name : target.fileName = targetName)
      (bytes : before.isEmptyFile targetName = false)
  | brokenCopy (front back : List ArchiveFileName) (target : ArchiveFileName)
      (split : generations = front ++ target :: back)
      (accepted : ∀ other ∈ front, ¬ environment.Refuses before targetName other)
      (refused : environment.Refuses before targetName target)
      (name : target.fileName = targetName) (part : environment.copyLeaves ≠ none)
  | emptyTarget (file : ArchiveFile) (error : Error)
      (accepted : ∀ other ∈ generations, ¬ environment.Refuses before targetName other)
      (installed : environment.refusal .install = none)
      (staged : before.lookup temporaryName = some file)
      (fails : environment.reopen targetName (before.insert targetName file) = .error error)
      (empty : before.isEmptyFile targetName = true)
      (different : before.lookup targetName ≠ some file)

end InstallEnvironment

/-! ## Steps -/

section

variable {environment : InstallEnvironment} {before base : Directory} {volume : Volume}
  {generations : List ArchiveFileName} {targetName temporaryName fileName backup : String}
  {moves front kept : List (String × String)}

variable {step : InstallStep} {change : Directory → Option Directory} {directory : Directory}
  {targetBackup : Option String} {file : ArchiveFile} {passed : List Directory}

theorem perform_refused {error : Error} (h : environment.refusal step = some error) :
    environment.perform step fileName change volume =
      (some error, volume.pass volume.directory) := by
  rw [InstallEnvironment.perform, h]

theorem perform_done {next : Directory} (h : environment.refusal step = none)
    (hchange : change volume.directory = some next) :
    environment.perform step fileName change volume = (none, volume.pass next) := by
  rw [InstallEnvironment.perform, h]
  dsimp only
  rw [hchange]

theorem perform_cases (step : InstallStep) (fileName : String) {change : Directory → Option Directory}
    {next : Directory} (hchange : change volume.directory = some next) :
    (∃ error, environment.refusal step = some error ∧
      environment.perform step fileName change volume =
        (some error, volume.pass volume.directory)) ∨
    (environment.refusal step = none ∧
      environment.perform step fileName change volume = (none, volume.pass next)) := by
  cases hrefusal : environment.refusal step with
  | some error => exact .inl ⟨error, rfl, perform_refused hrefusal⟩
  | none => exact .inr ⟨rfl, perform_done hrefusal hchange⟩

/-- Moves to backup names, none of them of the target. -/
def Allowed (targetName : String) (moves : List (String × String)) : Prop :=
  ∀ move ∈ moves, IsBackup move.2 ∧ move.1 ≠ targetName

/-- What is safe stays safe when letters are moved to backup names. -/
theorem Safe.moved (h : Safe before generations targetName base)
    (hmoved : Moved base moves directory) (hallowed : Allowed targetName moves) :
    Safe before generations targetName directory := by
  have hothers : ∀ name, name ∈ base → (∀ move ∈ moves, name ≠ move.1) →
      directory.lookup name = base.lookup name := by
    intro name hname hnot
    refine hmoved.others name fun move hmove => ⟨hnot move hmove, ?_⟩
    rintro rfl
    exact hmoved.target_free move hmove hname
  obtain ⟨htarget, hletters⟩ := h
  constructor
  · rw [mem_iff_lookup, hothers targetName htarget fun move hmove => (hallowed move hmove).2.symm]
    exact mem_iff_lookup.mp htarget
  · intro generation hgeneration file hfile hbytes
    obtain ⟨name, hname, hkept⟩ := hletters generation hgeneration file hfile hbytes
    by_cases hmove : ∃ move ∈ moves, name = move.1
    · obtain ⟨move, hmove, rfl⟩ := hmove
      refine ⟨move.2, .inr (hallowed move hmove).1, ?_⟩
      rw [hmoved.moved move hmove, hkept]
    · refine ⟨name, hname, ?_⟩
      rw [hothers name ?_ fun move hmem heq => hmove ⟨move, hmem, heq⟩, hkept]
      rw [mem_iff_lookup, hkept]
      nofun

/-- Taking moves back keeps what every directory between has, and without a refusal the moves are
gone. -/
theorem rollBack_spec {P : Directory → Prop}
    (hP : ∀ some directory, Allowed targetName some → Moved base some directory → P directory)
    (hallowed : Allowed targetName (front ++ moves ++ kept))
    (hmoved : Moved base (front ++ moves ++ kept) volume.directory)
    (hpassed : ∀ directory ∈ volume.passed, P directory) :
    ∃ left, Allowed targetName (front ++ left) ∧
      Moved base (front ++ left) (environment.rollBack moves volume).directory ∧
      (∀ directory ∈ (environment.rollBack moves volume).passed, P directory) ∧
      ((∀ fileName, environment.refusal (.restore fileName) = none) → left = kept) := by
  induction moves generalizing front with
  | nil =>
    rw [append_nil] at hallowed hmoved
    exact ⟨kept, hallowed, hmoved, hpassed, fun _ => rfl⟩
  | cons move moves ih =>
    obtain ⟨original, backup⟩ := move
    have hcons : front ++ (original, backup) :: moves ++ kept =
        front ++ [(original, backup)] ++ moves ++ kept := by simp
    rw [hcons] at hallowed hmoved
    obtain ⟨left, hleft, hmovedLeft, hbetween, hall⟩ := ih hallowed hmoved
    have hsplit : front ++ [(original, backup)] ++ left = front ++ (original, backup) :: left := by
      simp
    rw [hsplit] at hleft hmovedLeft
    obtain ⟨file, hfile, hrestored⟩ := hmovedLeft.restore
    have hless : Allowed targetName (front ++ left) := by
      intro move hmove
      refine hleft move ?_
      rcases mem_append.mp hmove with hmove | hmove
      · exact List.mem_append_left _ hmove
      · exact List.mem_append_right _ (List.mem_cons_of_mem _ hmove)
    have hstep : environment.rollBack ((original, backup) :: moves) volume =
        (environment.perform (.restore original) backup (rename? backup original)
          (environment.rollBack moves volume)).2 := rfl
    rw [hstep]
    rcases perform_cases (.restore original) backup (rename?_eq hfile) with
      ⟨error, hrefusal, hrun⟩ | ⟨hrefusal, hrun⟩
    · rw [hrun]
      refine ⟨(original, backup) :: left, hleft, hmovedLeft, ?_, ?_⟩
      · exact forall_mem_cons.mpr ⟨hP _ _ hleft hmovedLeft, hbetween⟩
      · intro hundo
        rw [hundo original] at hrefusal
        cases hrefusal
    · rw [hrun]
      refine ⟨left, hless, hrestored, ?_, hall⟩
      exact forall_mem_cons.mpr ⟨hP _ _ hless hrestored, hbetween⟩

/-! ## Retiring letters -/

theorem rolledBack_refl (before : Directory) (generations : List ArchiveFileName) :
    RolledBack before generations before :=
  ⟨fun _ _ => rfl, fun _ _ hmem => hmem⟩

/-- A new backup is left behind. -/
theorem not_rolledBack (hbackup : IsBackup backup)
    (hmem : backup ∈ directory) (hnew : backup ∉ before) :
    ¬ RolledBack before generations directory :=
  fun h => hnew (h.2 backup hbackup hmem)

/-- What an installation has added to the directory but for the moves: the backup of the target. -/
def BackedUp (before : Directory) (targetName : String) : Option String → Directory → Prop
  | none, base => base = before
  | some backup, base => ∃ file, before.lookup targetName = some file ∧ IsBackup backup ∧
      backup ∉ before ∧ base = before.insert backup file

theorem BackedUp.lookup
    (h : BackedUp before targetName targetBackup base) (hname : fileName ∈ before) :
    base.lookup fileName = before.lookup fileName := by
  cases targetBackup with
  | none => rw [show base = before from h]
  | some backup =>
    obtain ⟨file, -, -, hnew, rfl⟩ := h
    refine lookup_insert_of_ne _ ?_
    rintro rfl
    exact hnew hname

theorem BackedUp.rolledBack_iff (h : BackedUp before targetName targetBackup base) :
    RolledBack before generations base ↔ targetBackup = none := by
  cases targetBackup with
  | none =>
    rw [show base = before from h]
    exact iff_of_true (rolledBack_refl ..) rfl
  | some backup =>
    obtain ⟨file, -, hbackup, hnew, rfl⟩ := h
    refine iff_of_false (not_rolledBack hbackup (Finmap.mem_insert.mpr (.inl rfl)) hnew) nofun

section

variable (h : Installable before generations targetName temporaryName)
include h

/-- A directory that still has all letters is safe. -/
theorem safe_of_letters (hletters : ∀ generation ∈ generations,
      base.lookup generation.fileName = before.lookup generation.fileName) :
    Safe before generations targetName base := by
  obtain ⟨target, htarget, hname⟩ := mem_map.mp h.target
  constructor
  · rw [mem_iff_lookup, ← hname, hletters target htarget, ← mem_iff_lookup]
    exact h.present target htarget
  · intro generation hgeneration file hfile _
    exact ⟨generation.fileName, .inl rfl, (hletters generation hgeneration).trans hfile⟩

theorem safe_of_lookup
    (hsame : ∀ name, name ∈ before → ¬ IsBackup name → base.lookup name = before.lookup name) :
    Safe before generations targetName base := by
  refine safe_of_letters h fun generation hgeneration => ?_
  refine hsame _ (h.present generation hgeneration) fun hbackup => ?_
  have := h.letters generation hgeneration
  rw [hbackup.parse] at this
  cases this

end

/-- The state of an installation that has retired some letters. -/
structure Progress (before : Directory) (generations : List ArchiveFileName) (targetName : String)
    (finished : List ArchiveFileName) (retired : InstallEnvironment.Retired) (volume : Volume)
    (base : Directory) : Prop where
  backedUp : BackedUp before targetName retired.targetBackup base
  moved : Moved base retired.renamed volume.directory
  allowed : Allowed targetName retired.renamed
  sources : ∀ move ∈ retired.renamed, move.1 ∈ finished.map ArchiveFileName.fileName
  passed : ∀ directory ∈ volume.passed, Safe before generations targetName directory
  backup_iff : retired.targetBackup = none ↔
    ¬ (targetName ∈ finished.map ArchiveFileName.fileName ∧ before.isEmptyFile targetName = false)

variable {retired : InstallEnvironment.Retired} {finished rest : List ArchiveFileName}
  {generation : ArchiveFileName}

section

variable (h : Progress before generations targetName finished retired volume base)
include h

section

variable (hinstallable : Installable before generations targetName temporaryName)
include hinstallable

theorem Progress.safe :
    Safe before generations targetName base :=
  safe_of_lookup hinstallable fun _ hname _ => h.backedUp.lookup hname

/-- The next letter is still there. -/
theorem Progress.lookup_next (hsplit : generations = finished ++ generation :: rest) :
    volume.directory.lookup generation.fileName = before.lookup generation.fileName := by
  have hmem : generation ∈ generations := by simp [hsplit]
  have hdistinct := hinstallable.distinct
  rw [hsplit, List.map_append, List.map_cons, List.nodup_append'] at hdistinct
  obtain ⟨-, -, hdisjoint⟩ := hdistinct
  have hpresent := hinstallable.present generation hmem
  rw [h.moved.others, h.backedUp.lookup hpresent]
  intro move hmove
  constructor
  · intro heq
    exact hdisjoint (h.sources move hmove) (heq ▸ mem_cons_self)
  · intro heq
    have hparse := hinstallable.letters generation hmem
    rw [heq, (h.allowed move hmove).1.parse] at hparse
    cases hparse

/-- A backup name that is free has nothing to do with the letters and the moves. -/
theorem Progress.backup_free (hfinished : finished ⊆ generations) (fileName : String) :
    (∀ move ∈ retired.renamed, move.1 ≠ backupPath volume.directory fileName ∧
      move.2 ≠ backupPath volume.directory fileName) ∧
    backupPath volume.directory fileName ∉ base := by
  have hfree := lookup_backupPath volume.directory fileName
  have hmoves : ∀ move ∈ retired.renamed, move.1 ≠ backupPath volume.directory fileName ∧
      move.2 ≠ backupPath volume.directory fileName := by
    intro move hmove
    constructor
    · intro heq
      obtain ⟨other, hother, hname⟩ := mem_map.mp (h.sources move hmove)
      have hparse := hinstallable.letters other (hfinished hother)
      rw [hname, heq, (isBackup_backupPath volume.directory fileName).parse] at hparse
      cases hparse
    · intro heq
      have hmem := h.moved.target_mem hmove
      rw [heq, mem_iff_lookup, hfree] at hmem
      exact hmem rfl
  refine ⟨hmoves, ?_⟩
  rw [mem_iff_lookup, not_not, ← h.moved.others _ fun move hmove =>
    ⟨(hmoves move hmove).1.symm, (hmoves move hmove).2.symm⟩]
  exact hfree

end

end

theorem BackedUp.mem
    (h : BackedUp before targetName targetBackup base) (hname : fileName ∈ before) :
    fileName ∈ base := by
  rw [mem_iff_lookup, h.lookup hname]
  exact mem_iff_lookup.mp hname

theorem map_fileName_append (finished : List ArchiveFileName) (generation : ArchiveFileName) :
    (finished ++ [generation]).map ArchiveFileName.fileName =
      finished.map ArchiveFileName.fileName ++ [generation.fileName] := by
  rw [List.map_append, List.map_singleton]

section

variable (h : Progress before generations targetName finished retired volume base)
include h

/-- An empty letter is left alone. -/
theorem Progress.skip
    (hempty : before.isEmptyFile generation.fileName = true) :
    Progress before generations targetName (finished ++ [generation]) retired volume base where
  backedUp := h.backedUp
  moved := h.moved
  allowed := h.allowed
  sources move hmove := by
    rw [map_fileName_append]
    exact List.mem_append_left _ (h.sources move hmove)
  passed := h.passed
  backup_iff := by
    rw [h.backup_iff, map_fileName_append, mem_append, List.mem_singleton]
    refine not_congr (and_congr_left fun hbytes => ?_)
    refine (or_iff_left ?_).symm
    rintro rfl
    rw [hempty] at hbytes
    cases hbytes

section

variable (hinstallable : Installable before generations targetName temporaryName)
  (hsplit : generations = finished ++ generation :: rest)
  (hfile : before.lookup generation.fileName = some file)
include hinstallable hsplit hfile

/-- A letter that is not the target is renamed. -/
theorem Progress.retire (hother : generation.fileName ≠ targetName) :
    Progress before generations targetName (finished ++ [generation])
      { retired with renamed := retired.renamed ++
        [(generation.fileName, backupPath volume.directory generation.fileName)] }
      (volume.pass (Finmap.insert (backupPath volume.directory generation.fileName) file
        (volume.directory.erase generation.fileName))) base := by
  have hfinished : finished ⊆ generations := by
    rw [hsplit]
    exact List.subset_append_left _ _
  have hmem : generation ∈ generations := by simp [hsplit]
  obtain ⟨-, hbase⟩ := h.backup_free hinstallable hfinished generation.fileName
  have hmoved := h.moved.rename ((h.lookup_next hinstallable hsplit).trans hfile)
    (h.backedUp.mem (hinstallable.present generation hmem)) hbase (lookup_backupPath ..)
  have hallowed : Allowed targetName (retired.renamed ++
      [(generation.fileName, backupPath volume.directory generation.fileName)]) := by
    intro move hmove
    rcases mem_append.mp hmove with hmove | hmove
    · exact h.allowed move hmove
    · obtain rfl := List.mem_singleton.mp hmove
      exact ⟨isBackup_backupPath .., hother⟩
  refine ⟨h.backedUp, hmoved, hallowed, ?_, ?_, ?_⟩
  · intro move hmove
    rw [map_fileName_append]
    rcases mem_append.mp hmove with hmove | hmove
    · exact List.mem_append_left _ (h.sources move hmove)
    · obtain rfl := List.mem_singleton.mp hmove
      exact List.mem_append_right _ (List.mem_singleton_self _)
  · exact forall_mem_cons.mpr ⟨(h.safe hinstallable).moved hmoved hallowed, h.passed⟩
  · rw [h.backup_iff, map_fileName_append, mem_append, List.mem_singleton,
      or_iff_left hother.symm]

/-- The target gets a backup and keeps its name. -/
theorem Progress.backUp (hbytes : before.isEmptyFile generation.fileName = false)
    (htarget : generation.fileName = targetName)
    (hpassed : ∀ directory ∈ passed, Safe before generations targetName directory) :
    Progress before generations targetName (finished ++ [generation])
      { retired with targetBackup := some (backupPath volume.directory generation.fileName) }
      (Volume.pass ⟨volume.directory, passed⟩
        (volume.directory.insert (backupPath volume.directory generation.fileName) file))
      (before.insert (backupPath volume.directory generation.fileName) file) := by
  have hfinished : finished ⊆ generations := by
    rw [hsplit]
    exact List.subset_append_left _ _
  obtain ⟨hmoves, hfree⟩ := h.backup_free hinstallable hfinished generation.fileName
  -- the target comes once, so that nothing has been added yet
  have hfirst : retired.targetBackup = none := by
    refine h.backup_iff.mpr fun hagain => ?_
    have hdistinct := hinstallable.distinct
    rw [hsplit, List.map_append, List.map_cons, List.nodup_append'] at hdistinct
    exact hdistinct.2.2 hagain.1 (htarget ▸ mem_cons_self)
  have hbase : base = before := by
    have := h.backedUp
    rw [hfirst] at this
    exact this
  rw [hbase] at hfree
  have hmoved := h.moved.insert file hmoves
  rw [hbase] at hmoved
  have hbacked : BackedUp before targetName
      (some (backupPath volume.directory generation.fileName))
      (before.insert (backupPath volume.directory generation.fileName) file) :=
    ⟨file, htarget ▸ hfile, isBackup_backupPath .., hfree, rfl⟩
  have hsafe : Safe before generations targetName
      (before.insert (backupPath volume.directory generation.fileName) file) :=
    safe_of_lookup hinstallable fun _ hname _ => hbacked.lookup hname
  refine ⟨hbacked, hmoved, h.allowed, ?_, ?_, ?_⟩
  · intro move hmove
    rw [map_fileName_append]
    exact List.mem_append_left _ (h.sources move hmove)
  · exact forall_mem_cons.mpr ⟨hsafe.moved hmoved h.allowed, hpassed⟩
  · refine iff_of_false nofun (not_not.mpr ⟨?_, htarget ▸ hbytes⟩)
    rw [map_fileName_append, htarget]
    exact List.mem_append_right _ (List.mem_singleton_self _)

end

end

/-- Renames are taken back without a refusal, and on the way everything is safe. -/
theorem rollBack_safe {renamed : List (String × String)}
    (hsafe : Safe before generations targetName base)
    (hmoved : Moved base renamed volume.directory) (hallowed : Allowed targetName renamed)
    (hpassed : ∀ directory ∈ volume.passed, Safe before generations targetName directory) :
    (∀ directory ∈ (environment.rollBack renamed volume).passed,
      Safe before generations targetName directory) ∧
    ((∀ fileName, environment.refusal (.restore fileName) = none) →
      (environment.rollBack renamed volume).directory = base) := by
  obtain ⟨left, -, hleft, hbetween, hall⟩ := @rollBack_spec environment base volume targetName
    renamed [] [] (Safe before generations targetName)
    (fun some directory hsome hmove => hsafe.moved hmove hsome)
    (by rwa [append_nil, List.nil_append]) (by rwa [append_nil, List.nil_append]) hpassed
  refine ⟨hbetween, fun hundo => ?_⟩
  rw [hall hundo, append_nil] at hleft
  exact moved_nil_iff.mp hleft

/-- How the retirement of the letters ends: with all of them retired, or at the first one that
cannot be retired, and then the renames are taken back. -/
inductive LettersEnd (environment : InstallEnvironment) (before : Directory)
    (generations : List ArchiveFileName) (targetName : String) :
    Option Error × InstallEnvironment.Retired × Volume → Prop where
  | retired (retired : InstallEnvironment.Retired) (volume : Volume) (base : Directory)
      (accepted : ∀ other ∈ generations, ¬ environment.Refuses before targetName other)
      (progress : Progress before generations targetName generations retired volume base) :
      LettersEnd environment before generations targetName (none, retired, volume)
  | refused (error : Error) (retired : InstallEnvironment.Retired) (volume : Volume)
      (front back : List ArchiveFileName) (generation : ArchiveFileName)
      (split : generations = front ++ generation :: back)
      (accepted : ∀ other ∈ front, ¬ environment.Refuses before targetName other)
      (refused : environment.Refuses before targetName generation)
      (passed : ∀ directory ∈ volume.passed, Safe before generations targetName directory)
      (undone : (∀ fileName, environment.refusal (.restore fileName) = none) →
        (RolledBack before generations volume.directory ↔
          ¬ (targetName ∈ front.map ArchiveFileName.fileName ∧
            before.isEmptyFile targetName = false) ∧
          (generation.fileName = targetName → environment.copyLeaves = none))) :
      LettersEnd environment before generations targetName (some error, retired, volume)

/-- A step that is refused before anything was added leaves what the moves left. -/
theorem Progress.refused (h : Progress before generations targetName finished retired volume base)
    (hinstallable : Installable before generations targetName temporaryName)
    (hsplit : generations = finished ++ generation :: rest)
    (haccepted : ∀ other ∈ finished, ¬ environment.Refuses before targetName other)
    (hrefused : environment.Refuses before targetName generation)
    (hleaves : generation.fileName = targetName → environment.copyLeaves = none)
    (hpassed : ∀ directory ∈ passed, Safe before generations targetName directory) (error : Error) :
    LettersEnd environment before generations targetName (some error, retired,
      environment.rollBack retired.renamed ⟨volume.directory, passed⟩) := by
  obtain ⟨hbetween, hundone⟩ := @rollBack_safe environment before base
    ⟨volume.directory, passed⟩ generations targetName retired.renamed (h.safe hinstallable) h.moved
    h.allowed hpassed
  refine .refused error _ _ finished rest generation hsplit haccepted hrefused hbetween fun hundo => ?_
  rw [hundone hundo, h.backedUp.rolledBack_iff, h.backup_iff]
  exact (and_iff_left hleaves).symm

/-- The target gets its backup by a link or a copy, or neither can be made, and then a part of a
copy may be left. -/
theorem backUpTarget_cases {file : ArchiveFile} (hfile : volume.directory.lookup fileName = some file) :
    (∃ passed, (∀ directory ∈ passed, directory ∈ volume.passed ∨ directory = volume.directory) ∧
      ¬ (environment.refusal (.hardLink fileName) ≠ none ∧
        environment.refusal (.copy fileName) ≠ none) ∧
      environment.backUpTarget fileName backup volume =
        (none, Volume.pass ⟨volume.directory, passed⟩ (volume.directory.insert backup file))) ∨
    ∃ error, environment.refusal (.hardLink fileName) ≠ none ∧
      environment.refusal (.copy fileName) ≠ none ∧
      ((environment.copyLeaves = none ∧ environment.backUpTarget fileName backup volume =
        (some error, (volume.pass volume.directory).pass volume.directory)) ∨
      ∃ part, environment.copyLeaves = some part ∧
        environment.backUpTarget fileName backup volume =
          (some error, (volume.pass volume.directory).pass
            (volume.directory.insert backup part))) := by
  rw [InstallEnvironment.backUpTarget]
  rcases perform_cases (.hardLink fileName) fileName (link?_eq hfile) with
    ⟨linkError, hlink, hrun⟩ | ⟨hlink, hrun⟩
  · rw [hrun]
    dsimp only
    have hcopied : (volume.pass volume.directory).directory.lookup fileName = some file := hfile
    cases hcopy : environment.refusal (.copy fileName) with
    | none =>
      refine .inl ⟨volume.directory :: volume.passed, ?_, fun hboth => hboth.2 rfl, ?_⟩
      · exact forall_mem_cons.mpr ⟨.inr rfl, fun directory hmem => .inl hmem⟩
      · rw [InstallEnvironment.copy, hcopy]
        exact perform_done hcopy (link?_eq hcopied)
    | some error =>
      refine .inr ⟨error, by rw [hlink]; nofun, nofun, ?_⟩
      cases hleaves : environment.copyLeaves with
      | none =>
        refine .inl ⟨rfl, ?_⟩
        rw [InstallEnvironment.copy, hcopy, hleaves]
        exact perform_refused hcopy
      | some part =>
        refine .inr ⟨part, rfl, ?_⟩
        rw [InstallEnvironment.copy, hcopy, hleaves]
        rfl
  · rw [hrun]
    exact .inl ⟨volume.passed, fun directory hmem => .inl hmem, fun hboth => hboth.1 hlink, rfl⟩

/-- A copy that breaks off leaves a backup. -/
theorem Progress.brokenCopy
    (h : Progress before generations targetName finished retired volume base)
    (hinstallable : Installable before generations targetName temporaryName)
    (hsplit : generations = finished ++ generation :: rest)
    (haccepted : ∀ other ∈ finished, ¬ environment.Refuses before targetName other)
    (hrefused : environment.Refuses before targetName generation)
    (htarget : generation.fileName = targetName) {part : ArchiveFile}
    (hleaves : environment.copyLeaves = some part)
    (hpassed : ∀ directory ∈ passed, Safe before generations targetName directory) (error : Error) :
    LettersEnd environment before generations targetName (some error, retired,
      environment.rollBack retired.renamed (Volume.pass ⟨volume.directory, passed⟩
        (volume.directory.insert (backupPath volume.directory generation.fileName) part))) := by
  have hfinished : finished ⊆ generations := by
    rw [hsplit]
    exact List.subset_append_left _ _
  obtain ⟨hmoves, hfree⟩ := h.backup_free hinstallable hfinished generation.fileName
  have hbackup := isBackup_backupPath volume.directory generation.fileName
  have hmoved := h.moved.insert part hmoves
  have hsafe : Safe before generations targetName
      (base.insert (backupPath volume.directory generation.fileName) part) := by
    refine safe_of_lookup hinstallable fun name hname hnot => ?_
    rw [lookup_insert_of_ne, h.backedUp.lookup hname]
    rintro rfl
    exact hnot hbackup
  obtain ⟨hbetween, hundone⟩ := @rollBack_safe environment before _
    (Volume.pass ⟨volume.directory, passed⟩
      (volume.directory.insert (backupPath volume.directory generation.fileName) part))
    generations targetName retired.renamed hsafe hmoved h.allowed
    (forall_mem_cons.mpr ⟨hsafe.moved hmoved h.allowed, hpassed⟩)
  refine .refused error _ _ finished rest generation hsplit haccepted hrefused hbetween fun hundo => ?_
  rw [hundone hundo]
  refine iff_of_false (not_rolledBack hbackup (Finmap.mem_insert.mpr (.inl rfl)) ?_) ?_
  · exact fun hmem => hfree (h.backedUp.mem hmem)
  · rintro ⟨-, hnone⟩
    rw [hnone htarget] at hleaves
    cases hleaves

theorem retireLetters_spec (hinstallable : Installable before generations targetName temporaryName)
    (h : Progress before generations targetName finished retired volume base)
    (hsplit : generations = finished ++ rest)
    (haccepted : ∀ other ∈ finished, ¬ environment.Refuses before targetName other) :
    LettersEnd environment before generations targetName
      (environment.retireLetters targetName rest retired volume) := by
  induction rest generalizing finished retired volume base with
  | nil =>
    rw [append_nil] at hsplit
    subst hsplit
    exact .retired retired volume base haccepted h
  | cons generation rest ih =>
    have hmem : generation ∈ generations := by simp [hsplit]
    have hnext := h.lookup_next hinstallable hsplit
    have hempty : volume.directory.isEmptyFile generation.fileName =
        before.isEmptyFile generation.fileName := by
      rw [Directory.isEmptyFile, Directory.isEmptyFile, hnext]
    obtain ⟨file, hfile⟩ := Option.ne_none_iff_exists'.mp
      (mem_iff_lookup.mp (hinstallable.present generation hmem))
    have hsplit' : generations = (finished ++ [generation]) ++ rest := by
      rw [hsplit, List.append_assoc]
      rfl
    have hgoOn : ¬ environment.Refuses before targetName generation →
        ∀ other ∈ finished ++ [generation], ¬ environment.Refuses before targetName other := by
      intro hnot other hother
      rcases mem_append.mp hother with hother | hother
      · exact haccepted other hother
      · exact List.mem_singleton.mp hother ▸ hnot
    rw [InstallEnvironment.retireLetters, hempty]
    cases hbytes : before.isEmptyFile generation.fileName with
    | true =>
      rw [if_pos rfl]
      refine ih (h.skip hbytes) hsplit' (hgoOn fun hrefuses => ?_)
      rw [hrefuses.1] at hbytes
      cases hbytes
    | false =>
      rw [if_neg Bool.false_ne_true]
      dsimp only
      by_cases htarget : generation.fileName = targetName
      · rw [if_pos htarget]
        have hhere : ∀ directory ∈ (volume.pass volume.directory).passed,
            Safe before generations targetName directory :=
          forall_mem_cons.mpr ⟨(h.safe hinstallable).moved h.moved h.allowed, h.passed⟩
        rcases @backUpTarget_cases environment volume generation.fileName
          (backupPath volume.directory generation.fileName) file (hnext.trans hfile) with
          ⟨passed, hpassed, hmade, hrun⟩ | ⟨error, hlink, hcopy, hbroken⟩
        · rw [hrun]
          refine ih (h.backUp hinstallable hsplit hfile hbytes htarget fun directory hmem => ?_)
            hsplit' (hgoOn fun hrefuses => ?_)
          · rcases hpassed directory hmem with hmem | rfl
            · exact h.passed directory hmem
            · exact hhere _ mem_cons_self
          · have hboth := hrefuses.2
            rw [if_pos htarget] at hboth
            exact hmade hboth
        · have hrefuses : environment.Refuses before targetName generation := by
            refine ⟨hbytes, ?_⟩
            rw [if_pos htarget]
            exact ⟨hlink, hcopy⟩
          have hagain := forall_mem_cons.mpr ⟨hhere _ mem_cons_self, hhere⟩
          rcases hbroken with ⟨hleaves, hrun⟩ | ⟨part, hleaves, hrun⟩
          · rw [hrun]
            exact h.refused hinstallable hsplit haccepted hrefuses (fun _ => hleaves) hagain error
          · rw [hrun]
            exact h.brokenCopy hinstallable hsplit haccepted hrefuses htarget hleaves hhere error
      · rw [if_neg htarget]
        rcases perform_cases (.retire generation.fileName) generation.fileName
          (rename?_eq (hnext.trans hfile)) with ⟨error, hrefusal, hrun⟩ | ⟨hrefusal, hrun⟩
        · rw [hrun]
          refine h.refused hinstallable hsplit haccepted ⟨hbytes, ?_⟩
            (fun heq => absurd heq htarget) ?_ error
          · rw [if_neg htarget, hrefusal]
            rintro ⟨⟩
          · exact forall_mem_cons.mpr ⟨(h.safe hinstallable).moved h.moved h.allowed, h.passed⟩
        · rw [hrun]
          refine ih (h.retire hinstallable hsplit hfile htarget) hsplit' (hgoOn fun hrefuses => ?_)
          have hnone := hrefuses.2
          rw [if_neg htarget] at hnone
          exact hnone hrefusal

/-! ## Installing -/

/-- A list has one first element with a property. -/
theorem first_unique {α : Type} {P : α → Prop} {front front' back back' : List α} {a a' : α}
    (h : front ++ a :: back = front' ++ a' :: back') (hfront : ∀ x ∈ front, ¬ P x) (ha : P a)
    (hfront' : ∀ x ∈ front', ¬ P x) (ha' : P a') : front = front' ∧ a = a' := by
  induction front generalizing front' with
  | nil =>
    cases front' with
    | nil => exact ⟨rfl, (List.cons.inj h).1⟩
    | cons x front' =>
      obtain rfl := (List.cons.inj h).1
      exact absurd ha (hfront' a mem_cons_self)
  | cons x front ih =>
    cases front' with
    | nil =>
      obtain rfl := (List.cons.inj h).1
      exact absurd ha' (hfront x mem_cons_self)
    | cons x' front' =>
      obtain ⟨rfl, hrest⟩ := List.cons.inj h
      obtain ⟨rfl, rfl⟩ := ih hrest (fun y hy => hfront y (List.mem_cons_of_mem _ hy))
        fun y hy => hfront' y (List.mem_cons_of_mem _ hy)
      exact ⟨rfl, rfl⟩

/-- A failure of a letter is undone unless the target has a backup before it, or a part of one. -/
theorem irreversible_of_refused {back : List ArchiveFileName} {first : List ArchiveFileName}
    (hsplit : generations = first ++ generation :: back)
    (haccepted : ∀ other ∈ first, ¬ environment.Refuses before targetName other)
    (hrefused : environment.Refuses before targetName generation) :
    environment.Irreversible before generations targetName temporaryName ↔
      ¬ (¬ (targetName ∈ first.map ArchiveFileName.fileName ∧
          before.isEmptyFile targetName = false) ∧
        (generation.fileName = targetName → environment.copyLeaves = none)) := by
  constructor
  · rintro hirreversible ⟨hbehind, hleaves⟩
    cases hirreversible with
    | behindTarget front back' other target split accepted refused behind name bytes =>
      obtain ⟨rfl, rfl⟩ := first_unique (hsplit.symm.trans split) haccepted hrefused accepted refused
      exact hbehind ⟨mem_map.mpr ⟨target, behind, name⟩, bytes⟩
    | brokenCopy front back' target split accepted refused name part =>
      obtain ⟨rfl, rfl⟩ := first_unique (hsplit.symm.trans split) haccepted hrefused accepted refused
      exact part (hleaves name)
    | emptyTarget file error accepted =>
      exact accepted generation (by simp [hsplit]) hrefused
  · intro hnot
    by_cases hbehind : targetName ∈ first.map ArchiveFileName.fileName ∧
        before.isEmptyFile targetName = false
    · obtain ⟨hmem, hbytes⟩ := hbehind
      obtain ⟨target, htarget, hname⟩ := mem_map.mp hmem
      exact .behindTarget first back generation target hsplit haccepted hrefused htarget hname hbytes
    · have hbroken := not_and.mp hnot hbehind
      obtain ⟨hname, hpart⟩ := Classical.not_imp.mp hbroken
      exact .brokenCopy first back generation hsplit haccepted hrefused hname hpart

section

variable (h : Progress before generations targetName generations retired volume base)
include h

/-- What is under a name that no installation touches. -/
theorem Progress.lookup_other
    (hletter : fileName ∉ generations.map ArchiveFileName.fileName) (hbackup : ¬ IsBackup fileName) :
    volume.directory.lookup fileName = before.lookup fileName ∧
      ∀ move ∈ retired.renamed, move.1 ≠ fileName ∧ move.2 ≠ fileName := by
  have hmoves : ∀ move ∈ retired.renamed, move.1 ≠ fileName ∧ move.2 ≠ fileName := by
    intro move hmove
    constructor
    · rintro rfl
      exact hletter (h.sources move hmove)
    · rintro rfl
      exact hbackup (h.allowed move hmove).1
  refine ⟨?_, hmoves⟩
  rw [h.moved.others fileName fun move hmove =>
    ⟨(hmoves move hmove).1.symm, (hmoves move hmove).2.symm⟩]
  have hbacked := h.backedUp
  cases htargetBackup : retired.targetBackup with
  | none =>
    rw [htargetBackup] at hbacked
    rw [show base = before from hbacked]
  | some backup =>
    rw [htargetBackup] at hbacked
    obtain ⟨file, -, hname, -, rfl⟩ := hbacked
    refine lookup_insert_of_ne _ ?_
    rintro rfl
    exact hbackup hname

/-- No letter was renamed from or to the backup of the target. -/
theorem Progress.targetBackup_apart
    (hinstallable : Installable before generations targetName temporaryName)
    (htargetBackup : retired.targetBackup = some backup) :
    ∀ move ∈ retired.renamed, move.1 ≠ backup ∧ move.2 ≠ backup := by
  have hbacked := h.backedUp
  rw [htargetBackup] at hbacked
  obtain ⟨file, -, hbackup, -, hbase⟩ := hbacked
  intro move hmove
  constructor
  · rintro rfl
    obtain ⟨letter, hletter, hsource⟩ := mem_map.mp (h.sources move hmove)
    have hparse := hinstallable.letters letter hletter
    rw [hsource, hbackup.parse] at hparse
    cases hparse
  · rintro rfl
    refine h.moved.target_free move hmove ?_
    rw [hbase]
    exact Finmap.mem_insert.mpr (.inl rfl)

end

/-- When the replacement cannot be renamed, everything is as it was. -/
theorem Progress.notInstalled
    (h : Progress before generations targetName generations retired volume base)
    (hinstallable : Installable before generations targetName temporaryName) :
    (∀ directory ∈ (environment.rollBack retired.renamed
        (environment.discardBackup retired.targetBackup volume)).passed,
      Safe before generations targetName directory) ∧
    (environment.Undoes → (environment.rollBack retired.renamed
      (environment.discardBackup retired.targetBackup volume)).directory = before) := by
  have hbacked := h.backedUp
  cases htargetBackup : retired.targetBackup with
  | none =>
    rw [htargetBackup] at hbacked
    obtain rfl : base = before := hbacked
    obtain ⟨hpassed, hundone⟩ := @rollBack_safe environment base base volume generations targetName
      retired.renamed (h.safe hinstallable) h.moved h.allowed h.passed
    exact ⟨hpassed, fun hundo => hundone hundo.restore⟩
  | some backup =>
    rw [htargetBackup] at hbacked
    obtain ⟨file, hfile, hname, hnew, rfl⟩ := hbacked
    have hback : (before.insert backup file).erase backup = before := by
      refine Finmap.ext_lookup fun key => ?_
      by_cases hkey : key = backup
      · rw [hkey, Finmap.lookup_erase]
        exact (not_not.mp (mt mem_iff_lookup.mpr hnew)).symm
      · rw [lookup_erase_ne hkey, lookup_insert_of_ne _ hkey]
    have hmoves := h.targetBackup_apart hinstallable htargetBackup
    have hmoved : Moved before retired.renamed (volume.directory.erase backup) :=
      hback ▸ h.moved.erase hmoves
    have hsafe : Safe before generations targetName before :=
      safe_of_lookup hinstallable fun _ _ _ => rfl
    rw [InstallEnvironment.discardBackup]
    rcases @perform_cases environment volume .discard backup
      (fun directory => some (directory.erase backup)) _ rfl with
      ⟨error, hrefusal, hrun⟩ | ⟨-, hrun⟩
    · rw [hrun]
      have hhere := (h.safe hinstallable).moved h.moved h.allowed
      obtain ⟨hpassed, -⟩ := @rollBack_safe environment before _ (volume.pass volume.directory)
        generations targetName retired.renamed (h.safe hinstallable) h.moved h.allowed
        (forall_mem_cons.mpr ⟨hhere, h.passed⟩)
      refine ⟨hpassed, fun hundo => ?_⟩
      rw [hundo.discard] at hrefusal
      cases hrefusal
    · rw [hrun]
      obtain ⟨hpassed, hundone⟩ := @rollBack_safe environment before before
        (volume.pass (volume.directory.erase backup)) generations targetName retired.renamed hsafe
        hmoved h.allowed (forall_mem_cons.mpr ⟨hsafe.moved hmoved h.allowed, h.passed⟩)
      exact ⟨hpassed, fun hundo => hundone hundo.restore⟩

/-- Neither the target nor the replacement is a backup, and the replacement is no letter. -/
theorem Installable.names (h : Installable before generations targetName temporaryName) :
    ¬ IsBackup targetName ∧ ¬ IsBackup temporaryName ∧
      temporaryName ∉ generations.map ArchiveFileName.fileName := by
  obtain ⟨target, htarget, hname⟩ := mem_map.mp h.target
  refine ⟨fun hbackup => ?_, fun hbackup => hbackup.not_isStaging h.staging, fun hmem => ?_⟩
  · have hparse := h.letters target htarget
    rw [hname, hbackup.parse] at hparse
    cases hparse
  · obtain ⟨letter, hletter, hname⟩ := mem_map.mp hmem
    have hparse := h.letters letter hletter
    rw [hname, h.staging.parse] at hparse
    cases hparse

def withReplacement (directory : Directory) (targetName temporaryName : String) (staged : ArchiveFile) :
    Directory :=
  Finmap.insert targetName staged (directory.erase temporaryName)

/-- After the replacement was renamed, the target is under its backup name if it had bytes. -/
theorem Progress.installed
    (h : Progress before generations targetName generations retired volume base)
    (hinstallable : Installable before generations targetName temporaryName)
    (staged : ArchiveFile) :
    Moved (withReplacement base targetName temporaryName staged) retired.renamed
      (withReplacement volume.directory targetName temporaryName staged) ∧
    Safe before generations targetName (withReplacement base targetName temporaryName staged) := by
  obtain ⟨htarget, htemporary, hletter⟩ := hinstallable.names
  obtain ⟨-, hmoves⟩ := h.lookup_other hletter htemporary
  have hmovesTarget : ∀ move ∈ retired.renamed, move.1 ≠ targetName ∧ move.2 ≠ targetName := by
    intro move hmove
    obtain ⟨hbackup, hother⟩ := h.allowed move hmove
    exact ⟨hother, fun heq => htarget (heq ▸ hbackup)⟩
  refine ⟨(h.moved.erase hmoves).insert staged hmovesTarget, ?_, ?_⟩
  · exact Finmap.mem_insert.mpr (.inl rfl)
  · intro generation hgeneration file hfile hbytes
    have hname : generation.fileName ≠ temporaryName := by
      intro heq
      exact hletter (heq ▸ List.mem_map_of_mem hgeneration)
    by_cases hsame : generation.fileName = targetName
    · -- the target has bytes, so that it has a backup
      have hbacked := h.backedUp
      cases htargetBackup : retired.targetBackup with
      | none =>
        refine absurd ⟨hinstallable.target, ?_⟩ (h.backup_iff.mp htargetBackup)
        rw [← hsame, Directory.isEmptyFile, hfile]
        exact decide_eq_false hbytes
      | some backup =>
        rw [htargetBackup] at hbacked
        obtain ⟨original, horiginal, hbackup, -, rfl⟩ := hbacked
        rw [hsame, horiginal] at hfile
        obtain rfl := Option.some.inj hfile
        refine ⟨backup, .inr hbackup, ?_⟩
        rw [withReplacement, lookup_insert_of_ne, lookup_erase_ne,
          lookup_insert]
        · exact fun heq => htemporary (heq ▸ hbackup)
        · exact fun heq => htarget (heq ▸ hbackup)
    · refine ⟨generation.fileName, .inl rfl, ?_⟩
      rw [withReplacement, lookup_insert_of_ne _ hsame, lookup_erase_ne hname,
        h.backedUp.lookup (hinstallable.present generation hgeneration), hfile]

/-- When the replacement cannot be opened, the target is restored if it had bytes. -/
theorem Progress.notOpened
    (h : Progress before generations targetName generations retired volume base)
    (hinstallable : Installable before generations targetName temporaryName)
    (staged : ArchiveFile) :
    (∀ directory ∈ (environment.rollBack retired.renamed (environment.restoreTarget targetName
        retired.targetBackup (volume.pass
          (withReplacement volume.directory targetName temporaryName staged)))).passed,
      Safe before generations targetName directory) ∧
    (environment.Undoes → (RolledBack before generations (environment.rollBack retired.renamed
        (environment.restoreTarget targetName retired.targetBackup (volume.pass
          (withReplacement volume.directory targetName temporaryName staged)))).directory ↔
      (before.isEmptyFile targetName = true → before.lookup targetName = some staged))) := by
  obtain ⟨htarget, htemporary, hletter⟩ := hinstallable.names
  obtain ⟨hmoved, hsafe⟩ := h.installed hinstallable staged
  have hpassed : ∀ directory ∈ (volume.pass
      (withReplacement volume.directory targetName temporaryName staged)).passed,
      Safe before generations targetName directory :=
    forall_mem_cons.mpr ⟨hsafe.moved hmoved h.allowed, h.passed⟩
  have hbacked := h.backedUp
  cases htargetBackup : retired.targetBackup with
  | none =>
    rw [htargetBackup] at hbacked
    obtain rfl : base = before := hbacked
    obtain ⟨hbetween, hundone⟩ := @rollBack_safe environment base _
      (volume.pass (withReplacement volume.directory targetName temporaryName staged)) generations
      targetName retired.renamed hsafe hmoved h.allowed hpassed
    refine ⟨hbetween, fun hundo => ?_⟩
    have hempty : base.isEmptyFile targetName = true := by
      have := h.backup_iff.mp htargetBackup
      exact Bool.eq_true_of_not_eq_false fun hbytes => this ⟨hinstallable.target, hbytes⟩
    rw [InstallEnvironment.restoreTarget, hundone hundo.restore]
    constructor
    · rintro ⟨hletters, -⟩ -
      obtain ⟨target, hmem, hname⟩ := mem_map.mp hinstallable.target
      have hsame := hletters target hmem
      rw [hname, withReplacement, lookup_insert] at hsame
      exact hsame.symm
    · intro hsame
      constructor
      · intro generation hgeneration
        by_cases hname : generation.fileName = targetName
        · rw [hname, withReplacement, lookup_insert, hsame hempty]
        · rw [withReplacement, lookup_insert_of_ne _ hname, lookup_erase_ne]
          exact fun heq => hletter (heq ▸ List.mem_map_of_mem hgeneration)
      · intro name hbackup hmem
        rcases Finmap.mem_insert.mp hmem with rfl | hmem
        · exact absurd hbackup htarget
        · exact (Finmap.mem_erase.mp hmem).2
  | some backup =>
    rw [htargetBackup] at hbacked
    obtain ⟨original, horiginal, hbackup, hnew, rfl⟩ := hbacked
    have hbackupTarget : backup ≠ targetName := by
      rintro rfl
      exact htarget hbackup
    have hmoves : ∀ move ∈ retired.renamed, move.1 ≠ backup ∧ move.2 ≠ backup :=
      h.targetBackup_apart hinstallable htargetBackup
    have hfound : (withReplacement volume.directory targetName temporaryName staged).lookup backup =
        some original := by
      rw [hmoved.others backup fun move hmove =>
        ⟨(hmoves move hmove).1.symm, (hmoves move hmove).2.symm⟩, withReplacement,
        lookup_insert_of_ne _ hbackupTarget, lookup_erase_ne, lookup_insert]
      rintro rfl
      exact htemporary hbackup
    have hmovesTarget : ∀ move ∈ retired.renamed, move.1 ≠ targetName ∧ move.2 ≠ targetName := by
      intro move hmove
      obtain ⟨hmoveBackup, hother⟩ := h.allowed move hmove
      exact ⟨hother, fun heq => htarget (heq ▸ hmoveBackup)⟩
    have hrestored := (hmoved.erase hmoves).insert original hmovesTarget
    have hrolledBack : RolledBack before generations (Finmap.insert targetName original
        ((withReplacement (before.insert backup original) targetName temporaryName staged).erase
          backup)) := by
      constructor
      · intro generation hgeneration
        by_cases hname : generation.fileName = targetName
        · rw [hname, lookup_insert, horiginal]
        · have hpresent := hinstallable.present generation hgeneration
          have hbackupLetter : generation.fileName ≠ backup := fun heq => hnew (heq ▸ hpresent)
          rw [lookup_insert_of_ne _ hname, lookup_erase_ne hbackupLetter,
            withReplacement, lookup_insert_of_ne _ hname, lookup_erase_ne,
            lookup_insert_of_ne _ hbackupLetter]
          exact fun heq => hletter (heq ▸ List.mem_map_of_mem hgeneration)
      · intro name hname hmem
        rcases Finmap.mem_insert.mp hmem with rfl | hmem
        · exact absurd hname htarget
        obtain ⟨hother, hmem⟩ := Finmap.mem_erase.mp hmem
        rcases Finmap.mem_insert.mp hmem with rfl | hmem
        · exact absurd hname htarget
        · exact (Finmap.mem_insert.mp (Finmap.mem_erase.mp hmem).2).resolve_left hother
    have hsafe' := safe_of_letters hinstallable hrolledBack.1
    have hbytes : before.isEmptyFile targetName = false := by
      by_contra hempty
      have hnone := h.backup_iff.mpr fun hboth => hempty hboth.2
      rw [htargetBackup] at hnone
      cases hnone
    rw [InstallEnvironment.restoreTarget]
    rcases @perform_cases environment (volume.pass (withReplacement volume.directory targetName
      temporaryName staged)) .restoreTarget backup (rename? backup targetName) _
      (rename?_eq hfound) with ⟨error, hrefusal, hrun⟩ | ⟨-, hrun⟩
    · rw [hrun]
      obtain ⟨hbetween, -⟩ := @rollBack_safe environment before _ (Volume.pass (volume.pass
        (withReplacement volume.directory targetName temporaryName staged))
        (withReplacement volume.directory targetName temporaryName staged)) generations targetName
        retired.renamed hsafe hmoved h.allowed
        (forall_mem_cons.mpr ⟨hsafe.moved hmoved h.allowed, hpassed⟩)
      refine ⟨hbetween, fun hundo => ?_⟩
      rw [hundo.restoreTarget] at hrefusal
      cases hrefusal
    · rw [hrun]
      obtain ⟨hbetween, hundone⟩ := @rollBack_safe environment before _ (Volume.pass (volume.pass
        (withReplacement volume.directory targetName temporaryName staged))
        (Finmap.insert targetName original
          ((withReplacement volume.directory targetName temporaryName staged).erase backup)))
        generations targetName retired.renamed hsafe' hrestored h.allowed
        (forall_mem_cons.mpr ⟨hsafe'.moved hrestored h.allowed, hpassed⟩)
      refine ⟨hbetween, fun hundo => iff_of_true (hundone hundo.restore ▸ hrolledBack) fun hempty => ?_⟩
      rw [hbytes] at hempty
      cases hempty

/-- Without a letter that is refused, only the replacement of an empty target is not undone. -/
theorem irreversible_of_accepted
    (haccepted : ∀ other ∈ generations, ¬ environment.Refuses before targetName other) :
    environment.Irreversible before generations targetName temporaryName ↔
      environment.refusal .install = none ∧ ∃ staged error,
        before.lookup temporaryName = some staged ∧
        environment.reopen targetName (before.insert targetName staged) = .error error ∧
        ¬ (before.isEmptyFile targetName = true → before.lookup targetName = some staged) := by
  constructor
  · intro hirreversible
    cases hirreversible with
    | behindTarget front back generation target split accepted refused =>
      exact absurd refused (haccepted generation (by simp [split]))
    | brokenCopy front back target split accepted refused =>
      exact absurd refused (haccepted target (by simp [split]))
    | emptyTarget staged error _ installed found fails empty different =>
      exact ⟨installed, staged, error, found, fails, fun hsame => different (hsame empty)⟩
  · rintro ⟨hinstall, staged, error, hfound, hfails, hnot⟩
    obtain ⟨hempty, hdifferent⟩ := Classical.not_imp.mp hnot
    exact .emptyTarget staged error haccepted hinstall hfound hfails hempty hdifferent

/-- Opening looks only at the file of the target. -/
theorem reopen_congr {directory' : Directory}
    (h : directory.lookup targetName = directory'.lookup targetName) :
    environment.reopen targetName directory = environment.reopen targetName directory' := by
  rw [InstallEnvironment.reopen, InstallEnvironment.reopen, Directory.openArchive,
    Directory.openArchive, h]

/-- An installation is safe at every moment, and its error leaves the letters as they were unless
the failure is one of those that are not undone. -/
theorem install_spec (hinstallable : Installable before generations targetName temporaryName) :
    (∀ directory ∈ (environment.installRecoveredArchive before generations targetName
        temporaryName).2.passed, Safe before generations targetName directory) ∧
    (environment.Irreversible before generations targetName temporaryName →
      ∃ error, (environment.installRecoveredArchive before generations targetName
        temporaryName).1 = .error error) ∧
    (environment.Undoes → ∀ error, (environment.installRecoveredArchive before generations
        targetName temporaryName).1 = .error error →
      (RolledBack before generations (environment.installRecoveredArchive before generations
          targetName temporaryName).2.directory ↔
        ¬ environment.Irreversible before generations targetName temporaryName)) := by
  have hstart : Progress before generations targetName [] ⟨[], none⟩ ⟨before, []⟩ before :=
    ⟨rfl, moved_nil_iff.mpr rfl, (by rintro _ ⟨⟩), (by rintro _ ⟨⟩), (by rintro _ ⟨⟩), iff_of_true rfl fun h => List.not_mem_nil h.1⟩
  have hend := @retireLetters_spec environment before before ⟨before, []⟩ generations targetName
    temporaryName ⟨[], none⟩ [] generations hinstallable hstart rfl (by rintro _ ⟨⟩)
  obtain ⟨htarget, htemporary, hletter⟩ := hinstallable.names
  rw [InstallEnvironment.installRecoveredArchive]
  generalize environment.retireLetters targetName generations ⟨[], none⟩ ⟨before, []⟩ = result
    at hend ⊢
  cases hend with
  | refused error retired volume front back generation split accepted refused passed undone =>
    refine ⟨passed, fun _ => ⟨error, rfl⟩, fun hundo _ _ => ?_⟩
    rw [irreversible_of_refused split accepted refused, not_not]
    exact undone hundo.restore
  | retired retired volume base accepted progress =>
    dsimp only
    have hhere := (progress.safe hinstallable).moved progress.moved progress.allowed
    have hagain : Progress before generations targetName generations retired
        (volume.pass volume.directory) base :=
      { progress with passed := forall_mem_cons.mpr ⟨hhere, progress.passed⟩ }
    obtain ⟨hpassed, hundone⟩ := @Progress.notInstalled environment before base
      (volume.pass volume.directory) generations targetName temporaryName retired hagain hinstallable
    obtain ⟨hstaged, -⟩ := progress.lookup_other hletter htemporary
    rw [irreversible_of_accepted accepted]
    cases hinstall : environment.refusal .install with
    | some refusal =>
      rw [perform_refused hinstall]
      refine ⟨hpassed, ?_, fun hundo error _ => iff_of_true ?_ ?_⟩
      · rintro ⟨⟨⟩, -⟩
      · rw [hundone hundo]
        exact rolledBack_refl before generations
      · rintro ⟨⟨⟩, -⟩
    | none =>
      cases hfound : before.lookup temporaryName with
      | none =>
        have hmissing : rename? temporaryName targetName volume.directory = none := by
          rw [rename?, hstaged, hfound]
          rfl
        rw [InstallEnvironment.perform, hinstall]
        dsimp only
        rw [hmissing]
        refine ⟨hpassed, ?_, fun hundo error _ => iff_of_true ?_ ?_⟩
        · rintro ⟨-, staged, error, hnone, -⟩
          cases hnone
        · rw [hundone hundo]
          exact rolledBack_refl before generations
        · rintro ⟨-, staged, error, hnone, -⟩
          cases hnone
      | some staged =>
        rw [perform_done hinstall (rename?_eq (hstaged.trans hfound))]
        obtain ⟨hmoved, hsafe⟩ := progress.installed hinstallable staged
        obtain ⟨hbetween, hundoneOpen⟩ := @Progress.notOpened environment before base volume
          generations targetName temporaryName retired progress hinstallable staged
        have hreopen : environment.reopen targetName
            (volume.pass (withReplacement volume.directory targetName temporaryName staged)).directory =
            environment.reopen targetName (before.insert targetName staged) := by
          refine reopen_congr ?_
          rw [lookup_insert]
          exact lookup_insert _
        dsimp only
        rw [show Finmap.insert targetName staged (Finmap.erase temporaryName volume.directory) =
          withReplacement volume.directory targetName temporaryName staged from rfl, hreopen]
        cases hopened : environment.reopen targetName (before.insert targetName staged) with
        | ok reader =>
          refine ⟨?_, ?_, (by rintro _ _ ⟨⟩)⟩
          · exact forall_mem_cons.mpr
              ⟨hsafe.moved hmoved progress.allowed, progress.passed⟩
          · rintro ⟨-, staged', error, hstaged', hfails, -⟩
            obtain rfl := Option.some.inj hstaged'
            rw [hopened] at hfails
            cases hfails
        | error failure =>
          refine ⟨hbetween, fun _ => ⟨failure, rfl⟩, fun hundo error _ => ?_⟩
          rw [hundoneOpen hundo]
          constructor
          · rintro hsame ⟨-, staged', error', hstaged', -, hnot⟩
            obtain rfl := Option.some.inj hstaged'
            exact hnot hsame
          · intro hnot hempty
            by_contra hdifferent
            exact hnot ⟨rfl, staged, failure, rfl, hopened, fun hsame => hdifferent (hsame hempty)⟩

end

/-- An error of an installation leaves every letter under its name and no new backup, as long as
the steps that undo are not refused, and at every moment an archive is there under the target name
and no letter with bytes is lost. -/
def RollsBackSafely (environment : InstallEnvironment) (before : Directory)
    (generations : List ArchiveFileName) (targetName temporaryName : String) : Prop :=
  (environment.Undoes → ∀ error,
    (environment.installRecoveredArchive before generations targetName temporaryName).1 =
      .error error →
    RolledBack before generations
      (environment.installRecoveredArchive before generations targetName temporaryName).2.directory) ∧
  ∀ directory ∈
    (environment.installRecoveredArchive before generations targetName temporaryName).2.passed,
    Safe before generations targetName directory

/-- An installation rolls back but for a letter that cannot be retired behind a target with bytes,
a copy of the target that breaks off, and a replacement of an empty target that cannot be opened. -/
theorem rollsBackSafely_iff {environment : InstallEnvironment} {before : Directory}
    {generations : List ArchiveFileName} {targetName temporaryName : String}
    (h : Installable before generations targetName temporaryName) :
    RollsBackSafely environment before generations targetName temporaryName ↔
      ¬ (environment.Undoes ∧
        environment.Irreversible before generations targetName temporaryName) := by
  obtain ⟨hpassed, hfails, hundone⟩ := @install_spec environment before generations targetName
    temporaryName h
  constructor
  · rintro ⟨hrollsBack, -⟩ ⟨hundo, hirreversible⟩
    obtain ⟨error, herror⟩ := hfails hirreversible
    exact (hundone hundo error herror).mp (hrollsBack hundo error herror) hirreversible
  · intro hnot
    refine ⟨fun hundo error herror => ?_, hpassed⟩
    exact (hundone hundo error herror).mpr fun hirreversible => hnot ⟨hundo, hirreversible⟩

/-! Two letters with bytes and an empty one, and a replacement. -/

def stagedDirectory : Directory :=
  damagedDirectory.insert "data00000a.tar.recovering" (.readable (bodyBytes [damagedBulk 2]))

theorem installable_staged : Installable stagedDirectory damagedLetters "data00000a.tar"
    "data00000a.tar.recovering" where
  letters := by decide +kernel
  distinct := by decide
  present := by
    obtain ⟨hfirst, hsecond, hthird⟩ := lookup_damagedDirectory
    have hmem : ∀ name ∈ damagedListing, name ∈ stagedDirectory := by
      intro name hname
      refine Finmap.mem_insert.mpr (.inr ?_)
      exact (damagedDirectory_listedAs.mem name).mp hname
    intro generation hgeneration
    refine hmem generation.fileName ?_
    exact List.mem_map_of_mem (f := ArchiveFileName.fileName) hgeneration
  target := by decide
  staging := ⟨"data00000a.tar", by decide +kernel, rfl⟩

/-- The second letter cannot be renamed. -/
def stuckLetter : InstallEnvironment where
  refusal step := if step = .retire "data00000b.tar" then some (.inputOutput "read-only") else none
  copyLeaves := none

theorem rollsBackSafely_staged :
    RollsBackSafely stuckLetter stagedDirectory damagedLetters "data00000a.tar"
      "data00000a.tar.recovering" ↔
    ¬ (stuckLetter.Undoes ∧ stuckLetter.Irreversible stagedDirectory damagedLetters
      "data00000a.tar" "data00000a.tar.recovering") :=
  rollsBackSafely_iff installable_staged

/-- A letter that cannot be renamed leaves the backup of the target. -/
theorem stuck_letter_leaves_backup :
    ¬ ∀ environment before generations targetName temporaryName,
      Installable before generations targetName temporaryName →
      RollsBackSafely environment before generations targetName temporaryName := by
  intro h
  have hsafely := h stuckLetter stagedDirectory damagedLetters "data00000a.tar"
    "data00000a.tar.recovering" installable_staged
  obtain ⟨-, hfails, hundone⟩ := @install_spec stuckLetter stagedDirectory damagedLetters
    "data00000a.tar" "data00000a.tar.recovering" installable_staged
  have hundoes : stuckLetter.Undoes := ⟨fun _ => rfl, rfl, rfl⟩
  have hlookup : ∀ name ∈ damagedListing,
      stagedDirectory.isEmptyFile name = damagedDirectory.isEmptyFile name := by
    intro name hname
    rw [Directory.isEmptyFile, stagedDirectory, Finmap.lookup_insert_of_ne]
    · rfl
    · rintro rfl
      exact absurd hname (by decide)
  obtain ⟨hfirst, hsecond, -⟩ := isEmptyFile_damagedDirectory
  have hirreversible : stuckLetter.Irreversible stagedDirectory damagedLetters "data00000a.tar"
      "data00000a.tar.recovering" := by
    refine .behindTarget [⟨"data00000a.tar", 0, 97⟩] [⟨"data00000c.tar", 0, 99⟩]
      ⟨"data00000b.tar", 0, 98⟩ ⟨"data00000a.tar", 0, 97⟩ rfl ?_ ⟨?_, ?_⟩ List.mem_cons_self rfl ?_
    · intro other hother hrefuses
      obtain rfl := List.mem_singleton.mp hother
      exact hrefuses.2.1 rfl
    · exact (hlookup _ (by decide)).trans hsecond
    · rintro ⟨⟩
    · exact (hlookup _ (by decide)).trans hfirst
  obtain ⟨error, herror⟩ := hfails hirreversible
  exact (hundone hundoes error herror).mp (hsafely.1 hundoes error herror) hirreversible

end Installation

end Froe
