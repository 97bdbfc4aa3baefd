import Froe.Lib.Checked
import Froe.Store.Directory
import Mathlib.Data.Prod.Lex
import Mathlib.Data.List.MinMax
import Mathlib.Data.String.Basic

/-!
# Whether an archive is worth rewriting

After the mark, every archive is removed, rewritten under the next letter or left
alone.  Removing the selected letter would promote any other letter of its number,
and a rewrite needs the next letter free, so both look at the names in the
directory first.
-/

namespace Froe

open Except (bind_ok_iff)

open ArchiveFileName
open Checked (checkedAdd)

/-- Which archives a sweep is willing to rewrite. -/
inductive ArchiveRewritePolicy where
  /-- Whenever any entry is reclaimable. -/
  | everyReclaimableArchive
  /-- When the survivors occupy less than three quarters of the entry bytes. -/
  | oakSavingsGate
deriving DecidableEq

/-- What becomes of an archive. -/
inductive PlannedArchiveSweep where
  | remove (fileName : String) (segmentCount fileBytes : Nat)
  | rewrite (fileName replacementName : String) (segmentCount eligibleEntryBytes : Nat)
  | deferredBySavings (fileName : String) (segmentCount eligibleEntryBytes : Nat)
  | deferredAtLastGeneration (fileName : String) (segmentCount eligibleEntryBytes : Nat)
  | blockedByOccupiedGeneration (fileName occupiedName : String)
      (segmentCount eligibleEntryBytes : Nat)
deriving DecidableEq

/-- Whether the plan removes or rewrites a file. -/
def PlannedArchiveSweep.changesDisk : PlannedArchiveSweep → Bool
  | .remove .. | .rewrite .. => true
  | .deferredBySavings .. | .deferredAtLastGeneration .. | .blockedByOccupiedGeneration .. => false

/-- The bytes an entry occupies: its header, its data and the padding. -/
def segmentEntryDiskBytes (archiveName : String) (size : Nat) : Result Nat :=
  match (checkedAdd 512 size).bind (checkedAdd · (paddingSize size)) with
  | some occupied => .ok occupied
  | none => invalid s!"segment-entry size accounting overflow in {archiveName}"

/-- What the entries of an archive occupy before and after the sweep. -/
structure EntryAccount where
  beforeEntryBytes : Nat
  afterEntryBytes : Nat
  eligibleEntryBytes : Nat
  reclaimableCount : Nat

def addEntryBytes (details : String) (total occupied : Nat) : Result Nat :=
  match checkedAdd total occupied with
  | some sum => .ok sum
  | none => invalid details

/-- Adds an entry to an account. -/
def accountEntry (archiveName : String) (reclaimable : Finset SegmentIdentifier)
    (account : EntryAccount) (entry : SegmentIndexEntry) : Result EntryAccount := do
  let occupied ← segmentEntryDiskBytes archiveName entry.size.toNat
  let before ← addEntryBytes s!"archive size accounting overflow in {archiveName}"
    account.beforeEntryBytes occupied
  if entry.segmentIdentifier ∈ reclaimable then do
    let eligible ← addEntryBytes s!"cleanup size accounting overflow in {archiveName}"
      account.eligibleEntryBytes occupied
    return { account with
      beforeEntryBytes := before
      eligibleEntryBytes := eligible
      reclaimableCount := account.reclaimableCount + 1 }
  else do
    let after ← addEntryBytes s!"archive size accounting overflow in {archiveName}"
      account.afterEntryBytes occupied
    return { account with
      beforeEntryBytes := before
      afterEntryBytes := after }

/-- A size in the domain of a signed 32-bit integer. -/
def signedSize (details : String) (bytes : Nat) : Result Int :=
  if bytes ≤ 2 ^ 31 - 1 then .ok bytes else invalid details

/-- The sweep threshold: three quarters with a wrapping multiplication and a division that
truncates. -/
def oakSweepThreshold (beforeSize : Int) : Int := ((beforeSize * 3).bmod (2 ^ 32)).tdiv 4

/-- Whether a rewrite saves too little. -/
def oakSweepDefers (beforeEntryBytes afterEntryBytes : Nat) (archive : String) : Result Bool := do
  let beforeSize ← signedSize
    s!"archive entry bytes exceed Java's signed-i32 domain in {archive}" beforeEntryBytes
  let afterSize ← signedSize
    s!"surviving entry bytes exceed Java's signed-i32 domain in {archive}" afterEntryBytes
  return decide (oakSweepThreshold beforeSize ≤ afterSize)

/-- Another name of the archive number, the newest one.  `absentNames` are removed before
the plan is carried out. -/
def alternateGenerationResidue (listing : List String) (active : ArchiveFileName)
    (absentNames : Finset String) : Option String :=
  let candidates := (parsedNames ((listArchiveFileNames listing).filter (· ∉ absentNames))).filter
    fun candidate => candidate.archiveNumber = active.archiveNumber ∧
      candidate.fileName ≠ active.fileName
  (candidates.argmax fun candidate => toLex (candidate.fileGeneration, candidate.fileName)).map
    ArchiveFileName.fileName

/-- The first free staging name. -/
def nextArchiveStagingName (directory : Directory) (replacementName : String) : Result String :=
  let candidates := (List.range 1000).map fun counter =>
    replacementName ++ ".cleaning." ++ Utf8.ascii (Digits.padded 10 3 counter)
  match candidates.find? fun candidate => (directory.lookup candidate).isNone with
  | some candidate => .ok candidate
  | none => invalid s!"all 1000 exclusive staging names for archive {replacementName} are occupied"

/-- The savings gate, which only its own policy evaluates. -/
def deferredBySavings (rewritePolicy : ArchiveRewritePolicy) (account : EntryAccount)
    (archive : String) : Result Bool :=
  if rewritePolicy = .oakSavingsGate then
    oakSweepDefers account.beforeEntryBytes account.afterEntryBytes archive
  else .ok false

/-- Plans a rewrite, when its name is free. -/
def planRewrite (directory : Directory) (name : ArchiveFileName) (account : EntryAccount)
    (absentNames : Finset String) : Result (Option PlannedArchiveSweep) :=
  if 122 ≤ name.fileGeneration then
    .ok (some (.deferredAtLastGeneration name.fileName account.reclaimableCount
      account.eligibleEntryBytes))
  else
    let replacementName := format name.archiveNumber (name.fileGeneration + 1)
    if replacementName ∉ absentNames ∧ (directory.lookup replacementName).isSome then
      .ok (some (.blockedByOccupiedGeneration name.fileName replacementName
        account.reclaimableCount account.eligibleEntryBytes))
    else do
      -- an exhausted staging namespace is found out before the first archive is swept
      let _ ← nextArchiveStagingName directory replacementName
      return some (.rewrite name.fileName replacementName account.reclaimableCount
        account.eligibleEntryBytes)

/-- Plans the sweep of an archive. -/
def planArchiveSweep (directory : Directory) (listing : List String) (archive : TarArchiveReader)
    (reclaimable : Finset SegmentIdentifier) (rewritePolicy : ArchiveRewritePolicy)
    (absentNames : Finset String) : Result (Option PlannedArchiveSweep) :=
  match parse archive.fileName, archive.index with
  | some name, some index => do
    let account ← index.entries.foldlM (accountEntry archive.fileName reclaimable) ⟨0, 0, 0, 0⟩
    if account.reclaimableCount = 0 then return none
    else if account.reclaimableCount = index.entries.length then
      match alternateGenerationResidue listing name absentNames with
      | some occupiedName =>
        return some (.blockedByOccupiedGeneration name.fileName occupiedName
          account.reclaimableCount account.eligibleEntryBytes)
      | none =>
        return some (.remove name.fileName account.reclaimableCount archive.bytes.length)
    else do
      if ← deferredBySavings rewritePolicy account archive.fileName then
        return some (.deferredBySavings name.fileName account.reclaimableCount
          account.eligibleEntryBytes)
      else planRewrite directory name account absentNames
  | _, _ => .ok none

/-! ## What a plan says -/

section Plan

variable {directory : Directory} {listing : List String} {archive : TarArchiveReader}
  {reclaimable : Finset SegmentIdentifier} {rewritePolicy : ArchiveRewritePolicy}
  {absentNames : Finset String} {plan : PlannedArchiveSweep}

variable {account : EntryAccount} {name : ArchiveFileName}

theorem reclaimableCount_of_fold {archiveName : String} {entries : List SegmentIndexEntry}
    {account' : EntryAccount}
    (h : entries.foldlM (accountEntry archiveName reclaimable) account = .ok account') :
    account'.reclaimableCount = account.reclaimableCount +
      (entries.filter fun entry => entry.segmentIdentifier ∈ reclaimable).length := by
  induction entries generalizing account with
  | nil =>
    cases h
    rfl
  | cons entry entries ih =>
    obtain ⟨next, hentry, hrest⟩ := Except.foldlM_cons_ok_iff.mp h
    rw [ih hrest, List.filter_cons]
    rw [accountEntry] at hentry
    obtain ⟨occupied, -, hentry⟩ := bind_ok_iff.mp hentry
    obtain ⟨before, -, hentry⟩ := bind_ok_iff.mp hentry
    by_cases hmem : entry.segmentIdentifier ∈ reclaimable
    · rw [if_pos hmem] at hentry
      obtain ⟨eligible, -, hentry⟩ := bind_ok_iff.mp hentry
      rw [← Except.pure_ok_iff.mp hentry, if_pos (decide_eq_true hmem), List.length_cons]
      exact Nat.add_right_comm ..
    · rw [if_neg hmem] at hentry
      obtain ⟨after, -, hentry⟩ := bind_ok_iff.mp hentry
      rw [← Except.pure_ok_iff.mp hentry, if_neg (by simpa using hmem)]

/-- No other name of the number is in the directory. -/
theorem alternateGenerationResidue_eq_none {active : ArchiveFileName}
    (h : directory.ListedAs listing) (hnone : alternateGenerationResidue listing active ∅ = none) (hparse : parse name.fileName = some name)
    (hmem : name.fileName ∈ directory) (hnumber : name.archiveNumber = active.archiveNumber) :
    name.fileName = active.fileName := by
  by_contra hne
  have hcandidates := List.argmax_eq_none.mp (Option.map_eq_none_iff.mp hnone)
  rw [List.filter_eq_nil_iff] at hcandidates
  refine hcandidates name ?_ (decide_eq_true ⟨hnumber, hne⟩)
  rw [parsedNames, List.mem_filterMap]
  refine ⟨name.fileName, List.mem_filter.mpr ⟨?_, by simp⟩, hparse⟩
  have harchive := (Directory.mem_archiveNames h).mpr ⟨hparse, hmem⟩
  rw [Directory.archiveNames, parsedNames, List.mem_filterMap] at harchive
  obtain ⟨fileName, hin, hsame⟩ := harchive
  obtain rfl := parse_fileName hsame
  exact hin

/-- The state of the directory in which a plan removes or rewrites an archive. -/
inductive PlanGround (directory : Directory) (name : ArchiveFileName) (index : SegmentIndex)
    (reclaimable : Finset SegmentIdentifier) : PlannedArchiveSweep → Prop where
  /-- Every entry is reclaimable, and the number has no other name. -/
  | remove {segmentCount fileBytes : Nat}
      (every : ∀ entry ∈ index.entries, entry.segmentIdentifier ∈ reclaimable)
      (alone : ∀ other : ArchiveFileName, parse other.fileName = some other →
        other.fileName ∈ directory → other.archiveNumber = name.archiveNumber →
          other.fileName = name.fileName) :
      PlanGround directory name index reclaimable
        (.remove name.fileName segmentCount fileBytes)
  /-- There is a next letter, and it is free. -/
  | rewrite {segmentCount eligibleEntryBytes : Nat} (letter : name.fileGeneration < 122)
      (free : format name.archiveNumber (name.fileGeneration + 1) ∉ directory) :
      PlanGround directory name index reclaimable
        (.rewrite name.fileName (format name.archiveNumber (name.fileGeneration + 1)) segmentCount
          eligibleEntryBytes)

theorem planRewrite_ground {index : SegmentIndex}
    (h : planRewrite directory name account ∅ = .ok (some plan)) (hacts : plan.changesDisk = true) :
    PlanGround directory name index reclaimable plan := by
  rw [planRewrite] at h
  split at h
  · cases h
    cases hacts
  · rename_i hletter
    dsimp only at h
    split at h
    · cases h
      cases hacts
    · rename_i hfree
      obtain ⟨staging, -, hplan⟩ := bind_ok_iff.mp h
      cases hplan
      refine .rewrite (Nat.lt_of_not_le hletter) ?_
      intro hmem
      refine hfree ⟨Finset.notMem_empty _, Finmap.lookup_isSome.mpr hmem⟩

/-- **What the planner has made sure of** when it removes or rewrites an archive. -/
theorem planArchiveSweep_ground (hlisted : directory.ListedAs listing)
    (h : planArchiveSweep directory listing archive reclaimable rewritePolicy ∅ = .ok (some plan))
    (hacts : plan.changesDisk = true) :
    ∃ name index, parse archive.fileName = some name ∧ archive.index = some index ∧
      PlanGround directory name index reclaimable plan := by
  rw [planArchiveSweep] at h
  split at h
  swap
  · cases h
  rename_i name index hname hindex
  refine ⟨name, index, hname, hindex, ?_⟩
  obtain ⟨account, haccount, h⟩ := bind_ok_iff.mp h
  split at h
  · cases h
  split at h
  · rename_i hevery
    split at h
    · cases h
      cases hacts
    · rename_i hnone
      cases h
      refine .remove ?_ ?_
      · rw [reclaimableCount_of_fold haccount, Nat.zero_add] at hevery
        intro entry hentry
        have hall := List.filter_eq_self.mp (List.filter_sublist.eq_of_length hevery)
        exact of_decide_eq_true (hall entry hentry)
      · intro other hparse hmem hnumber
        exact alternateGenerationResidue_eq_none hlisted hnone hparse hmem hnumber
  · obtain ⟨deferred, -, h⟩ := bind_ok_iff.mp h
    split at h
    · cases h
      cases hacts
    · exact planRewrite_ground h hacts

end Plan

end Froe
