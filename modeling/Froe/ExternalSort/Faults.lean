import Froe.ExternalSort.Damage
import Froe.ExternalSort.Interleaved

/-!
# Sorts whose files fail

The operations of a sort when the file system may refuse to create, write, sync, open
or read a file.  A removal never fails.  `Accounts` says which run files are there that
a sort has made; the sort drops those that it lists as spilled, and no others.
-/

namespace Froe

open SpillRecord

variable {Record : Type} [SpillRecord Record]

/-! ## The operations -/

/-- What the file system refuses during one call: a write by the number of the record, a read by
the bytes that are left. -/
structure FileFaults where
  create : RunPath → Option SortError
  write : RunPath → Nat → Option SortError
  sync : RunPath → Option SortError
  openFile : RunPath → Option SortError
  read : RunPath → Nat → Option SortError

namespace FileFaults

/-- No call fails. -/
def never : FileFaults :=
  ⟨fun _ => none, fun _ _ => none, fun _ => none, fun _ => none, fun _ _ => none⟩

/-- Writes records up to the first that fails, and syncs the file. -/
def encodeRecords (faults : FileFaults) (path : RunPath) :
    Nat → List (Except SortError Record) → Except SortError Unit × Bytes
  | _, [] =>
    match faults.sync path with
    | some error => (.error error, [])
    | none => (.ok (), [])
  | _, .error error :: _ => (.error error, [])
  | number, .ok record :: records =>
    let buffer := encode record
    if buffer.length < 2 ^ 32 then
      match faults.write path number with
      | some error => (.error error, [])
      | none =>
        let (result, bytes) := faults.encodeRecords path (number + 1) records
        (result, (Bytes.be 4 buffer.length).reverse ++ buffer ++ bytes)
    else (.error (.recordTooLong buffer.length), [])

/-- Creates a run file and writes its records. -/
def writeRun (faults : FileFaults) (disk : Disk) (path : RunPath)
    (records : List (Except SortError Record)) : Except SortError Unit × Disk :=
  match disk path with
  | some _ => (.error (.alreadyExists path), disk)
  | none =>
    match faults.create path with
    | some error => (.error error, disk)
    | none =>
      let (result, bytes) := faults.encodeRecords path 0 records
      (result, Function.update disk path (some bytes))

/-- Opens a run for reading. -/
def openCursor (faults : FileFaults) (disk : Disk) (path : RunPath) : Except SortError RunCursor :=
  match faults.openFile path with
  | some error => .error error
  | none => RunCursor.open disk path

/-- Reads the next record of a run. -/
def nextRecord (Record : Type) [SpillRecord Record] (faults : FileFaults) (cursor : RunCursor) :
    Except SortError (Option Record) × RunCursor :=
  match faults.read cursor.path (cursor.reader.getD []).length with
  | some error => (.error error, cursor)
  | none => cursor.nextRecord Record

/-- Adds one run to a pass. -/
def openRun (faults : FileFaults) (disk : Disk) (pass : SortedPass Record) (path : RunPath) :
    Except SortError (SortedPass Record) := do
  let cursor ← faults.openCursor disk path
  match faults.nextRecord Record cursor with
  | (.error error, _) => .error error
  | (.ok none, cursor) => return { pass with cursors := pass.cursors ++ [cursor] }
  | (.ok (some record), cursor) =>
    return { pass with
      heap := ⟨record, pass.cursors.length⟩ :: pass.heap
      cursors := pass.cursors ++ [cursor] }

/-- Opens all runs of a pass. -/
def openPass (faults : FileFaults) (disk : Disk) (runs : List RunPath) (owned : Bool) :
    Except SortError (SortedPass Record) :=
  runs.foldlM (faults.openRun disk) ⟨[], [], owned, [], false⟩

/-- Takes one record out of a pass. -/
def advance (faults : FileFaults) (pass : SortedPass Record) :
    Option (Except SortError Record × SortedPass Record × List RunPath) :=
  if pass.residentOnly then
    match pass.resident with
    | [] => none
    | record :: resident =>
      some (decode (encode record), { pass with resident := resident }, [])
  else
    match Merge.popLeast (Merge.Head.cmp SpillRecord.cmp) pass.heap with
    | none => none
    | some (head, heap) =>
      match pass.cursors[head.run]? with
      | none => none
      | some cursor =>
        match faults.nextRecord Record cursor with
        | (.ok (some next), cursor) =>
          some (.ok head.record,
            { pass with
              heap := ⟨next, head.run⟩ :: heap
              cursors := pass.cursors.set head.run cursor }, [])
        | (.ok none, cursor) =>
          if pass.unlinkExhausted then
            some (.ok head.record,
              { pass with
                heap := heap
                cursors := pass.cursors.set head.run { cursor with reader := none } },
              [cursor.path])
          else
            some (.ok head.record,
              { pass with
                heap := heap
                cursors := pass.cursors.set head.run cursor }, [])
        | (.error error, cursor) =>
          some (.error error,
            { pass with
              heap := heap
              cursors := pass.cursors.set head.run cursor }, [])

/-- What a pass gives, one item after the other. -/
def items (faults : FileFaults) : Nat → SortedPass Record → List (Except SortError Record)
  | 0, _ => []
  | fuel + 1, pass =>
    match faults.advance pass with
    | none => []
    | some (item, pass, _) => item :: faults.items fuel pass

/-- Writes the records in memory as a run. -/
def spill (faults : FileFaults) (sort : SortedRuns Record) (shared : SortShared) :
    Except SortError Unit × SortedRuns Record × SortShared :=
  if sort.resident.isEmpty then (.ok (), sort, shared)
  else
    let path := sort.location.runPath sort.nextRunNumber
    let drained := { sort with resident := [], nextRunNumber := sort.nextRunNumber + 1 }
    match faults.writeRun shared.disk path ((sortUnstable sort.resident).map .ok) with
    | (.error error, disk) => (.error error, drained, { shared with disk := disk })
    | (.ok (), disk) =>
      (.ok (), { drained with spilled := sort.spilled ++ [path], residentBytes := 0 },
        ⟨shared.budget.release sort.residentBytes, disk⟩)

/-- Takes a record in, and spills when the budget is used up. -/
def push (faults : FileFaults) (sort : SortedRuns Record) (shared : SortShared)
    (record : Record) : Except SortError Unit × SortedRuns Record × SortShared :=
  let size := residentSize record
  let sort := { sort with
    resident := sort.resident ++ [record]
    residentBytes := saturatingAdd sort.residentBytes size }
  let budget := shared.budget.charge size
  if budget.exceeded then faults.spill sort { shared with budget := budget }
  else (.ok (), sort, { shared with budget := budget })

/-- Merges a group of runs into one. -/
def mergeGroup (faults : FileFaults) (sort : SortedRuns Record) (disk : Disk)
    (group : List RunPath) : Except SortError RunPath × SortedRuns Record × Disk :=
  let path := sort.location.runPath sort.nextRunNumber
  let sort := { sort with nextRunNumber := sort.nextRunNumber + 1 }
  match (faults.openPass disk group false : Except SortError (SortedPass Record)) with
  | .error error => (.error error, sort, disk)
  | .ok merged =>
    match faults.writeRun disk path (faults.items merged.size merged) with
    | (.error error, disk) => (.error error, sort, disk)
    | (.ok (), disk) => (.ok path, sort, disk.removeAll group)

/-- Merges groups of runs one after the other. -/
def mergeGroups (faults : FileFaults) (sort : SortedRuns Record) (disk : Disk) :
    List (List RunPath) → Except SortError (List RunPath) × SortedRuns Record × Disk
  | [] => (.ok [], sort, disk)
  | group :: groups =>
    match faults.mergeGroup sort disk group with
    | (.error error, sort, disk) => (.error error, sort, disk)
    | (.ok path, sort, disk) =>
      match faults.mergeGroups sort disk groups with
      | (.error error, sort, disk) => (.error error, sort, disk)
      | (.ok paths, sort, disk) => (.ok (path :: paths), sort, disk)

/-- Merges until one pass can read all runs. -/
def reduceToFanIn (faults : FileFaults) (fanIn : Nat) :
    Nat → SortedRuns Record → Disk → List RunPath →
      Except SortError (List RunPath) × SortedRuns Record × Disk
  | 0, sort, disk, runs => (.ok runs, sort, disk)
  | fuel + 1, sort, disk, runs =>
    if fanIn < runs.length then
      match faults.mergeGroups sort disk (runs.chunks fanIn) with
      | (.error error, sort, disk) => (.error error, sort, disk)
      | (.ok reduced, sort, disk) => faults.reduceToFanIn fanIn fuel sort disk reduced
    else (.ok runs, sort, disk)

/-- Spills what is left and reduces the runs. -/
def intoRuns (faults : FileFaults) (fanIn : Nat) (sort : SortedRuns Record) (shared : SortShared) :
    Except SortError (List RunPath) × SortedRuns Record × SortShared :=
  match faults.spill sort shared with
  | (.error error, sort, shared) => (.error error, sort, shared)
  | (.ok (), sort, shared) =>
    let runs := sort.spilled
    match faults.reduceToFanIn fanIn runs.length { sort with spilled := [] } shared.disk runs with
    | (result, sort, disk) => (result, sort, { shared with disk := disk })

/-- Ends a sort with one pass. -/
def intoSorted (faults : FileFaults) (fanIn : Nat) (sort : SortedRuns Record)
    (shared : SortShared) : Except SortError (SortedPass Record) × SortShared :=
  match faults.intoRuns fanIn sort shared with
  | (.error error, sort, shared) => (.error error, sort.drop shared)
  | (.ok runs, sort, shared) => (faults.openPass shared.disk runs true, sort.drop shared)

/-- Ends a sort with runs that several passes can read. -/
def intoSortedPasses (faults : FileFaults) (fanIn : Nat) (sort : SortedRuns Record)
    (shared : SortShared) : Except SortError (SortedPasses Record) × SortShared :=
  match faults.intoRuns fanIn sort shared with
  | (.error error, sort, shared) => (.error error, sort.drop shared)
  | (.ok runs, sort, shared) => (.ok ⟨runs, []⟩, sort.drop shared)

end FileFaults

/-! ## Without faults -/

/-- Without a failing call the records are encoded as they are. -/
theorem encodeRecords_never (path : RunPath) (number : Nat)
    (records : List (Except SortError Record)) :
    FileFaults.never.encodeRecords path number records = encodeRecords records := by
  induction records generalizing number with
  | nil => rfl
  | cons item records ih =>
    cases item with
    | error error => rfl
    | ok record =>
      rw [FileFaults.encodeRecords, encodeRecords, ih]
      rfl

/-- Without a failing call a run is written as before. -/
theorem writeRun_never (disk : Disk) (path : RunPath) (records : List (Except SortError Record)) :
    FileFaults.never.writeRun disk path records = writeRun disk path records := by
  rw [FileFaults.writeRun, writeRun, encodeRecords_never]
  rfl

/-! ## Accounts -/

/-- Every file of the location that the start has not is among the runs of the sort. -/
structure Accounts (location : RunLocation) (start disk : Disk) (runs : List RunPath) : Prop where
  listed : ∀ path, location.Owns path → start path = none → disk path ≠ none → path ∈ runs
  kept : ∀ path, location.Owns path → start path ≠ none → disk path ≠ none
  made : ∀ path ∈ runs, location.Owns path ∧ start path = none ∧ disk path ≠ none
  nodup : runs.Nodup

/-- No run file is left that was not there at the start. -/
def LeavesNothing (location : RunLocation) (start disk : Disk) : Prop :=
  ∀ path, location.Owns path → start path = none → disk path = none

namespace Accounts

variable {location : RunLocation} {start disk : Disk} {runs : List RunPath}

/-- A sort begins with no runs. -/
theorem initial (location : RunLocation) (start : Disk) : Accounts location start start [] :=
  ⟨fun _ _ hstart hdisk => absurd hstart hdisk, fun _ _ hstart => hstart, nofun, .nil⟩

section

variable (h : Accounts location start disk runs)
include h

theorem perm {runs' : List RunPath}
    (hperm : runs.Perm runs') : Accounts location start disk runs' :=
  ⟨fun path howns hstart hdisk => hperm.subset (h.listed path howns hstart hdisk), h.kept,
    fun path hmem => h.made path (hperm.symm.subset hmem), hperm.nodup_iff.mp h.nodup⟩

/-- Only the files of the location count. -/
theorem congr {disk' : Disk}
    (hsame : ∀ path, location.Owns path → disk' path = disk path) :
    Accounts location start disk' runs where
  listed path howns hstart hdisk := by
    rw [hsame path howns] at hdisk
    exact h.listed path howns hstart hdisk
  kept path howns hstart := by
    rw [hsame path howns]
    exact h.kept path howns hstart
  made path hmem := by
    rw [hsame path (h.made path hmem).1]
    exact h.made path hmem
  nodup := h.nodup

/-- A file is created where none is. -/
theorem create {path : RunPath}
    (howns : location.Owns path) (hdisk : disk path = none) (bytes : Bytes) :
    Accounts location start (Function.update disk path (some bytes)) (path :: runs) where
  listed other hother hstart hleft := by
    by_cases heq : other = path
    · exact heq ▸ .head _
    · rw [Function.update_of_ne heq] at hleft
      exact .tail _ (h.listed other hother hstart hleft)
  kept other hother hstart := by
    by_cases heq : other = path
    · rw [heq, Function.update_self]
      nofun
    · rw [Function.update_of_ne heq]
      exact h.kept other hother hstart
  made other hmem := by
    by_cases heq : other = path
    · subst heq
      refine ⟨howns, by_contra fun hstart => h.kept other howns hstart hdisk, ?_⟩
      rw [Function.update_self]
      nofun
    · rw [Function.update_of_ne heq]
      exact h.made other (List.mem_of_ne_of_mem heq hmem)
  nodup := List.nodup_cons.mpr ⟨fun hmem => (h.made path hmem).2.2 hdisk, h.nodup⟩

end

/-- Removing runs takes them off the account. -/
theorem removeAll {group : List RunPath} (h : Accounts location start disk (group ++ runs)) :
    Accounts location start (disk.removeAll group) runs where
  listed path howns hstart hleft := by
    rw [Disk.removeAll] at hleft
    by_cases hmem : path ∈ group
    · rw [if_pos hmem] at hleft
      exact absurd rfl hleft
    · rw [if_neg hmem] at hleft
      exact (List.mem_append.mp (h.listed path howns hstart hleft)).resolve_left hmem
  kept path howns hstart := by
    rw [Disk.removeAll, if_neg]
    · exact h.kept path howns hstart
    · intro hmem
      exact hstart (h.made path (List.mem_append_left _ hmem)).2.1
  made path hmem := by
    rw [Disk.removeAll, if_neg]
    · exact h.made path (List.mem_append_right _ hmem)
    · intro hgroup
      exact (List.nodup_append.mp h.nodup).2.2 path hgroup path hmem rfl
  nodup := (List.nodup_append.mp h.nodup).2.1

/-- Nothing is left exactly when no run is on the account. -/
theorem leavesNothing_iff (h : Accounts location start disk runs) :
    LeavesNothing location start disk ↔ runs = [] := by
  constructor
  · intro hnothing
    refine List.eq_nil_iff_forall_not_mem.mpr fun path hmem => ?_
    obtain ⟨howns, hstart, hdisk⟩ := h.made path hmem
    exact hdisk (hnothing path howns hstart)
  · rintro rfl path howns hstart
    by_contra hdisk
    exact List.not_mem_nil (h.listed path howns hstart hdisk)

end Accounts

/-! ## Writing a run -/

/-- The file of a run cannot be created. -/
def FileFaults.Refuses (faults : FileFaults) (disk : Disk) (path : RunPath) : Prop :=
  disk path ≠ none ∨ faults.create path ≠ none

variable {faults : FileFaults} {path : RunPath} {records : List Record} {sort : SortedRuns Record}
  {shared shared' : SortShared} {rest : List RunPath} {fanIn : Nat} {error : SortError}

/-- A refused creation leaves the disk as it was. -/
theorem writeRun_refused {disk : Disk}
    (h : faults.Refuses disk path) (records : List (Except SortError Record)) :
    ∃ error, faults.writeRun disk path records = (.error error, disk) := by
  rw [FileFaults.writeRun]
  cases hdisk : disk path with
  | some bytes => exact ⟨_, rfl⟩
  | none =>
    cases hcreate : faults.create path with
    | some error => exact ⟨error, rfl⟩
    | none => exact (h.elim (· hdisk) (· hcreate)).elim

/-- Once the file is created it stays, whatever is written. -/
theorem writeRun_created {disk : Disk}
    (h : ¬ faults.Refuses disk path) (records : List (Except SortError Record)) :
    disk path = none ∧ ∃ result bytes,
      faults.writeRun disk path records = (result, Function.update disk path (some bytes)) := by
  rw [FileFaults.Refuses, not_or, not_not, not_not] at h
  rw [FileFaults.writeRun, h.1, h.2]
  exact ⟨rfl, _, _, rfl⟩

/-- A written run is the bytes of its records. -/
theorem encodeRecords_of_ok {number : Nat} {bytes : Bytes}
    (h : faults.encodeRecords path number (records.map .ok) = (.ok (), bytes)) :
    (∀ record ∈ records, Fits record) ∧ bytes = encodeRun records := by
  induction records generalizing number bytes with
  | nil =>
    rw [List.map_nil, FileFaults.encodeRecords] at h
    cases hsync : faults.sync path with
    | some error =>
      rw [hsync] at h
      cases h
    | none =>
      rw [hsync] at h
      exact ⟨nofun, (Prod.mk.inj h).2.symm⟩
  | cons record records ih =>
    rw [List.map_cons, FileFaults.encodeRecords] at h
    dsimp only at h
    by_cases hfits : (encode record).length < 2 ^ 32
    · rw [if_pos hfits] at h
      cases hwrite : faults.write path number with
      | some error =>
        rw [hwrite] at h
        cases h
      | none =>
        rw [hwrite] at h
        cases hrest : faults.encodeRecords path (number + 1) (records.map .ok) with
        | mk result rest =>
          rw [hrest] at h
          obtain ⟨rfl, rfl⟩ := Prod.mk.inj h
          obtain ⟨hall, rfl⟩ := ih hrest
          refine ⟨List.forall_mem_cons.mpr ⟨hfits, hall⟩, ?_⟩
          rw [encodeRun_cons, frame]
    · rw [if_neg hfits] at h
      cases h

/-- A run that was written holds its records. -/
theorem writeRun_of_ok {disk written : Disk} (h : faults.writeRun disk path (records.map .ok) = (.ok (), written)) :
    (∀ record ∈ records, Fits record) ∧ written path = some (encodeRun records) := by
  by_cases hrefused : faults.Refuses disk path
  · obtain ⟨error, hwrite⟩ := writeRun_refused hrefused (records.map .ok)
    rw [hwrite] at h
    cases h
  · rw [FileFaults.Refuses, not_or, not_not, not_not] at hrefused
    rw [FileFaults.writeRun, hrefused.1, hrefused.2] at h
    cases hencode : faults.encodeRecords path 0 (records.map .ok) with
    | mk result bytes =>
      rw [hencode] at h
      obtain ⟨rfl, rfl⟩ := Prod.mk.inj h
      obtain ⟨hall, rfl⟩ := encodeRecords_of_ok hencode
      exact ⟨hall, Function.update_self ..⟩

/-! ## What the operations leave -/

/-- The files behind an operation: those that the sort lists, and after a failure others, unless
the file of the spill could not be created. -/
def Outcome {α : Type} (location : RunLocation) (start : Disk) (refused : Prop) (disk : Disk)
    (spilled : List RunPath) : Except SortError α → Prop
  | .ok _ => Accounts location start disk spilled ∧ ¬ refused
  | .error _ => ∃ left, Accounts location start disk (spilled ++ left) ∧ (left = [] ↔ refused)

/-- The spill of a sort that has records in memory cannot create its file. -/
def FileFaults.SpillRefused (faults : FileFaults) (sort : SortedRuns Record) (disk : Disk) : Prop :=
  sort.resident ≠ [] ∧ faults.Refuses disk (sort.location.runPath sort.nextRunNumber)

/-- What a spill does to the account. -/
theorem spill_outcome (faults : FileFaults) {start : Disk} {sort : SortedRuns Record}
    {shared : SortShared} (h : Accounts sort.location start shared.disk sort.spilled) :
    ∃ result sort' shared', faults.spill sort shared = (result, sort', shared') ∧
      sort'.location = sort.location ∧
      Outcome sort.location start (faults.SpillRefused sort shared.disk) shared'.disk
        sort'.spilled result := by
  rw [FileFaults.spill]
  by_cases hresident : sort.resident = []
  · rw [if_pos (List.isEmpty_iff.mpr hresident)]
    exact ⟨_, _, _, rfl, rfl, h, fun hrefused => hrefused.1 hresident⟩
  · rw [if_neg (mt List.isEmpty_iff.mp hresident)]
    dsimp only
    by_cases hrefused : faults.Refuses shared.disk (sort.location.runPath sort.nextRunNumber)
    · obtain ⟨error, hwrite⟩ := writeRun_refused hrefused ((sortUnstable sort.resident).map .ok)
      rw [hwrite]
      refine ⟨_, _, _, rfl, rfl, [], ?_, iff_of_true rfl ⟨hresident, hrefused⟩⟩
      rw [List.append_nil]
      exact h
    · obtain ⟨hfree, result, bytes, hwrite⟩ :=
        writeRun_created hrefused ((sortUnstable sort.resident).map .ok)
      have hcreated := (h.create ⟨_, rfl⟩ hfree bytes).perm (List.perm_append_singleton _ _).symm
      rw [hwrite]
      cases result with
      | ok done => exact ⟨_, _, _, rfl, rfl, hcreated, fun hspill => hrefused hspill.2⟩
      | error error =>
        exact ⟨_, _, _, rfl, rfl, _, hcreated, iff_of_false (List.cons_ne_nil _ _) fun hspill =>
          hrefused hspill.2⟩

section

variable (faults : FileFaults) {start : Disk}

/-- What taking a record in does to the account. -/
theorem push_outcome (h : Accounts sort.location start shared.disk sort.spilled) (record : Record) :
    ∃ result sort' shared', faults.push sort shared record = (result, sort', shared') ∧
      sort'.location = sort.location ∧
      (result = .ok () ∧ Accounts sort.location start shared'.disk sort'.spilled ∨
        Outcome sort.location start
          (faults.Refuses shared.disk (sort.location.runPath sort.nextRunNumber)) shared'.disk
          sort'.spilled result) := by
  rw [FileFaults.push]
  split
  · obtain ⟨result, sort', shared', hspill, hlocation, houtcome⟩ :=
      @spill_outcome _ _ faults start
        { sort with
          resident := sort.resident ++ [record]
          residentBytes := saturatingAdd sort.residentBytes (residentSize record) }
        { shared with budget := shared.budget.charge (residentSize record) } h
    refine ⟨result, sort', shared', hspill, hlocation, .inr ?_⟩
    rwa [FileFaults.SpillRefused, and_iff_right (List.append_ne_nil_of_right_ne_nil _
      (List.cons_ne_nil _ _))] at houtcome
  · exact ⟨_, _, _, rfl, rfl, .inl ⟨rfl, h⟩⟩

/-- A failed merge leaves the files of its group. -/
theorem mergeGroup_spec
    {disk : Disk} {group : List RunPath}
    (h : Accounts sort.location start disk (group ++ rest)) :
    ∃ result sort' disk', faults.mergeGroup sort disk group = (result, sort', disk') ∧
      sort'.location = sort.location ∧ sort'.spilled = sort.spilled ∧
      match result with
      | .ok path => Accounts sort.location start disk' (path :: rest)
      | .error _ => ∃ left, Accounts sort.location start disk' left ∧ group ⊆ left := by
  rw [FileFaults.mergeGroup]
  cases hopen : (faults.openPass disk group false : Except SortError (SortedPass Record)) with
  | error error => exact ⟨_, _, _, rfl, rfl, rfl, _, h, List.subset_append_left _ _⟩
  | ok merged =>
    dsimp only
    by_cases hrefused : faults.Refuses disk (sort.location.runPath sort.nextRunNumber)
    · obtain ⟨error, hwrite⟩ := writeRun_refused hrefused (faults.items merged.size merged)
      rw [hwrite]
      exact ⟨_, _, _, rfl, rfl, rfl, _, h, List.subset_append_left _ _⟩
    · obtain ⟨hfree, result, bytes, hwrite⟩ :=
        writeRun_created hrefused (faults.items merged.size merged)
      have hcreated := h.create ⟨_, rfl⟩ hfree bytes
      rw [hwrite]
      cases result with
      | error error =>
        exact ⟨_, _, _, rfl, rfl, rfl, _, hcreated,
          fun _ hmem => .tail _ (List.mem_append_left _ hmem)⟩
      | ok done =>
        exact ⟨_, _, _, rfl, rfl, rfl, (hcreated.perm List.perm_middle.symm).removeAll⟩

/-- What merging groups does to the account. -/
theorem mergeGroups_spec
    {disk : Disk} {groups : List (List RunPath)}
    (h : Accounts sort.location start disk (groups.flatten ++ rest))
    (hgroups : ∀ group ∈ groups, group ≠ []) :
    ∃ result sort' disk', faults.mergeGroups sort disk groups = (result, sort', disk') ∧
      sort'.location = sort.location ∧ sort'.spilled = sort.spilled ∧
      match result with
      | .ok paths => Accounts sort.location start disk' (paths ++ rest)
      | .error _ => ∃ left, Accounts sort.location start disk' left ∧ left ≠ [] := by
  induction groups generalizing sort disk rest with
  | nil => exact ⟨_, _, _, rfl, rfl, rfl, h⟩
  | cons group groups ih =>
    rw [List.forall_mem_cons] at hgroups
    rw [List.flatten_cons, List.append_assoc] at h
    obtain ⟨result, next, disk', hmerge, hlocation, hspilled, hfiles⟩ := mergeGroup_spec faults h
    rw [FileFaults.mergeGroups, hmerge]
    cases result with
    | error error =>
      obtain ⟨left, hleft, hsub⟩ := hfiles
      refine ⟨_, _, _, rfl, hlocation, hspilled, left, hleft, ?_⟩
      rintro rfl
      exact hgroups.1 (List.subset_nil.mp hsub)
    | ok path =>
      have hnext : Accounts next.location start disk' (groups.flatten ++ path :: rest) := by
        rw [hlocation]
        exact Accounts.perm hfiles List.perm_middle.symm
      obtain ⟨result, last, disk'', hmerges, hlocation', hspilled', hfiles'⟩ := ih hnext hgroups.2
      rw [hlocation] at hlocation' hfiles'
      rw [hspilled] at hspilled'
      dsimp only
      rw [hmerges]
      cases result with
      | error error => exact ⟨_, _, _, rfl, hlocation', hspilled', hfiles'⟩
      | ok paths =>
        exact ⟨_, _, _, rfl, hlocation', hspilled', Accounts.perm hfiles' List.perm_middle⟩

end

theorem chunk_ne_nil {n : Nat} (hn : 0 < n) {l chunk : List RunPath} (h : chunk ∈ l.chunks n) :
    chunk ≠ [] := by
  induction l using List.chunks_induction hn with
  | hnil => cases h
  | hstep l hne ih =>
    rw [List.chunks_of_ne_nil hn hne] at h
    cases h with
    | head =>
      rw [Ne, List.take_eq_nil_iff, not_or]
      exact ⟨hn.ne', hne⟩
    | tail _ htail => exact ih htail

/-- What reducing the runs does to the account. -/
theorem reduceToFanIn_spec (faults : FileFaults) {fanIn : Nat} (hfanIn : 0 < fanIn) {fuel : Nat}
    {start : Disk} {sort : SortedRuns Record} {disk : Disk} {runs : List RunPath}
    (h : Accounts sort.location start disk runs) :
    ∃ result sort' disk', faults.reduceToFanIn fanIn fuel sort disk runs = (result, sort', disk') ∧
      sort'.location = sort.location ∧ sort'.spilled = sort.spilled ∧
      match result with
      | .ok reduced => Accounts sort.location start disk' reduced
      | .error _ => ∃ left, Accounts sort.location start disk' left ∧ left ≠ [] := by
  induction fuel generalizing sort disk runs with
  | zero => exact ⟨_, _, _, rfl, rfl, rfl, h⟩
  | succ fuel ih =>
    rw [FileFaults.reduceToFanIn]
    split
    · have hchunks : Accounts sort.location start disk ((runs.chunks fanIn).flatten ++ []) := by
        rw [List.append_nil, List.flatten_chunks hfanIn]
        exact h
      obtain ⟨result, next, disk', hmerges, hlocation, hspilled, hfiles⟩ :=
        mergeGroups_spec faults hchunks fun _ hmem => chunk_ne_nil hfanIn hmem
      rw [hmerges]
      cases result with
      | error error => exact ⟨_, _, _, rfl, hlocation, hspilled, hfiles⟩
      | ok reduced =>
        have hreduced : Accounts next.location start disk' reduced := by
          rw [hlocation, ← List.append_nil reduced]
          exact hfiles
        obtain ⟨result, last, disk'', hround, hlocation', hspilled', hfiles'⟩ := ih hreduced
        rw [hlocation] at hlocation' hfiles'
        rw [hspilled] at hspilled'
        exact ⟨_, _, _, hround, hlocation', hspilled', hfiles'⟩
    · exact ⟨_, _, _, rfl, rfl, rfl, h⟩

theorem openPass_nil (faults : FileFaults) (disk : Disk) (owned : Bool) :
    (faults.openPass disk [] owned : Except SortError (SortedPass Record)) =
      .ok ⟨[], [], owned, [], false⟩ := rfl

/-- What ending a sort does to the account. -/
theorem intoRuns_spec (faults : FileFaults) (hfanIn : 0 < fanIn) {start : Disk}
    (h : Accounts sort.location start shared.disk sort.spilled) :
    ∃ result sort' shared', faults.intoRuns fanIn sort shared = (result, sort', shared') ∧
      match result with
      | .ok runs => Accounts sort.location start shared'.disk runs ∧ sort'.spilled = [] ∧
        ¬ faults.SpillRefused sort shared.disk
      | .error _ => ∃ left, Accounts sort.location start (sort'.drop shared').disk left ∧
        (left = [] ↔ faults.SpillRefused sort shared.disk) := by
  obtain ⟨result, next, shared', hspill, hlocation, houtcome⟩ := spill_outcome faults h
  rw [FileFaults.intoRuns, hspill]
  cases result with
  | error error =>
    obtain ⟨left, hleft, hiff⟩ := houtcome
    exact ⟨_, _, _, rfl, left, hleft.removeAll, hiff⟩
  | ok done =>
    obtain ⟨hfiles, hnot⟩ := houtcome
    rw [← hlocation] at hfiles
    obtain ⟨result, last, disk, hreduce, hlocation', hspilled, hreduced⟩ :=
      @reduceToFanIn_spec _ _ faults fanIn hfanIn next.spilled.length start
        { next with spilled := [] } shared'.disk next.spilled hfiles
    dsimp only at hlocation' hspilled hreduced
    dsimp only
    rw [hreduce]
    cases result with
    | ok runs =>
      rw [hlocation] at hreduced
      exact ⟨_, _, _, rfl, hreduced, hspilled, hnot⟩
    | error error =>
      obtain ⟨left, hleft, hne⟩ := hreduced
      rw [hlocation] at hleft
      refine ⟨_, _, _, rfl, left, ?_, iff_of_false hne hnot⟩
      rw [SortedRuns.drop, hspilled]
      have hlist : Accounts sort.location start disk ([] ++ left) := hleft
      exact hlist.removeAll

section

variable (hfanIn : 0 < fanIn) {start : Disk}
  (h : Accounts sort.location start shared.disk sort.spilled)
include hfanIn h

/-- The sorted sequence fails without leaving a file exactly when the spill cannot create its
file. -/
theorem intoSorted_leavesNothing_iff
    (hfailed : faults.intoSorted fanIn sort shared = (.error error, shared')) :
    LeavesNothing sort.location start shared'.disk ↔ faults.SpillRefused sort shared.disk := by
  obtain ⟨result, next, middle, hruns, hfiles⟩ := intoRuns_spec faults hfanIn h
  rw [FileFaults.intoSorted, hruns] at hfailed
  cases result with
  | error error =>
    obtain ⟨-, rfl⟩ := Prod.mk.inj hfailed
    obtain ⟨left, hleft, hiff⟩ := hfiles
    exact hleft.leavesNothing_iff.trans hiff
  | ok runs =>
    obtain ⟨hopen, rfl⟩ := Prod.mk.inj hfailed
    obtain ⟨hall, hspilled, hnot⟩ := hfiles
    have hleft : Accounts sort.location start (next.drop middle).disk runs := by
      have hlist : Accounts sort.location start middle.disk ([] ++ runs) := hall
      rw [SortedRuns.drop, hspilled]
      exact hlist.removeAll
    refine iff_of_false (fun hnothing => ?_) hnot
    obtain rfl := hleft.leavesNothing_iff.mp hnothing
    rw [openPass_nil] at hopen
    cases hopen

/-- An end that fails leaves nothing exactly when the spill was refused. -/
theorem intoSortedPasses_leavesNothing_iff
    (hfailed : faults.intoSortedPasses fanIn sort shared = (.error error, shared')) :
    LeavesNothing sort.location start shared'.disk ↔ faults.SpillRefused sort shared.disk := by
  obtain ⟨result, next, middle, hruns, hfiles⟩ := intoRuns_spec faults hfanIn h
  rw [FileFaults.intoSortedPasses, hruns] at hfailed
  cases result with
  | error error =>
    obtain ⟨-, rfl⟩ := Prod.mk.inj hfailed
    obtain ⟨left, hleft, hiff⟩ := hfiles
    exact hleft.leavesNothing_iff.trans hiff
  | ok runs => cases (Prod.mk.inj hfailed).1

end

/-! ## Runs of calls -/

/-- A sort behind calls of which those that failed could not create their file, with whatever
other sorts have done in between. -/
inductive SortSession (location : RunLocation) (start : Disk) :
    SortedRuns Record → SortShared → Prop where
  | new (budget : BudgetState) : SortSession location start (.new location) ⟨budget, start⟩
  | pushed {sort sort' : SortedRuns Record} {shared shared' : SortShared} {record : Record}
      (faults : FileFaults) (before : SortSession location start sort shared)
      (push : faults.push sort shared record = (.ok (), sort', shared')) :
      SortSession location start sort' shared'
  | refused {sort sort' : SortedRuns Record} {shared shared' : SortShared} {record : Record}
      {error : SortError} (faults : FileFaults) (before : SortSession location start sort shared)
      (push : faults.push sort shared record = (.error error, sort', shared'))
      (create : faults.Refuses shared.disk (sort.location.runPath sort.nextRunNumber)) :
      SortSession location start sort' shared'
  | elsewhere {sort : SortedRuns Record} {shared : SortShared} (budget : BudgetState)
      (disk : Disk) (before : SortSession location start sort shared)
      (same : ∀ path, location.Owns path → disk path = shared.disk path) :
      SortSession location start sort ⟨budget, disk⟩

/-- Every session keeps its account. -/
theorem SortSession.accounts {location : RunLocation} {start : Disk} (h : SortSession location start sort shared) :
    sort.location = location ∧ Accounts location start shared.disk sort.spilled := by
  induction h with
  | new budget => exact ⟨rfl, .initial location start⟩
  | pushed faults before push ih =>
    obtain ⟨rfl, hfiles⟩ := ih
    obtain ⟨result, next, behind, hpush, hlocation, houtcome⟩ := push_outcome faults hfiles _
    rw [push] at hpush
    cases hpush
    rcases houtcome with ⟨-, hnext⟩ | ⟨hnext, -⟩
    · exact ⟨hlocation, hnext⟩
    · exact ⟨hlocation, hnext⟩
  | refused faults before push create ih =>
    obtain ⟨rfl, hfiles⟩ := ih
    obtain ⟨result, next, behind, hpush, hlocation, houtcome⟩ := push_outcome faults hfiles _
    rw [push] at hpush
    cases hpush
    rcases houtcome with ⟨hok, -⟩ | ⟨left, hleft, hiff⟩
    · cases hok
    · rw [hiff.mpr create, List.append_nil] at hleft
      exact ⟨hlocation, hleft⟩
  | elsewhere budget disk before same ih => exact ⟨ih.1, ih.2.congr same⟩

/-- A push that fails leaves nothing exactly when its file was refused. -/
theorem push_leavesNothing_iff {start : Disk} {sort' : SortedRuns Record} (h : Accounts sort.location start shared.disk sort.spilled)
    {record : Record} (hfailed : faults.push sort shared record = (.error error, sort', shared')) :
    LeavesNothing sort.location start (sort'.drop shared').disk ↔
      faults.Refuses shared.disk (sort.location.runPath sort.nextRunNumber) := by
  obtain ⟨result, next, behind, hpush, -, houtcome⟩ := push_outcome faults h record
  rw [hfailed] at hpush
  cases hpush
  rcases houtcome with ⟨hok, -⟩ | ⟨left, hleft, hiff⟩
  · cases hok
  · exact hleft.removeAll.leavesNothing_iff.trans hiff

/-- A run file that is cut off elsewhere than behind a record ends in an error exactly when it is
not cut off inside a length.  A call that fails leaves no run file behind, once the sort is
dropped, exactly when it has failed to create the file of a spill. -/
theorem runFile_error_and_leavesNothing_iff [LawfulSpillRecord Record] {fanIn : Nat}
    (hfanIn : 0 < fanIn) :
    (∀ (faults : FileFaults) disk path (records : List Record) written cut,
      faults.writeRun disk path (records.map .ok) = (.ok (), written) →
      cut ≤ (encodeRun records).length → ¬ IsBoundary records cut →
        ((∃ error, readRunFile Record (truncated written path cut) path = .error error) ↔
          ¬ InsideLength records cut)) ∧
      ∀ location start (sort : SortedRuns Record) shared, SortSession location start sort shared →
        ∀ faults : FileFaults,
          (∀ record error sort' shared', faults.push sort shared record =
              (.error error, sort', shared') →
            (LeavesNothing location start (sort'.drop shared').disk ↔
              faults.Refuses shared.disk (location.runPath sort.nextRunNumber))) ∧
          (∀ error shared', faults.intoSorted fanIn sort shared = (.error error, shared') →
            (LeavesNothing location start shared'.disk ↔ faults.SpillRefused sort shared.disk)) ∧
          ∀ error shared', faults.intoSortedPasses fanIn sort shared = (.error error, shared') →
            (LeavesNothing location start shared'.disk ↔ faults.SpillRefused sort shared.disk) := by
  constructor
  · intro faults disk path records written cut hwrite hcut hnot
    obtain ⟨hfits, hwritten⟩ := writeRun_of_ok hwrite
    rcases readRunFile_truncated hfits hwritten hcut hnot with
      ⟨hinside, before, -, -, hread⟩ | ⟨hinside, hread⟩
    · refine iff_of_false ?_ (not_not.mpr hinside)
      rintro ⟨error, herror⟩
      rw [hread] at herror
      cases herror
    · exact iff_of_true ⟨_, hread⟩ hinside
  · intro location start sort shared hsession faults
    obtain ⟨rfl, hfiles⟩ := hsession.accounts
    exact ⟨fun _ _ _ _ hfailed => push_leavesNothing_iff hfiles hfailed,
      fun _ _ hfailed => intoSorted_leavesNothing_iff hfanIn hfiles hfailed,
      fun _ _ hfailed => intoSortedPasses_leavesNothing_iff hfanIn hfiles hfailed⟩

/-! ## Byte strings -/

/-- Every sync fails. -/
def neverSynced : FileFaults :=
  { FileFaults.never with sync := fun _ => some (.inputOutput "sync") }

def twoRecords : List Bytes := [[1], [2]]

/-- A push over the budget into a directory in which the file of the run is there already. -/
def firstPush : Except SortError Unit × SortedRuns Bytes × SortShared :=
  FileFaults.never.push (.new entriesLocation) ⟨⟨0, 0⟩, leftOverDisk⟩ [1]

/-- A file of two records that is cut off inside the second, and a spill whose file is there
already. -/
theorem runFile_error_and_leavesNothing_iff_bytes :
    (∃ error, readRunFile Bytes (truncated
        (writeRun (fun _ => none) (entriesLocation.runPath 0) (twoRecords.map Except.ok)).2
        (entriesLocation.runPath 0) 9) (entriesLocation.runPath 0) = .error error) ∧
      LeavesNothing entriesLocation leftOverDisk (firstPush.2.1.drop firstPush.2.2).disk := by
  obtain ⟨hread, hcalls⟩ :=
    @runFile_error_and_leavesNothing_iff Bytes _ _ maximumFanIn (by decide)
  constructor
  · refine (hread FileFaults.never (fun _ => none) (entriesLocation.runPath 0) twoRecords _ 9 ?_
      (by decide) (by decide)).mpr (by decide)
    rw [writeRun_never]
    rfl
  · refine ((hcalls entriesLocation leftOverDisk _ _ (.new ⟨0, 0⟩) .never).1 [1]
      (.alreadyExists (entriesLocation.runPath 0)) _ _ rfl).mpr (.inl ?_)
    exact (if_pos rfl : leftOverDisk (entriesLocation.runPath 0) = _).trans_ne
      (Option.some_ne_none _)

/-- A file that is cut off inside a length reads as a shorter run, and a spill file that could not
be synced stays. -/
theorem runFile_shorter_and_left :
    (¬ ∀ (records : List Bytes) written cut,
      writeRun (fun _ => none) (entriesLocation.runPath 0) (records.map .ok) = (.ok (), written) →
      cut ≤ (encodeRun records).length → ¬ IsBoundary records cut →
      ∃ error, readRunFile Bytes (truncated written (entriesLocation.runPath 0) cut)
        (entriesLocation.runPath 0) = .error error) ∧
      ¬ ∀ (faults : FileFaults) (sort sort' : SortedRuns Bytes) shared shared' record error,
        SortSession entriesLocation (fun _ => none) sort shared →
        faults.push sort shared record = (.error error, sort', shared') →
        LeavesNothing entriesLocation (fun _ => none) (sort'.drop shared').disk := by
  constructor
  · intro h
    obtain ⟨error, herror⟩ := h twoRecords (writeRun (fun _ => none) (entriesLocation.runPath 0)
      (twoRecords.map .ok)).2 7 rfl (by decide) (by decide)
    have hread : readRunFile Bytes (truncated (writeRun (fun _ => none) (entriesLocation.runPath 0)
        (twoRecords.map .ok)).2 (entriesLocation.runPath 0) 7) (entriesLocation.runPath 0) =
        .ok [[1]] := by decide +kernel
    rw [hread] at herror
    cases herror
  · intro h
    have hleft := h neverSynced _ _ _ _ [1] _ (.new ⟨0, 0⟩) rfl (entriesLocation.runPath 0)
      ⟨0, rfl⟩ rfl
    cases hleft

end Froe
