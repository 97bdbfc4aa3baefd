import Froe.Lib.Chunks
import Froe.Lib.Digits
import Froe.Lib.Merge
import Froe.Lib.Utf8

/-!
# The external sort

Records are collected into runs.  A run that takes the shared budget over its limit
is sorted and spilled to a file of length-prefixed records.  The runs are merged in
groups until few enough are left, and a pass merges those.

The module follows `external_sort/mod.rs`.  Files that are never changed after they
have been written are read whole when they are opened: a cursor holds the bytes that
are left of its file.
-/

namespace Froe

/-! ## Records and locations -/

/-- Where a sort puts its spill files.  The directory is the directory itself, not the spelling of
its path: two spellings of one directory are one value. -/
structure RunLocation where
  directory : String
  namePrefix : String
deriving DecidableEq, Repr

/-- The path of a run file. -/
structure RunPath where
  directory : String
  fileName : Bytes
deriving DecidableEq, Repr

/-- The file `<prefix>-<number>.run` of a location. -/
def RunLocation.runPath (location : RunLocation) (number : Nat) : RunPath :=
  ⟨location.directory,
    location.namePrefix.utf8 ++ [45] ++ Digits.padded 10 6 number ++ [46, 114, 117, 110]⟩

/-- What a sort can fail with. -/
inductive SortError where
  | alreadyExists (path : RunPath)
  | recordTooLong (length : Nat)
  | notFound (path : RunPath)
  | unexpectedEof
  | invalidFormat (details : String)
  | inputOutput (details : String)
deriving DecidableEq, Repr

/-- A record that a sort can order, spill and read back, with the sort of the standard library
at its order. -/
class SpillRecord (Record : Type) where
  cmp : Record → Record → Ordering
  encode : Record → Bytes
  decode : Bytes → Except SortError Record
  residentSize : Record → Nat
  sortUnstable : List Record → List Record

open SpillRecord

/-- What the trait and the standard library promise.  Equal records may come in any order. -/
class LawfulSpillRecord (Record : Type) [SpillRecord Record] : Prop where
  transCmp : Std.TransCmp (SpillRecord.cmp : Record → Record → Ordering)
  decode_encode : ∀ record : Record, (encode record).length < 2 ^ 32 →
    decode (encode record) = .ok record
  sort_perm : ∀ records : List Record, (sortUnstable records).Perm records
  sort_ascending : ∀ records : List Record,
    (sortUnstable records).Pairwise fun a b => (SpillRecord.cmp a b).isLE

attribute [instance] LawfulSpillRecord.transCmp

/-! ## The budget -/

/-- A memory budget and what is charged to it. -/
structure BudgetState where
  limit : Nat
  charged : Nat
deriving DecidableEq, Repr

/-- The largest machine size. -/
def usizeMax : Nat := 2 ^ 64 - 1

/-- Addition that stops at the largest size. -/
def saturatingAdd (a b : Nat) : Nat := min (a + b) usizeMax

namespace BudgetState

/-- Charges some bytes. -/
def charge (budget : BudgetState) (bytes : Nat) : BudgetState :=
  { budget with charged := saturatingAdd budget.charged bytes }

/-- Whether more is charged than the budget has. -/
def exceeded (budget : BudgetState) : Bool := budget.limit < budget.charged

/-- Gives some bytes back. -/
def release (budget : BudgetState) (bytes : Nat) : BudgetState :=
  { budget with charged := budget.charged - bytes }

end BudgetState

/-! ## Run files -/

/-- The contents of the files that exist. -/
abbrev Disk := RunPath → Option Bytes

/-- Removes files. -/
def Disk.removeAll (disk : Disk) (paths : List RunPath) : Disk :=
  fun path => if path ∈ paths then none else disk path

section

variable {Record : Type} [SpillRecord Record]

/-- The bytes that the writer has written when it ends or fails. -/
def encodeRecords : List (Except SortError Record) → Except SortError Unit × Bytes
  | [] => (.ok (), [])
  | .error error :: _ => (.error error, [])
  | .ok record :: records =>
    let buffer := encode record
    if buffer.length < 2 ^ 32 then
      let (result, bytes) := encodeRecords records
      (result, (Bytes.be 4 buffer.length).reverse ++ buffer ++ bytes)
    else (.error (.recordTooLong buffer.length), [])

/-- Writes one run and refuses to overwrite a file. -/
def writeRun (disk : Disk) (path : RunPath) (records : List (Except SortError Record)) :
    Except SortError Unit × Disk :=
  match disk path with
  | some _ => (.error (.alreadyExists path), disk)
  | none =>
    let (result, bytes) := encodeRecords records
    (result, Function.update disk path (some bytes))

/-- One spilled run, with what is left of an open file. -/
structure RunCursor where
  path : RunPath
  reader : Option Bytes

/-- Opens a run file. -/
def RunCursor.open (disk : Disk) (path : RunPath) : Except SortError RunCursor :=
  match disk path with
  | none => .error (.notFound path)
  | some bytes => .ok ⟨path, some bytes⟩

/-- Reads the next record of a run; the end of the file is no record. -/
def RunCursor.nextRecord (Record : Type) [SpillRecord Record] (cursor : RunCursor) :
    Except SortError (Option Record) × RunCursor :=
  match cursor.reader with
  | none => (.ok none, cursor)
  | some bytes =>
    if bytes.length < 4 then (.ok none, { cursor with reader := none })
    else
      let length := Bytes.ofBe (bytes.take 4).reverse
      let rest := bytes.drop 4
      if rest.length < length then (.error .unexpectedEof, { cursor with reader := some [] })
      else ((decode (rest.take length)).map some, { cursor with reader := some (rest.drop length) })

/-! ## Passes -/

/-- One walk of a sorted sequence. -/
structure SortedPass (Record : Type) where
  heap : List (Merge.Head Record)
  cursors : List RunCursor
  unlinkExhausted : Bool
  resident : List Record
  residentOnly : Bool

namespace SortedPass

/-- A pass over records in memory alone. -/
def overSlice (records : List Record) : SortedPass Record := ⟨[], [], false, records, true⟩

/-- Opens a run and puts its first record into the heap. -/
def openRun (disk : Disk) (pass : SortedPass Record) (path : RunPath) :
    Except SortError (SortedPass Record) := do
  let cursor ← RunCursor.open disk path
  match cursor.nextRecord Record with
  | (.error error, _) => .error error
  | (.ok none, cursor) => return { pass with cursors := pass.cursors ++ [cursor] }
  | (.ok (some record), cursor) =>
    return { pass with
      heap := ⟨record, pass.cursors.length⟩ :: pass.heap
      cursors := pass.cursors ++ [cursor] }

/-- Opens a pass over runs, with the first record of each. -/
protected def «open» (disk : Disk) (runs : List RunPath) (owned : Bool) :
    Except SortError (SortedPass Record) :=
  runs.foldlM (openRun disk) ⟨[], [], owned, [], false⟩

/-- The next item, the pass behind it and the files that it unlinks. -/
def advance (pass : SortedPass Record) :
    Option (Except SortError Record × SortedPass Record × List RunPath) :=
  if pass.residentOnly then
    match pass.resident with
    | [] => none
    | record :: resident =>
      some (decode (encode record), { pass with resident := resident }, [])
  else
    match Merge.popLeast (Merge.Head.cmp SpillRecord.cmp) pass.heap with
    | none => none
    | some (head, heap) =>
      match pass.cursors[head.run]? with
      | none => none
      | some cursor =>
        match cursor.nextRecord Record with
        | (.ok (some next), cursor) =>
          some (.ok head.record,
            { pass with
              heap := ⟨next, head.run⟩ :: heap
              cursors := pass.cursors.set head.run cursor }, [])
        | (.ok none, cursor) =>
          if pass.unlinkExhausted then
            some (.ok head.record,
              { pass with
                heap := heap
                cursors := pass.cursors.set head.run { cursor with reader := none } },
              [cursor.path])
          else
            some (.ok head.record,
              { pass with
                heap := heap
                cursors := pass.cursors.set head.run cursor }, [])
        | (.error error, cursor) =>
          some (.error error,
            { pass with
              heap := heap
              cursors := pass.cursors.set head.run cursor }, [])

/-- At most the items that a pass can yield. -/
def items : Nat → SortedPass Record → List (Except SortError Record)
  | 0, _ => []
  | fuel + 1, pass =>
    match pass.advance with
    | none => []
    | some (item, pass, _) => item :: items fuel pass

/-- Every item takes a record out of the heap, and every record in the heap is bytes of a file. -/
def size (pass : SortedPass Record) : Nat :=
  pass.heap.length + (pass.cursors.map fun cursor => (cursor.reader.getD []).length).sum +
    pass.resident.length

/-- The files that a pass unlinks when it is dropped. -/
def unlinked (pass : SortedPass Record) : List RunPath :=
  if pass.unlinkExhausted then pass.cursors.map RunCursor.path else []

end SortedPass

/-! ## Sorting -/

/-- What all sorts share. -/
structure SortShared where
  budget : BudgetState
  disk : Disk

/-- A sort under way. -/
structure SortedRuns (Record : Type) where
  location : RunLocation
  resident : List Record
  residentBytes : Nat
  spilled : List RunPath
  nextRunNumber : Nat

namespace SortedRuns

/-- A sort without records. -/
def new (location : RunLocation) : SortedRuns Record := ⟨location, [], 0, [], 0⟩

/-- Sorts and writes the resident run.  A write that fails has drained it. -/
def spill (sort : SortedRuns Record) (shared : SortShared) :
    Except SortError Unit × SortedRuns Record × SortShared :=
  if sort.resident.isEmpty then (.ok (), sort, shared)
  else
    let path := sort.location.runPath sort.nextRunNumber
    let drained := { sort with resident := [], nextRunNumber := sort.nextRunNumber + 1 }
    match writeRun shared.disk path ((sortUnstable sort.resident).map .ok) with
    | (.error error, disk) => (.error error, drained, { shared with disk := disk })
    | (.ok (), disk) =>
      (.ok (), { drained with spilled := sort.spilled ++ [path], residentBytes := 0 },
        ⟨shared.budget.release sort.residentBytes, disk⟩)

/-- Takes a record in, and spills when the budget is exceeded. -/
def push (sort : SortedRuns Record) (shared : SortShared) (record : Record) :
    Except SortError Unit × SortedRuns Record × SortShared :=
  let size := residentSize record
  let sort := { sort with
    resident := sort.resident ++ [record]
    residentBytes := saturatingAdd sort.residentBytes size }
  let budget := shared.budget.charge size
  if budget.exceeded then sort.spill { shared with budget := budget }
  else (.ok (), sort, { shared with budget := budget })

/-- Merges a group of runs into a new one. -/
def mergeGroup (sort : SortedRuns Record) (disk : Disk) (group : List RunPath) :
    Except SortError RunPath × SortedRuns Record × Disk :=
  let path := sort.location.runPath sort.nextRunNumber
  let sort := { sort with nextRunNumber := sort.nextRunNumber + 1 }
  match (SortedPass.open disk group false : Except SortError (SortedPass Record)) with
  | .error error => (.error error, sort, disk)
  | .ok merged =>
    match writeRun disk path (merged.items merged.size) with
    | (.error error, disk) => (.error error, sort, disk)
    | (.ok (), disk) => (.ok path, sort, disk.removeAll group)

/-- One round over all groups. -/
def mergeGroups (sort : SortedRuns Record) (disk : Disk) :
    List (List RunPath) → Except SortError (List RunPath) × SortedRuns Record × Disk
  | [] => (.ok [], sort, disk)
  | group :: groups =>
    match sort.mergeGroup disk group with
    | (.error error, sort, disk) => (.error error, sort, disk)
    | (.ok path, sort, disk) =>
      match sort.mergeGroups disk groups with
      | (.error error, sort, disk) => (.error error, sort, disk)
      | (.ok paths, sort, disk) => (.ok (path :: paths), sort, disk)

/-- Merges runs in rounds until at most the fan-in is left.  A round leaves fewer runs. -/
def reduceToFanIn (fanIn : Nat) :
    Nat → SortedRuns Record → Disk → List RunPath →
      Except SortError (List RunPath) × SortedRuns Record × Disk
  | 0, sort, disk, runs => (.ok runs, sort, disk)
  | fuel + 1, sort, disk, runs =>
    if fanIn < runs.length then
      match sort.mergeGroups disk (runs.chunks fanIn) with
      | (.error error, sort, disk) => (.error error, sort, disk)
      | (.ok reduced, sort, disk) => reduceToFanIn fanIn fuel sort disk reduced
    else (.ok runs, sort, disk)

/-- The runs that a pass merges. -/
def intoRuns (fanIn : Nat) (sort : SortedRuns Record) (shared : SortShared) :
    Except SortError (List RunPath) × SortedRuns Record × SortShared :=
  match sort.spill shared with
  | (.error error, sort, shared) => (.error error, sort, shared)
  | (.ok (), sort, shared) =>
    let runs := sort.spilled
    match reduceToFanIn fanIn runs.length { sort with spilled := [] } shared.disk runs with
    | (result, sort, disk) => (result, sort, { shared with disk := disk })

/-- Gives up a sort: its charge and its runs. -/
def drop (sort : SortedRuns Record) (shared : SortShared) : SortShared :=
  ⟨shared.budget.release sort.residentBytes, shared.disk.removeAll sort.spilled⟩

/-- The sorted sequence.  The sort is dropped at the end, whatever happens. -/
def intoSorted (fanIn : Nat) (sort : SortedRuns Record) (shared : SortShared) :
    Except SortError (SortedPass Record) × SortShared :=
  match sort.intoRuns fanIn shared with
  | (.error error, sort, shared) => (.error error, sort.drop shared)
  | (.ok runs, sort, shared) => (SortedPass.open shared.disk runs true, sort.drop shared)

end SortedRuns

/-- A sorted sequence that can be walked more than once. -/
structure SortedPasses (Record : Type) where
  runs : List RunPath
  resident : List Record

namespace SortedPasses

/-- One pass over the sorted records. -/
def pass (passes : SortedPasses Record) (disk : Disk) : Except SortError (SortedPass Record) :=
  if passes.runs.isEmpty then .ok (.overSlice passes.resident)
  else SortedPass.open disk passes.runs false

end SortedPasses

/-- Ends a sort so that several passes can be taken. -/
def SortedRuns.intoSortedPasses (fanIn : Nat) (sort : SortedRuns Record) (shared : SortShared) :
    Except SortError (SortedPasses Record) × SortShared :=
  match sort.intoRuns fanIn shared with
  | (.error error, sort, shared) => (.error error, sort.drop shared)
  | (.ok runs, sort, shared) => (.ok ⟨runs, []⟩, sort.drop shared)

end

/-- The number of runs that one merge may read at once. -/
def maximumFanIn : Nat := 64

end Froe
