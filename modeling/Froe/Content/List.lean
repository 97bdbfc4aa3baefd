import Froe.Segment.Parsed

/-!
# List records

An uncounted list is a pointer whose meaning depends on a size its parent
knows: with size one the pointer is the element, otherwise it names a bucket of
up to 255 identifiers, nested for larger lists.  A counted list stores the size
in front of the pointer and omits the pointer when it is empty.
-/

namespace Froe

/-- Serves segments by their identifiers. -/
abbrev SegmentProvider := SegmentIdentifier → Result SegmentView

/-- How many identifiers a bucket holds. -/
def bucketCapacity : Nat := 255

def maximumListSize : Nat := bucketCapacity * bucketCapacity * bucketCapacity

/-- Holds a list size to the limit of the format. -/
def validateSize (size : Nat) : Result Unit :=
  if size > maximumListSize then
    invalid s!"list size {size} exceeds the maximum of {maximumListSize}"
  else .ok ()

/-- The loop of `topBucketCapacity`.  A capacity at or past the size ends it, so that the
size bounds the number of rounds. -/
def growBucketCapacity (size : Nat) : Nat → Nat → Nat
  | 0, capacity => capacity
  | rounds + 1, capacity =>
    if capacity * bucketCapacity < size then
      growBucketCapacity size rounds (capacity * bucketCapacity)
    else capacity

/-- The capacity of the top level: the largest power of 255 below the size. -/
def topBucketCapacity (size : Nat) : Nat := growBucketCapacity size size 1

theorem growBucketCapacity_pos {size rounds capacity : Nat} (h : 0 < capacity) :
    0 < growBucketCapacity size rounds capacity := by
  induction rounds generalizing capacity with
  | zero => exact h
  | succ rounds ih =>
    rw [growBucketCapacity]
    split
    · exact ih (Nat.mul_pos h (by decide))
    · exact h

theorem growBucketCapacity_lt {size rounds capacity : Nat} (h : capacity < size) :
    growBucketCapacity size rounds capacity < size := by
  induction rounds generalizing capacity with
  | zero => exact h
  | succ rounds ih =>
    rw [growBucketCapacity]
    split
    · rename_i hgrow
      exact ih hgrow
    · exact h

theorem topBucketCapacity_pos (size : Nat) : 0 < topBucketCapacity size :=
  growBucketCapacity_pos Nat.one_pos

theorem topBucketCapacity_lt {size : Nat} (h : 2 ≤ size) : topBucketCapacity size < size :=
  growBucketCapacity_lt h

/-- How many buckets of the top level hold `size` elements. -/
def bucketCount (size : Nat) : Nat := (size + topBucketCapacity size - 1) / topBucketCapacity size

/-- The elements below one bucket, in list order. -/
def collectEntries (provider : SegmentProvider) (listIdentifier : RecordIdentifier) (size : Nat) :
    Result (List RecordIdentifier) :=
  if size = 0 then .ok []
  else if _hone : size = 1 then .ok [listIdentifier]
  else do
    let view ← provider listIdentifier.segment
    let buckets ← (List.range (bucketCount size)).mapM fun bucketIndex => do
      let child ← view.readRecordIdentifier listIdentifier.recordNumber 0 bucketIndex
      collectEntries provider child
        (min (size - bucketIndex * topBucketCapacity size) (topBucketCapacity size))
    return buckets.flatten
termination_by size
decreasing_by
  have := @topBucketCapacity_lt size (by omega)
  omega

/-- Reads all entries of a list. -/
def uncountedListEntries (provider : SegmentProvider) (listIdentifier : RecordIdentifier)
    (size : Nat) : Result (List RecordIdentifier) := do
  validateSize size
  collectEntries provider listIdentifier size

/-- The descent of `uncountedListEntry` from one bucket on. -/
def descendToEntry (provider : SegmentProvider) (current : RecordIdentifier) (size index : Nat) :
    Result RecordIdentifier :=
  if _hone : size ≤ 1 then .ok current
  else do
    let bucketIndex := index / topBucketCapacity size
    let view ← provider current.segment
    let child ← view.readRecordIdentifier current.recordNumber 0 bucketIndex
    descendToEntry provider child
      (min (size - bucketIndex * topBucketCapacity size) (topBucketCapacity size))
      (index - bucketIndex * topBucketCapacity size)
termination_by size
decreasing_by
  have := @topBucketCapacity_lt size (by omega)
  omega

/-- Reads one entry of a list. -/
def uncountedListEntry (provider : SegmentProvider) (listIdentifier : RecordIdentifier)
    (size index : Nat) : Result RecordIdentifier := do
  validateSize size
  if index ≥ size then
    invalid s!"list index {index} is out of bounds for a list of {size} elements"
  else descendToEntry provider listIdentifier size index

/-- A counted list: its size and, unless it is empty, the list of its elements. -/
structure CountedList where
  size : UInt32
  body : Option RecordIdentifier
deriving DecidableEq, Repr

/-- Reads a list with its size. -/
def readCountedList (provider : SegmentProvider) (listIdentifier : RecordIdentifier) :
    Result CountedList := do
  let view ← provider listIdentifier.segment
  let size ← view.readU32 listIdentifier.recordNumber 0
  if 0 ≤ signed32 size ∧ size.toNat ≤ maximumListSize then
    if size = 0 then .ok ⟨size, none⟩
    else
      let body ← view.readRecordIdentifier listIdentifier.recordNumber 4 0
      .ok ⟨size, some body⟩
  else invalid s!"invalid counted list size {signed32 size}"

end Froe
