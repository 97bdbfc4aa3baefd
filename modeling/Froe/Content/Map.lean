import Froe.Content.Binary
import Froe.Content.Hashing

/-!
# Map records

A map is a trie over the hashes of its names.  A diff record overlays one entry
on a base map, a branch has up to 32 buckets, and a leaf has the entries.  An
enumeration walks the trie with its own stack and refuses a record that it
meets twice.
-/

namespace Froe

/-- The head word of a diff record. -/
def diffHead : UInt32 := 0xFFFFFFFF

/-- The entry count in a head word. -/
def sizeMask : UInt32 := 0x1FFFFFFF

/-- The position of the trie level in a head word. -/
def levelShift : UInt32 := 29

def bucketsPerLevel : Nat := 32

/-- Records of this level are leaves. -/
def maximumLevel : Nat := 7

/-- The longest chain of records before the trie. -/
def maximumWalkLength : Nat := 1024

def walkTooLong (mapIdentifier : RecordIdentifier) : Error :=
  .invalidFormat s!"map walk starting at {mapIdentifier.display} exceeds {maximumWalkLength} records; the map records probably form a cycle"

/-- An entry with the record of its key. -/
structure CollectedEntry where
  name : String
  keyIdentifier : RecordIdentifier
  value : RecordIdentifier

/-- A name and its value. -/
structure MapEntry where
  name : String
  value : RecordIdentifier
deriving DecidableEq

/-- The number of set bits of a bitmap. -/
def countOnes (bitmap : UInt32) : Nat :=
  ((List.range 32).filter fun bit => bitmap.toNat.testBit bit).length

/-- Reads one entry of a leaf. -/
def readLeafEntry (provider : SegmentProvider) (view : SegmentView)
    (mapIdentifier : RecordIdentifier) (identifiersBase position : Nat) :
    Result CollectedEntry := do
  let keyIdentifier ← view.readRecordIdentifier mapIdentifier.recordNumber identifiersBase
    (position * 2)
  let value ← view.readRecordIdentifier mapIdentifier.recordNumber identifiersBase
    (position * 2 + 1)
  let name ← readString provider keyIdentifier
  return ⟨name, keyIdentifier, value⟩

/-- Expands one map record: the entries of a leaf, or the records to be expanded next. -/
def expandMapRecord (provider : SegmentProvider) (mapIdentifier : RecordIdentifier)
    (view : SegmentView) (head : UInt32) :
    Result (List CollectedEntry × List RecordIdentifier) := do
  if head = diffHead then
    let base ← view.readRecordIdentifier mapIdentifier.recordNumber 8 2
    return ([], [base])
  else
    let size := (head &&& sizeMask).toNat
    let level := (head >>> levelShift).toNat
    if size = 0 then return ([], [])
    else if size > bucketsPerLevel ∧ level < maximumLevel then
      let bitmap ← view.readU32 mapIdentifier.recordNumber 4
      let buckets ← (List.range (countOnes bitmap)).mapM fun bucketPosition =>
        view.readRecordIdentifier mapIdentifier.recordNumber 8 bucketPosition
      return ([], buckets)
    else
      let entries ← (List.range size).mapM
        (readLeafEntry provider view mapIdentifier (4 + size * 4))
      return (entries, [])

/-- Expands pending records, the next one first.  Every round visits a new record, so that the
number of record identifiers bounds the rounds. -/
def collectMapEntries (provider : SegmentProvider) :
    Nat → List RecordIdentifier → List RecordIdentifier → Result (List CollectedEntry)
  | 0, _, _ => .ok []
  | _ + 1, _, [] => .ok []
  | rounds + 1, visited, mapIdentifier :: pending =>
    if mapIdentifier ∈ visited then .error (walkTooLong mapIdentifier)
    else do
      let view ← provider mapIdentifier.segment
      let head ← view.readU32 mapIdentifier.recordNumber 0
      let (entries, scheduled) ← expandMapRecord provider mapIdentifier view head
      let rest ← collectMapEntries provider rounds (mapIdentifier :: visited) (scheduled ++ pending)
      return entries ++ rest

/-- The overlays of a chain of diffs, an earlier one before a later one, and the root of the
trie below. -/
def readDiffChain (provider : SegmentProvider) (mapIdentifier : RecordIdentifier) :
    Nat → List (RecordIdentifier × RecordIdentifier) → RecordIdentifier →
      Result (List (RecordIdentifier × RecordIdentifier) × RecordIdentifier)
  | 0, _, _ => .error (walkTooLong mapIdentifier)
  | rounds + 1, overlays, current => do
    let view ← provider current.segment
    let head ← view.readU32 current.recordNumber 0
    if head = diffHead then
      let key ← view.readRecordIdentifier current.recordNumber 8 0
      let value ← view.readRecordIdentifier current.recordNumber 8 1
      let base ← view.readRecordIdentifier current.recordNumber 8 2
      if key ∈ overlays.map Prod.fst then readDiffChain provider mapIdentifier rounds overlays base
      else readDiffChain provider mapIdentifier rounds (overlays ++ [(key, value)]) base
    else return (overlays, current)

def recordIdentifierCount : Nat := 2 ^ 160

/-- The value that an entry has under some overlays. -/
def CollectedEntry.overlaid (overlays : List (RecordIdentifier × RecordIdentifier))
    (entry : CollectedEntry) : MapEntry :=
  ⟨entry.name, (overlays.lookup entry.keyIdentifier).getD entry.value⟩

/-- All entries of a map, in storage order. -/
def mapEntries (provider : SegmentProvider) (mapIdentifier : RecordIdentifier) :
    Result (List MapEntry) := do
  let (overlays, root) ← readDiffChain provider mapIdentifier maximumWalkLength [] mapIdentifier
  let entries ← collectMapEntries provider recordIdentifierCount [] [root]
  return entries.map (CollectedEntry.overlaid overlays)

/-! ## Sizes and single entries -/

/-- The chain of diffs down to the size of the trie. -/
def mapSizeWalk (provider : SegmentProvider) (mapIdentifier : RecordIdentifier) :
    Nat → RecordIdentifier → Result Nat
  | 0, _ => .error (walkTooLong mapIdentifier)
  | rounds + 1, current => do
    let view ← provider current.segment
    let head ← view.readU32 current.recordNumber 0
    if head = diffHead then
      let base ← view.readRecordIdentifier current.recordNumber 8 2
      mapSizeWalk provider mapIdentifier rounds base
    else return (head &&& sizeMask).toNat

/-- The number of entries of a map.  A diff has the size of its base. -/
def mapSize (provider : SegmentProvider) (mapIdentifier : RecordIdentifier) : Result Nat :=
  mapSizeWalk provider mapIdentifier maximumWalkLength mapIdentifier

/-- The bucket of a hash on a level.  The distance of the shift is masked to five bits, and the
shift is arithmetic. -/
def bucketIndex (level : Nat) (hash : UInt32) : Nat :=
  let shift := ((32 - (level + 1 : Int) * 5) % 32).toNat
  (signed32 hash >>> shift % 32).toNat

/-- The first position of a leaf whose hash is not below a hash.  Every round shortens the range,
so that its length bounds the rounds. -/
def leafSearch (view : SegmentView) (leaf : RecordIdentifier) (hash : UInt32) :
    Nat → Nat → Nat → Result Nat
  | 0, low, _ => .ok low
  | rounds + 1, low, high => do
    if low < high then
      let middle := (low + high) / 2
      let middleHash ← view.readU32 leaf.recordNumber (4 + middle * 4)
      if middleHash < hash then leafSearch view leaf hash rounds (middle + 1) high
      else leafSearch view leaf hash rounds low middle
    else return low

/-- Compares the keys of the entries with a hash, from a position on. -/
def leafScan (provider : SegmentProvider) (view : SegmentView) (leaf : RecordIdentifier)
    (size : Nat) (hash : UInt32) (name : String) : Nat → Nat → Result (Option RecordIdentifier)
  | 0, _ => .ok none
  | rounds + 1, position => do
    let positionHash ← view.readU32 leaf.recordNumber (4 + position * 4)
    if positionHash ≠ hash then return none
    else
      let keyIdentifier ← view.readRecordIdentifier leaf.recordNumber (4 + size * 4) (position * 2)
      if (← readString provider keyIdentifier) = name then
        let value ← view.readRecordIdentifier leaf.recordNumber (4 + size * 4) (position * 2 + 1)
        return some value
      else leafScan provider view leaf size hash name rounds (position + 1)

/-- Looks a name up in a leaf. -/
def leafEntry (provider : SegmentProvider) (view : SegmentView) (leaf : RecordIdentifier)
    (size : Nat) (hash : UInt32) (name : String) : Result (Option RecordIdentifier) := do
  let low ← leafSearch view leaf hash size 0 size
  leafScan provider view leaf size hash name (size - low) low

/-- Whether a diff overlays the entry of a name. -/
def diffHasName (provider : SegmentProvider) (view : SegmentView) (diff : RecordIdentifier)
    (hash : UInt32) (name : String) : Result Bool := do
  let storedHash ← view.readU32 diff.recordNumber 4
  if storedHash = hash then
    let keyIdentifier ← view.readRecordIdentifier diff.recordNumber 8 0
    let key ← readString provider keyIdentifier
    return key == name
  else return false

/-- The descent of `mapEntry`. -/
def mapEntryWalk (provider : SegmentProvider) (mapIdentifier : RecordIdentifier) (name : String) :
    Nat → RecordIdentifier → Result (Option RecordIdentifier)
  | 0, _ => .error (walkTooLong mapIdentifier)
  | rounds + 1, current => do
    let hash := mapEntryHash name
    let view ← provider current.segment
    let head ← view.readU32 current.recordNumber 0
    if head = diffHead then
      if ← diffHasName provider view current hash name then
        let value ← view.readRecordIdentifier current.recordNumber 8 1
        return some value
      else
        let base ← view.readRecordIdentifier current.recordNumber 8 2
        mapEntryWalk provider mapIdentifier name rounds base
    else
      let size := (head &&& sizeMask).toNat
      let level := (head >>> levelShift).toNat
      if size = 0 then return none
      else if size > bucketsPerLevel ∧ level < maximumLevel then
        let bitmap ← view.readU32 current.recordNumber 4
        let bit : UInt32 := 1 <<< UInt32.ofNat (bucketIndex level hash)
        if bitmap &&& bit = 0 then return none
        else
          let bucketPosition := countOnes (bitmap &&& (bit - 1))
          let bucket ← view.readRecordIdentifier current.recordNumber 8 bucketPosition
          mapEntryWalk provider mapIdentifier name rounds bucket
      else leafEntry provider view current size hash name

/-- Looks a name up. -/
def mapEntry (provider : SegmentProvider) (mapIdentifier : RecordIdentifier) (name : String) :
    Result (Option RecordIdentifier) :=
  mapEntryWalk provider mapIdentifier name maximumWalkLength mapIdentifier

end Froe
