import Froe.Lib.Checked
import Froe.Segment.Parsed

/-!
# Reading segments on machine words

The reader of segments with its arithmetic on machine words and its slices, as it runs:
a sum that overflows or an index outside of the buffer would stop it.  On every buffer it
returns what the reader of `Parsed` returns, so that nothing stops it.
-/

namespace Froe

open Checked
open Bytes (u32At u64At)

/-- A program that may refuse its input. -/
abbrev Machine := ExceptT Error Run

namespace Machine

/-- Refuses a segment. -/
def refuse {α : Type} (details : String) : Machine α := throw (.invalidFormat details)

/-! ## Words -/

/-- Reads a word of 32 bits. -/
def readU32 (bytes : Bytes) (offset : Nat) : Run UInt32 := do
  let stop ← add offset 4
  let word ← slice bytes offset stop
  return word.u32At 0

/-- Reads a word of 64 bits. -/
def readU64 (bytes : Bytes) (offset : Nat) : Run UInt64 := do
  let stop ← add offset 8
  let word ← slice bytes offset stop
  return word.u64At 0

/-- Reads a segment identifier, most significant bits first. -/
def readIdentifier (bytes : Bytes) (position : Nat) : Run SegmentIdentifier := do
  let most ← readU64 bytes position
  let next ← add position 8
  let least ← readU64 bytes next
  return ⟨most, least⟩

section

variable {B : Allocation → Prop} {bytes : Bytes} {offset : Nat}

section

variable (hlength : bytes.length < wordCount)
include hlength

/-- A word inside the bytes is read without a panic. -/
theorem ends_readU32 (h : offset + 4 ≤ bytes.length) :
    Ends B (readU32 bytes offset) (bytes.u32At offset) := by
  have hslice := @ends_slice B bytes offset (offset + 4) (by omega) h
  rw [Nat.add_sub_cancel_left] at hslice
  have hword : (bytes.slice offset 4).u32At 0 = bytes.u32At offset := by
    rw [u32At, Bytes.slice_slice (by omega), Nat.add_zero, u32At]
  rw [← hword]
  exact (ends_add (by omega)).bind (hslice.bind (ends_pure _))

/-- A long word inside the bytes is read without a panic. -/
theorem ends_readU64 (h : offset + 8 ≤ bytes.length) :
    Ends B (readU64 bytes offset) (bytes.u64At offset) := by
  have hslice := @ends_slice B bytes offset (offset + 8) (by omega) h
  rw [Nat.add_sub_cancel_left] at hslice
  have hword : (bytes.slice offset 8).u64At 0 = bytes.u64At offset := by
    rw [u64At, Bytes.slice_slice (by omega), Nat.add_zero, u64At]
  rw [← hword]
  exact (ends_add (by omega)).bind (hslice.bind (ends_pure _))

/-- An identifier inside the bytes is read without a panic. -/
theorem ends_readIdentifier (h : offset + 16 ≤ bytes.length) :
    Ends B (readIdentifier bytes offset) (identifierAt (bytes.drop offset)) := by
  have hidentifier : identifierAt (bytes.drop offset) =
      ⟨bytes.u64At offset, bytes.u64At (offset + 8)⟩ := by
    rw [identifierAt, u64At, u64At, u64At, u64At, Bytes.slice, Bytes.slice,
      List.drop_drop, List.drop_drop]
    rfl
  rw [hidentifier]
  exact (ends_readU64 hlength (by omega)).bind
    ((ends_add (by omega)).bind ((ends_readU64 hlength (by omega)).bind (ends_pure _)))

end

end

/-! ## Parsing -/

/-- The position behind a record table. -/
def checkedRecordTableEnd (tableStart recordCount : Nat) : Option Nat :=
  (checkedMul recordCount 9).bind (checkedAdd tableStart)

/-- The generation of a header, by the version of its format. -/
def headerGeneration (version : UInt8) (bytes : Bytes) : Run GarbageCollectionGeneration := do
  let generation ← readU32 bytes 10
  if version = 13 then
    let raw ← readU32 bytes 4
    return ⟨generation.toInt32, (raw &&& 0x7FFFFFFF).toInt32, signed32 raw < 0⟩
  else return ⟨generation.toInt32, generation.toInt32, true⟩

/-- Checks the header of a data segment and its counts. -/
def validateDataSegmentHeader (identifier : SegmentIdentifier) (bytes : Bytes) :
    Machine DataSegmentHeader := do
  if bytes.length < 32 then
    refuse s!"data segment {identifier.display} has only {bytes.length} bytes, the header needs 32"
  else
    let magic ← slice bytes 0 3
    if magic ≠ "0aK".utf8 then
      refuse s!"data segment {identifier.display} does not start with the magic bytes \"0aK\""
    else
      let version ← (index bytes 3 : Run UInt8)
      if version ≠ 12 ∧ version ≠ 13 then
        refuse s!"data segment {identifier.display} has unsupported format version {version}"
      else
        let generation ← headerGeneration version bytes
        let referenceWord ← readU32 bytes 14
        let recordWord ← readU32 bytes 18
        let segmentReferenceCount := signed32 referenceWord
        let recordCount := signed32 recordWord
        if segmentReferenceCount < 0 ∨ 0xFFFD < segmentReferenceCount then
          refuse s!"data segment {identifier.display} declares {segmentReferenceCount} segment references, the limit is 65533"
        else if recordCount < 0 then
          refuse s!"data segment {identifier.display} declares a negative record count"
        else
          let referenceBytes ← mul segmentReferenceCount.toNat 16
          let recordTableStart ← add 32 referenceBytes
          if ∀ stop ∈ checkedRecordTableEnd recordTableStart recordCount.toNat,
              stop > bytes.length then
            refuse s!"data segment {identifier.display} of {bytes.length} bytes cannot hold {segmentReferenceCount} segment references and {recordCount} record references"
          else
            return ⟨version, generation.generation, generation.fullGeneration,
              generation.isCompacted, segmentReferenceCount.toNat, recordCount.toNat,
              recordTableStart⟩

section

variable {B : Allocation → Prop} {identifier : SegmentIdentifier} {bytes : Bytes}

theorem ends_headerGeneration (version : UInt8) (hlength : bytes.length < wordCount)
    (h : 32 ≤ bytes.length) :
    Ends B (headerGeneration version bytes) (Froe.headerGeneration version bytes) := by
  rw [headerGeneration, Froe.headerGeneration]
  refine (ends_readU32 hlength (by omega)).bind ?_
  refine ends_ite (fun _ => ?_) fun _ => ends_pure _
  exact (ends_readU32 hlength (by omega)).bind (ends_pure _)

/-- The bound on the end of the record table is that of the sum. -/
theorem tableEnd_exceeds_iff {start count length : Nat} (hlength : length < wordCount) :
    (∀ stop ∈ checkedRecordTableEnd start count, stop > length) ↔ start + count * 9 > length := by
  rw [checkedRecordTableEnd, checkedMul]
  by_cases hmul : count * 9 < wordCount
  · rw [if_pos hmul, Option.bind_some, checkedAdd]
    by_cases hadd : start + count * 9 < wordCount
    · rw [if_pos hadd]
      exact ⟨fun h => h _ rfl, fun h stop hstop => Option.some.inj hstop ▸ h⟩
    · rw [if_neg hadd]
      exact ⟨fun _ => by omega, nofun⟩
  · rw [if_neg hmul]
    exact ⟨fun _ => by omega, nofun⟩

/-- The header is checked without a panic. -/
theorem ends_validateDataSegmentHeader (hlength : bytes.length < wordCount) :
    Ends B (validateDataSegmentHeader identifier bytes).run
      (Froe.validateDataSegmentHeader identifier bytes) := by
  rw [validateDataSegmentHeader, Froe.validateDataSegmentHeader]
  by_cases hshort : bytes.length < 32
  · rw [if_pos hshort, if_pos hshort]
    exact ends_throw _
  rw [if_neg hshort, if_neg hshort]
  refine (ends_slice (Nat.zero_le _) (by omega)).liftThen ?_
  change Ends B (ExceptT.run (if bytes.take 3 ≠ "0aK".utf8 then _ else _)) _
  by_cases hmagic : bytes.take 3 ≠ "0aK".utf8
  · rw [if_pos hmagic, if_pos hmagic]
    exact ends_throw _
  rw [if_neg hmagic, if_neg hmagic]
  have hversion : bytes[3]? = some (bytes.getD 3 0) := by
    rw [List.getD_eq_getElem?_getD, List.getElem?_eq_getElem (by omega), Option.getD_some]
  refine (ends_index hversion).liftThen ?_
  generalize bytes.getD 3 0 = version
  dsimp only
  by_cases hunsupported : version ≠ 12 ∧ version ≠ 13
  · rw [if_pos hunsupported, if_pos hunsupported]
    exact ends_throw _
  rw [if_neg hunsupported, if_neg hunsupported]
  refine (ends_headerGeneration version hlength (by omega)).liftThen ?_
  refine (ends_readU32 hlength (by omega)).liftThen ?_
  refine (ends_readU32 hlength (by omega)).liftThen ?_
  generalize signed32 (bytes.u32At 14) = references
  generalize signed32 (bytes.u32At 18) = records
  by_cases hreferences : references < 0 ∨ 0xFFFD < references
  · rw [if_pos hreferences, if_pos hreferences]
    exact ends_throw _
  rw [if_neg hreferences, if_neg hreferences]
  by_cases hrecords : records < 0
  · rw [if_pos hrecords, if_pos hrecords]
    exact ends_throw _
  rw [if_neg hrecords, if_neg hrecords]
  have hsmall : references.toNat ≤ 0xFFFD := by omega
  refine (ends_mul (show references.toNat * 16 < wordCount by rw [wordCount]; omega)).liftThen ?_
  refine (ends_add (show 32 + references.toNat * 16 < wordCount by rw [wordCount]; omega)).liftThen ?_
  have hiff := @tableEnd_exceeds_iff (32 + references.toNat * 16) records.toNat bytes.length hlength
  by_cases hfit : 32 + references.toNat * 16 + records.toNat * 9 > bytes.length
  · rw [if_pos hfit, if_pos (hiff.mpr hfit)]
    exact ends_throw _
  · rw [if_neg hfit, if_neg (mt hiff.mp hfit)]
    exact ends_return _

end

/-- Reads the table of referenced segments. -/
def readReferences (bytes : Bytes) : Nat → Nat → Run (List SegmentIdentifier)
  | 0, _ => pure []
  | count + 1, referenceIndex => do
    let distance ← mul referenceIndex 16
    let base ← add 32 distance
    let reference ← readIdentifier bytes base
    let references ← readReferences bytes count (referenceIndex + 1)
    return reference :: references

/-- Reads the entries of the record table from an index on. -/
def parseRecordTable (identifier : SegmentIdentifier) (bytes : Bytes) (tableStart : Nat) :
    Nat → Nat → Option Nat → Machine (List RecordTableEntry)
  | 0, _, _ => pure []
  | count + 1, recordIndex, previous => do
    let distance ← mul recordIndex 9
    let base ← add tableStart distance
    let numberWord ← readU32 bytes base
    let typePosition ← add base 4
    let typeByte ← (index bytes typePosition : Run UInt8)
    let offsetPosition ← add base 5
    let offsetWord ← readU32 bytes offsetPosition
    let recordNumber := signed32 numberWord
    let offset := signed32 offsetWord
    if recordNumber < 0 then
      refuse s!"data segment {identifier.display} contains negative record number {recordNumber}"
    else if offset < 0 ∨ maximumSegmentSize ≤ offset then
      refuse s!"data segment {identifier.display} contains out-of-range record offset {offset}"
    else if ∃ number ∈ previous, recordNumber ≤ number then
      refuse s!"record table of segment {identifier.display} is not sorted by record number"
    else
      let entry : RecordTableEntry := ⟨numberWord, typeByte, offsetWord⟩
      let rest ← parseRecordTable identifier bytes tableStart count (recordIndex + 1)
        (some entry.key)
      return entry :: rest

/-- What a data segment has besides its records. -/
structure Tables where
  version : UInt8
  generation : GarbageCollectionGeneration
  referencedSegments : List SegmentIdentifier
  recordTable : List RecordTableEntry

/-- Reads the tables of a data segment, with the capacities that it allocates for them. -/
def parseDataSegment (identifier : SegmentIdentifier) (bytes : Bytes) : Machine Tables := do
  let header ← validateDataSegmentHeader identifier bytes
  allocate header.segmentReferenceCount 16 bytes.length
  let references ← readReferences bytes header.segmentReferenceCount 0
  allocate header.recordCount 9 bytes.length
  let recordTable ← parseRecordTable identifier bytes header.recordTableStart header.recordCount 0
    none
  return ⟨header.version, ⟨header.generation, header.fullGeneration, header.isCompacted⟩,
    references, recordTable⟩

/-- Parses a segment; a bulk segment has no tables. -/
def parse (identifier : SegmentIdentifier) (bytes : Bytes) : Machine (Option Tables) :=
  if bytes.length > maximumSegmentSize then
    refuse s!"segment {identifier.display} has {bytes.length} bytes, exceeding the {maximumSegmentSize}-byte format limit"
  else
    match identifier.kind with
    | none => refuse s!"segment {identifier.display} is neither a data nor a bulk segment"
    | some .bulk => pure none
    | some .data => do
      let tables ← parseDataSegment identifier bytes
      return some tables

/-- The tables that a parsed segment holds. -/
def tablesOf (segment : ParsedSegment) : Option Tables :=
  match segment.kind with
  | .bulk => none
  | .data =>
    some ⟨segment.version.getD 0, segment.garbageCollectionGeneration, segment.referencedSegments,
      segment.recordTable⟩

/-- The rows of an allocation are not more than its bytes can hold. -/
def Held (allocation : Allocation) : Prop :=
  allocation.rows * allocation.rowBytes ≤ allocation.heldBytes

section

variable {B : Allocation → Prop} {identifier : SegmentIdentifier} {bytes : Bytes}

/-- A slice behind a prefix. -/
theorem slice_drop (position start n : Nat) :
    Bytes.slice (bytes.drop position) start n = bytes.slice (position + start) n := by
  rw [Bytes.slice, List.drop_drop, Bytes.slice]

theorem u32At_drop (position start : Nat) :
    u32At (bytes.drop position) start = bytes.u32At (position + start) := by
  rw [u32At, slice_drop, u32At]

theorem getElem?_getD {position : Nat} (h : position < bytes.length) :
    bytes[position]? = some (bytes.getD position 0) := by
  rw [List.getD_eq_getElem?_getD, List.getElem?_eq_getElem h, Option.getD_some]

/-- References inside the bytes are read without a panic. -/
theorem ends_readReferences (hlength : bytes.length < wordCount) {count referenceIndex : Nat}
    (h : 32 + (referenceIndex + count) * 16 ≤ bytes.length) :
    Ends B (readReferences bytes count referenceIndex)
      (readIdentifiers count (bytes.drop (32 + referenceIndex * 16))).1 := by
  induction count generalizing referenceIndex with
  | zero => exact ends_pure _
  | succ count ih =>
    have hrest := @ih (referenceIndex + 1) (by omega)
    rw [readReferences, readIdentifiers]
    refine (ends_mul (by omega)).bind ((ends_add (by omega)).bind ?_)
    refine (ends_readIdentifier hlength (by omega)).bind (hrest.bind ?_)
    rw [List.drop_drop, show 32 + (referenceIndex + 1) * 16 = 32 + referenceIndex * 16 + 16 by omega]
    exact ends_pure _

/-- A record table inside the bytes is parsed without a panic. -/
theorem ends_parseRecordTable (hlength : bytes.length < wordCount) {start count recordIndex : Nat}
    {previous : Option Nat} (h : start + (recordIndex + count) * 9 ≤ bytes.length) :
    Ends B (parseRecordTable identifier bytes start count recordIndex previous).run
      (Froe.parseRecordTable identifier count previous (bytes.drop (start + recordIndex * 9))) := by
  induction count generalizing recordIndex previous with
  | zero => exact ends_return _
  | succ count ih =>
    have hbase : start + recordIndex * 9 + 9 ≤ bytes.length := by omega
    rw [parseRecordTable, Froe.parseRecordTable, u32At_drop, u32At_drop, Nat.add_zero]
    refine (ends_mul (by omega)).liftThen ((ends_add (by omega)).liftThen ?_)
    refine (ends_readU32 hlength (by omega)).liftThen ((ends_add (by omega)).liftThen ?_)
    refine (ends_index (getElem?_getD (by omega))).liftThen ((ends_add (by omega)).liftThen ?_)
    refine (ends_readU32 hlength (by omega)).liftThen ?_
    have htype : (bytes.drop (start + recordIndex * 9)).getD 4 0 =
        bytes.getD (start + recordIndex * 9 + 4) 0 := by
      rw [List.getD_eq_getElem?_getD, List.getElem?_drop, List.getD_eq_getElem?_getD]
    have hdrop : (bytes.drop (start + recordIndex * 9)).drop 9 =
        bytes.drop (start + (recordIndex + 1) * 9) := by
      rw [List.drop_drop, Nat.succ_mul, Nat.add_assoc]
    rw [htype, hdrop]
    generalize bytes.u32At (start + recordIndex * 9) = number
    generalize bytes.u32At (start + recordIndex * 9 + 5) = offset
    dsimp only
    by_cases hnumber : signed32 number < 0
    · rw [if_pos hnumber, if_pos hnumber]
      exact ends_throw _
    rw [if_neg hnumber, if_neg hnumber]
    by_cases hoffset : signed32 offset < 0 ∨ maximumSegmentSize ≤ signed32 offset
    · rw [if_pos hoffset, if_pos hoffset]
      exact ends_throw _
    rw [if_neg hoffset, if_neg hoffset]
    by_cases horder : ∃ previousNumber ∈ previous, signed32 number ≤ previousNumber
    · rw [if_pos horder, if_pos horder]
      exact ends_throw _
    rw [if_neg horder, if_neg horder]
    exact Ends.andThen (ih (by omega)) fun rest _ => ends_return _

/-- The tables of an accepted header lie in the buffer. -/
theorem tables_le_of_header {header : DataSegmentHeader}
    (h : Froe.validateDataSegmentHeader identifier bytes = .ok header) :
    header.recordTableStart = 32 + header.segmentReferenceCount * 16 ∧
      header.recordTableStart + header.recordCount * 9 ≤ bytes.length := by
  rw [Froe.validateDataSegmentHeader] at h
  dsimp only at h
  split at h
  · cases h
  · split at h
    · cases h
    · split at h
      · cases h
      · split at h
        · cases h
        · split at h
          · cases h
          · split at h
            · cases h
            · rename_i hfit
              obtain rfl := Except.ok.inj h
              exact ⟨rfl, not_lt.mp hfit⟩

/-- The kind and the size of a parsed data segment. -/
theorem parseDataSegment_fields {segment : ParsedSegment}
    (h : Froe.parseDataSegment identifier bytes = .ok segment) :
    segment.kind = .data ∧ segment.size = bytes.length := by
  rw [Froe.parseDataSegment] at h
  split at h
  · cases h
  · split at h
    · cases h
    · obtain rfl := Except.ok.inj h
      exact ⟨rfl, rfl⟩

/-- A data segment is parsed without a panic. -/
theorem ends_parseDataSegment (hlength : bytes.length < wordCount) :
    Ends Held (parseDataSegment identifier bytes).run
      ((Froe.parseDataSegment identifier bytes).map fun segment =>
        ⟨segment.version.getD 0, segment.garbageCollectionGeneration, segment.referencedSegments,
          segment.recordTable⟩) := by
  rw [parseDataSegment, Froe.parseDataSegment]
  have hheader := @ends_validateDataSegmentHeader Held identifier bytes hlength
  cases hvalid : Froe.validateDataSegmentHeader identifier bytes with
  | error error =>
    rw [hvalid] at hheader
    exact hheader.stop
  | ok header =>
    rw [hvalid] at hheader
    obtain ⟨hstart, htables⟩ := tables_le_of_header hvalid
    have htable := @ends_parseRecordTable Held identifier bytes hlength header.recordTableStart
      header.recordCount 0 none (by omega)
    rw [Nat.zero_mul, Nat.add_zero] at htable
    have hreferences : header.segmentReferenceCount * 16 ≤ bytes.length := by omega
    have hrecords : header.recordCount * 9 ≤ bytes.length := by omega
    refine hheader.goOn ?_
    refine (ends_allocate hreferences).liftThen ?_
    refine (ends_readReferences hlength (by omega)).liftThen ?_
    refine (ends_allocate hrecords).liftThen ?_
    dsimp only
    split
    · rename_i error herror
      rw [herror] at htable
      exact htable.stop
    · rename_i recordTable hok
      rw [hok] at htable
      exact htable.goOn (ends_return _)

/-- A segment of any bytes is parsed without a fault and with tables that its bytes can hold. -/
theorem ends_parse (hlength : bytes.length < wordCount) :
    Ends Held (parse identifier bytes).run ((ParsedSegment.parse identifier bytes).map tablesOf) := by
  rw [parse, ParsedSegment.parse]
  by_cases hlarge : bytes.length > maximumSegmentSize
  · rw [if_pos hlarge, if_pos hlarge]
    exact ends_throw _
  rw [if_neg hlarge, if_neg hlarge]
  cases hkind : identifier.kind with
  | none => exact ends_throw _
  | some kind =>
    cases kind with
    | bulk => exact ends_return _
    | data =>
      have hdata := @ends_parseDataSegment identifier bytes hlength
      cases hparse : Froe.parseDataSegment identifier bytes with
      | error error =>
        rw [hparse] at hdata
        exact hdata.stop
      | ok segment =>
        rw [hparse] at hdata
        have htables : (Except.ok segment : Result ParsedSegment).map tablesOf =
            .ok (some ⟨segment.version.getD 0, segment.garbageCollectionGeneration,
              segment.referencedSegments, segment.recordTable⟩) := by
          show Except.ok (tablesOf segment) = _
          rw [tablesOf, (parseDataSegment_fields hparse).1]
        dsimp only
        rw [htables]
        exact hdata.goOn (ends_return _)

/-- The size of a parsed segment is that of its buffer, within the limit. -/
theorem size_of_parse {segment : ParsedSegment}
    (h : ParsedSegment.parse identifier bytes = .ok segment) :
    segment.size = bytes.length ∧ segment.size ≤ maximumSegmentSize := by
  rw [ParsedSegment.parse] at h
  split at h
  · cases h
  · rename_i hlarge
    have hsize : segment.size = bytes.length := by
      split at h
      · cases h
      · obtain rfl := Except.ok.inj h
        rfl
      · exact (parseDataSegment_fields h).2
    exact ⟨hsize, hsize.trans_le (not_lt.mp hlarge)⟩

end

/-! ## Records -/

/-- The row of a record, by a binary search. -/
def searchPosition (segment : ParsedSegment) (recordNumber : UInt32) : Option Nat :=
  let position := Search.narrow RecordTableEntry.key recordNumber.toNat segment.recordTable
    segment.recordTable.length 0 segment.recordTable.length
  if (Search.binarySearch RecordTableEntry.key recordNumber.toNat segment.recordTable).isSome then
    some position
  else none

/-- The virtual offset of a record. -/
def recordOffset (segment : ParsedSegment) (recordNumber : UInt32) : Run (Option UInt32) :=
  match segment.kind with
  | .bulk => pure (some recordNumber)
  | .data =>
    match searchPosition segment recordNumber with
    | none => pure none
    | some position => do
      let entry ← index segment.recordTable position
      return some entry.offset

/-- The position of a virtual offset in the buffer. -/
def bufferPosition (segment : ParsedSegment) (virtualOffset : UInt32) : Machine Nat := do
  let difference ← signedWord ((segment.size : Int) - maximumSegmentSize)
  let position ← signedWord (difference + virtualOffset.toNat)
  if position < 0 ∨ (segment.size : Int) ≤ position then
    refuse s!"virtual offset {virtualOffset} is outside segment {segment.identifier.display} of {segment.size} bytes"
  else return position.toNat

/-- The segment that a reference number stands for; zero is the segment itself. -/
def resolveSegmentReference (segment : ParsedSegment) (reference : UInt16) :
    Machine SegmentIdentifier := do
  if reference = 0 then return segment.identifier
  else
    let position ← sub reference.toNat 1
    match segment.referencedSegments[position]? with
    | some identifier => return identifier
    | none =>
      refuse s!"segment reference {reference} is out of bounds in segment {segment.identifier.display} with {segment.referencedSegments.length} references"

/-- Where a record begins in the buffer. -/
def recordPosition (view : SegmentView) (recordNumber : UInt32) : Machine Nat := do
  match ← (recordOffset view.structure_ recordNumber : Run (Option UInt32)) with
  | some offset => bufferPosition view.structure_ offset
  | none =>
    refuse s!"record {recordNumber} does not exist in segment {view.structure_.identifier.display}"

/-- Reads bytes of a record. -/
def readBytes (view : SegmentView) (recordNumber : UInt32) (offset length : Nat) :
    Machine Bytes := do
  let overrun := s!"read of {length} bytes at offset {offset} of record {recordNumber} overruns segment {view.structure_.identifier.display}"
  let position ← recordPosition view recordNumber
  match checkedAdd position offset with
  | none => refuse overrun
  | some start =>
    match (checkedAdd start length).filter (· ≤ view.bytes.length) with
    | none => refuse overrun
    | some stop => slice view.bytes start stop

/-- Reads two bytes of a record. -/
def readU16 (view : SegmentView) (recordNumber : UInt32) (offset : Nat) : Machine UInt16 := do
  let bytes ← readBytes view recordNumber offset 2
  let first ← (index bytes 0 : Run UInt8)
  let second ← (index bytes 1 : Run UInt8)
  return Bytes.u16At [first, second] 0

/-- Reads four bytes of a record. -/
def readViewU32 (view : SegmentView) (recordNumber : UInt32) (offset : Nat) : Machine UInt32 := do
  let bytes ← readBytes view recordNumber offset 4
  let first ← (index bytes 0 : Run UInt8)
  let second ← (index bytes 1 : Run UInt8)
  let third ← (index bytes 2 : Run UInt8)
  let fourth ← (index bytes 3 : Run UInt8)
  return Bytes.u32At [first, second, third, fourth] 0

/-- Reads an identifier out of a row of them. -/
def readRecordIdentifier (view : SegmentView) (recordNumber : UInt32)
    (rawOffset identifierIndex : Nat) : Machine RecordIdentifier := do
  match (checkedMul identifierIndex 6).bind (checkedAdd rawOffset) with
  | none =>
    refuse s!"record identifier offset overflows in record {recordNumber} of segment {view.structure_.identifier.display}"
  | some offset =>
    let reference ← readU16 view recordNumber offset
    let behind ← add offset 2
    let target ← readViewU32 view recordNumber behind
    let segment ← resolveSegmentReference view.structure_ reference
    return ⟨segment, target⟩

section

variable {B : Allocation → Prop} {segment : ParsedSegment} {view : SegmentView}

/-- The lookup of a record does not panic. -/
theorem ends_recordOffset (recordNumber : UInt32) :
    Ends B (recordOffset segment recordNumber) (segment.recordOffset recordNumber) := by
  rw [recordOffset, ParsedSegment.recordOffset]
  cases segment.kind with
  | bulk => exact ends_pure _
  | data =>
    rw [searchPosition]
    cases hfound : Search.binarySearch RecordTableEntry.key recordNumber.toNat
      segment.recordTable with
    | none => exact ends_pure _
    | some entry =>
      rw [Search.binarySearch, Option.filter_eq_some_iff] at hfound
      exact (ends_index hfound.1).bind (ends_pure _)

/-- A position is computed without an overflow. -/
theorem ends_bufferPosition (hsize : segment.size ≤ maximumSegmentSize) (virtualOffset : UInt32) :
    Ends B (bufferPosition segment virtualOffset).run (segment.bufferPosition virtualOffset) := by
  have hoffset := virtualOffset.toNat_lt
  have hmaximum : maximumSegmentSize = 262144 := rfl
  rw [bufferPosition, ParsedSegment.bufferPosition]
  refine (ends_signedWord (by omega) (by omega)).liftThen ?_
  refine (ends_signedWord (by omega) (by omega)).liftThen ?_
  split
  · exact ends_throw _
  · exact ends_return _

/-- A reference is resolved without a panic. -/
theorem ends_resolveSegmentReference (reference : UInt16) :
    Ends B (resolveSegmentReference segment reference).run
      (segment.resolveSegmentReference reference) := by
  rw [resolveSegmentReference, ParsedSegment.resolveSegmentReference]
  by_cases hzero : reference = 0
  · rw [if_pos hzero, if_pos hzero]
    exact ends_return _
  rw [if_neg hzero, if_neg hzero]
  have hpos : 1 ≤ reference.toNat := by
    rw [Nat.one_le_iff_ne_zero]
    exact fun heq => hzero (UInt16.toNat_inj.mp heq)
  refine (ends_sub hpos).liftThen ?_
  cases segment.referencedSegments[reference.toNat - 1]? with
  | none => exact ends_throw _
  | some identifier => exact ends_return _

/-- The position of a record is found without a panic. -/
theorem ends_recordPosition (hsize : view.structure_.size ≤ maximumSegmentSize)
    (recordNumber : UInt32) :
    Ends B (recordPosition view recordNumber).run (view.recordPosition recordNumber) := by
  rw [recordPosition, SegmentView.recordPosition]
  refine (ends_recordOffset recordNumber).liftThen ?_
  cases view.structure_.recordOffset recordNumber with
  | none => exact ends_throw _
  | some offset => exact ends_bufferPosition hsize offset

/-- Bytes are read without a panic. -/
theorem ends_readBytes (hsize : view.structure_.size ≤ maximumSegmentSize)
    (hbytes : view.bytes.length < wordCount) (recordNumber : UInt32) (offset length : Nat) :
    Ends B (readBytes view recordNumber offset length).run
      (view.readBytes recordNumber offset length) := by
  rw [readBytes, SegmentView.readBytes]
  refine (ends_recordPosition hsize recordNumber).andThen fun position _ => ?_
  by_cases hrange : position + offset + length ≤ view.bytes.length
  · rw [Bytes.range?_of_le hrange, checkedAdd, if_pos (by omega)]
    dsimp only
    rw [checkedAdd, if_pos (by omega), Option.filter_some, if_pos (by exact decide_eq_true hrange)]
    have hslice := @ends_slice B view.bytes (position + offset) (position + offset + length)
      (by omega) hrange
    rw [Nat.add_sub_cancel_left] at hslice
    exact hslice.lift
  · have hnone : view.bytes.range? (position + offset) (position + offset + length) = none := by
      rw [Bytes.range?, if_neg fun h => hrange h.2]
    rw [hnone]
    cases hstart : checkedAdd position offset with
    | none => exact ends_throw _
    | some start =>
      have hvalue : start = position + offset := by
        rw [checkedAdd] at hstart
        split at hstart
        · exact (Option.some.inj hstart).symm
        · cases hstart
      have hstop : (checkedAdd start length).filter (· ≤ view.bytes.length) = none := by
        rw [Option.filter_eq_none_iff]
        intro stop hmem
        rw [checkedAdd] at hmem
        split at hmem
        · rw [← Option.some.inj hmem, hvalue]
          exact fun hle => hrange (of_decide_eq_true hle)
        · cases hmem
      dsimp only
      rw [hstop]
      exact ends_throw _

/-- A read that succeeds lies in the buffer. -/
theorem le_of_readBytes {recordNumber : UInt32} {offset length : Nat} {bytes : Bytes}
    (h : view.readBytes recordNumber offset length = .ok bytes) :
    bytes.length = length ∧ offset + length ≤ view.bytes.length := by
  rw [SegmentView.readBytes] at h
  obtain ⟨position, -, hread⟩ := Except.bind_ok_iff.mp h
  rw [Bytes.range?] at hread
  by_cases hrange : position + offset ≤ position + offset + length ∧
      position + offset + length ≤ view.bytes.length
  · rw [if_pos hrange] at hread
    rw [← Except.ok.inj hread, Bytes.length_slice]
    omega
  · rw [if_neg hrange] at hread
    cases hread

section

variable (hsize : view.structure_.size ≤ maximumSegmentSize)
  (hbytes : view.bytes.length < wordCount) (recordNumber : UInt32) (offset : Nat)
include hsize hbytes

theorem ends_readU16 :
    Ends B (readU16 view recordNumber offset).run (view.readU16 recordNumber offset) := by
  rw [readU16, SegmentView.readU16]
  refine (ends_readBytes hsize hbytes recordNumber offset 2).andThen fun bytes hread => ?_
  obtain ⟨hlength, -⟩ := le_of_readBytes hread
  match bytes, hlength with
  | [first, second], _ =>
    refine (ends_index rfl).liftThen ((ends_index rfl).liftThen ?_)
    exact ends_return _

theorem ends_readViewU32 :
    Ends B (readViewU32 view recordNumber offset).run (view.readU32 recordNumber offset) := by
  rw [readViewU32, SegmentView.readU32]
  refine (ends_readBytes hsize hbytes recordNumber offset 4).andThen fun bytes hread => ?_
  obtain ⟨hlength, -⟩ := le_of_readBytes hread
  match bytes, hlength with
  | [first, second, third, fourth], _ =>
    refine (ends_index rfl).liftThen ((ends_index rfl).liftThen ?_)
    refine (ends_index rfl).liftThen ((ends_index rfl).liftThen ?_)
    exact ends_return _

end

/-- The offset of an identifier, when it is a machine word. -/
theorem identifierOffset {rawOffset identifierIndex : Nat} :
    (checkedMul identifierIndex 6).bind (checkedAdd rawOffset) =
      if rawOffset + identifierIndex * 6 < wordCount then some (rawOffset + identifierIndex * 6)
      else none := by
  rw [checkedMul]
  by_cases hmul : identifierIndex * 6 < wordCount
  · rw [if_pos hmul, Option.bind_some, checkedAdd]
  · rw [if_neg hmul, if_neg (by omega)]
    rfl

/-- An offset that is no machine word is refused, and any other is read as in the model. -/
theorem ends_readRecordIdentifier (hsize : view.structure_.size ≤ maximumSegmentSize)
    (hbytes : view.bytes.length < wordCount) (recordNumber : UInt32)
    (rawOffset identifierIndex : Nat) :
    Ends B (readRecordIdentifier view recordNumber rawOffset identifierIndex).run
      (if rawOffset + identifierIndex * 6 < wordCount then
        view.readRecordIdentifier recordNumber rawOffset identifierIndex
      else invalid s!"record identifier offset overflows in record {recordNumber} of segment {view.structure_.identifier.display}") := by
  rw [readRecordIdentifier, identifierOffset]
  by_cases hword : rawOffset + identifierIndex * 6 < wordCount
  · rw [if_pos hword, if_pos hword, SegmentView.readRecordIdentifier]
    refine (ends_readU16 hsize hbytes recordNumber _).andThen fun reference hread => ?_
    obtain ⟨bytes, hbytes', -⟩ := Except.bind_ok_iff.mp hread
    obtain ⟨-, hle⟩ := le_of_readBytes hbytes'
    refine (ends_add (by omega)).liftThen ?_
    refine (ends_readViewU32 hsize hbytes recordNumber _).andThen fun target _ => ?_
    refine (ends_resolveSegmentReference reference).andThen fun identifier _ => ?_
    exact ends_return _
  · rw [if_neg hword, if_neg hword]
    exact ends_throw _

end

end Machine

end Froe
