import Froe.Tar.TrailerRoundTrip
import Froe.Writer.SegmentBuilder

/-!
# Reading a built segment back

A builder within its bounds finishes to a segment that parses, with the tables
of the builder (`parse_finish`), and a read inside a record returns what was
written there (`readBytes_finish`).
-/

namespace Froe

open List (append_assoc length_append length_cons)

open SegmentBufferBuilder
open Bytes (drop_add_of_drop_eq)

/-! ## Lengths -/

theorem le_alignedSize (size : Nat) : size ≤ alignedSize size := by
  unfold alignedSize
  omega

@[simp] theorem length_recordData (records : List BufferedRecord) :
    (recordData records).length = dataLength records := by
  induction records with
  | nil => rfl
  | cons record records ih =>
    have := le_alignedSize record.content.length
    simp only [recordData, dataLength, length_append, List.length_replicate, List.map_cons,
      List.sum_cons] at ih ⊢
    omega

theorem dataLength_append (as bs : List BufferedRecord) :
    dataLength (as ++ bs) = dataLength as + dataLength bs := by
  simp [dataLength]

theorem recordData_append (as bs : List BufferedRecord) :
    recordData (as ++ bs) = recordData bs ++ recordData as := by
  induction as with
  | nil => simp [recordData]
  | cons record as ih =>
    rw [List.cons_append, recordData, ih, recordData, append_assoc]

@[simp] theorem length_tableRows (number start : Nat) (records : List BufferedRecord) :
    (tableRows number start records).length = 9 * records.length := by
  induction records generalizing number start with
  | nil => rfl
  | cons record records ih =>
    simp only [tableRows, length_append, Bytes.length_be, ih, length_cons,
      List.length_nil]
    omega

@[simp] theorem length_header (b : SegmentBufferBuilder) : b.header.length = 32 := by
  have hmagic : "0aK".utf8.length = 3 := by decide
  simp [header, hmagic]

theorem length_tables (b : SegmentBufferBuilder) :
    b.tables.length = 32 + 16 * b.referencedSegments.length + 9 * b.records.length := by
  rw [tables, length_append, length_append, length_header,
    length_flatMap_identifierBytes, length_tableRows]

namespace SegmentBufferBuilder

/-- The bounds that `fits` keeps. -/
structure Bounded (b : SegmentBufferBuilder) : Prop where
  references : b.referencedSegments.length ≤ maximumSegmentReferences
  size : headerSize + b.referencedSegments.length * segmentReferenceSize +
    b.records.length * recordReferenceSize + dataLength b.records ≤ maximumSegmentSize
  /-- The first record is not empty: at the very end of the buffer it would have no offset. -/
  nonempty : ∀ record ∈ b.records.head?, 0 < record.content.length

variable {b : SegmentBufferBuilder}

/-- What stands in front of the record data. -/
def front (b : SegmentBufferBuilder) : Bytes :=
  b.tables ++ List.replicate
    ((b.tables.length + dataLength b.records + 15) / 16 * 16 -
      (b.tables.length + dataLength b.records)) 0

theorem finish_bytes (b : SegmentBufferBuilder) :
    b.finish.bytes = b.front ++ recordData b.records := by
  have htables : headerSize + b.referencedSegments.length * segmentReferenceSize +
      b.records.length * recordReferenceSize = b.tables.length := by
    rw [length_tables, headerSize, segmentReferenceSize, recordReferenceSize]
    omega
  simp only [finish, front, htables]

theorem length_finish_bytes (b : SegmentBufferBuilder) :
    b.finish.bytes.length = (b.tables.length + dataLength b.records + 15) / 16 * 16 := by
  rw [finish_bytes, front, length_append, length_append, List.length_replicate,
    length_recordData]
  omega

theorem Bounded.length_le (h : b.Bounded) : b.finish.bytes.length ≤ maximumSegmentSize := by
  have := h.size
  rw [length_finish_bytes, length_tables]
  unfold headerSize segmentReferenceSize recordReferenceSize maximumSegmentSize at *
  omega

/-- The bytes split behind the header. -/
theorem finish_bytes_split (b : SegmentBufferBuilder) :
    ∃ rest, b.finish.bytes = b.header ++ (b.referencedSegments.flatMap identifierBytes ++
      (tableRows 0 maximumSegmentSize b.records ++ rest)) :=
  ⟨_, by rw [finish_bytes, front, tables]; simp only [append_assoc]; rfl⟩

/-- The rows of a record table, parsed. -/
def tableEntries : Nat → Nat → List BufferedRecord → List RecordTableEntry
  | _, _, [] => []
  | number, start, record :: records =>
    ⟨UInt32.ofNat number, record.recordType.toByte,
      UInt32.ofNat (start - alignedSize record.content.length)⟩ ::
      tableEntries (number + 1) (start - alignedSize record.content.length) records

theorem parseRecordTable_tableRows (identifier : SegmentIdentifier) {number start : Nat}
    {previous : Option Nat} {records : List BufferedRecord} (rest : Bytes)
    (hnonempty : start = maximumSegmentSize → ∀ record ∈ records.head?, 0 < record.content.length)
    (hstart : start ≤ maximumSegmentSize) (hdata : dataLength records ≤ start)
    (hnumber : number + records.length < 2 ^ 31) (hprevious : ∀ p ∈ previous, p < number) :
    parseRecordTable identifier records.length previous (tableRows number start records ++ rest) =
      .ok (tableEntries number start records) := by
  induction records generalizing number start previous with
  | nil => rfl
  | cons record records ih =>
    have hcontent := fun h => hnonempty h record rfl
    have haligned := le_alignedSize record.content.length
    have hlength : dataLength (record :: records) =
        alignedSize record.content.length + dataLength records := by
      simp [dataLength]
    simp only [length_cons] at hnumber
    obtain ⟨offset, hoffset⟩ : ∃ n, n = start - alignedSize record.content.length := ⟨_, rfl⟩
    have hbound : offset < maximumSegmentSize := by
      rcases Nat.lt_or_ge start maximumSegmentSize with hlt | hge
      · omega
      · have := hcontent (by omega)
        omega
    have hword : maximumSegmentSize = 2 ^ 18 := rfl
    have hrest := @ih (number + 1) offset (some number)
      (fun h => by omega) (by omega) (by omega) (by omega)
      (fun p hp => by cases hp; omega)
    have hrow : tableRows number start (record :: records) ++ rest =
        Bytes.be 4 number ++ ([record.recordType.toByte] ++ (Bytes.be 4 offset ++
          (tableRows (number + 1) offset records ++ rest))) := by
      rw [tableRows, ← hoffset]
      simp only [append_assoc]
    have h0 : (tableRows number start (record :: records) ++ rest).drop 0 =
        Bytes.be 4 number ++ ([record.recordType.toByte] ++ (Bytes.be 4 offset ++
          (tableRows (number + 1) offset records ++ rest))) := by
      rw [List.drop_zero, hrow]
    have h4 : (tableRows number start (record :: records) ++ rest).drop 4 =
        [record.recordType.toByte] ++ (Bytes.be 4 offset ++
          (tableRows (number + 1) offset records ++ rest)) := by
      simpa using drop_add_of_drop_eq h0
    have h5 : (tableRows number start (record :: records) ++ rest).drop 5 =
        Bytes.be 4 offset ++ (tableRows (number + 1) offset records ++ rest) := by
      simpa using drop_add_of_drop_eq h4
    have h9 : (tableRows number start (record :: records) ++ rest).drop 9 =
        tableRows (number + 1) offset records ++ rest := by
      simpa using drop_add_of_drop_eq h5
    have hbyte : (tableRows number start (record :: records) ++ rest).getD 4 0 =
        record.recordType.toByte := by
      have := congrArg (fun l => l[0]?) h4
      simp only [List.getElem?_drop, Nat.add_zero, List.singleton_append,
        List.getElem?_cons_zero] at this
      rw [List.getD_eq_getElem?_getD, this, Option.getD_some]
    have hw0 := signed32_u32At (show number < 2 ^ 31 by omega) h0
    have hw5 := signed32_u32At (show offset < 2 ^ 31 by omega) h5
    have hu0 : Bytes.u32At (tableRows number start (record :: records) ++ rest) 0 =
        UInt32.ofNat number := by
      rw [be_four (by omega)] at h0
      exact Bytes.u32At_of_drop h0
    have hu5 : Bytes.u32At (tableRows number start (record :: records) ++ rest) 5 =
        UInt32.ofNat offset := by
      rw [be_four (by omega)] at h5
      exact Bytes.u32At_of_drop h5
    have hnat : (UInt32.ofNat number).toNat = number := by
      rw [UInt32.toNat_ofNat']
      omega
    rw [length_cons]
    refine parseRecordTable_succ.mpr ⟨by omega, by omega, by omega, ?_,
      tableEntries (number + 1) offset records, ?_, ?_⟩
    · intro p hp
      rw [hu0, hnat]
      exact hprevious p hp
    · rw [hu0, hbyte, hu5, tableEntries, ← hoffset]
    · rw [hu0, hnat, h9]
      exact hrest

/-! ## The header -/

/-- The word that holds the full generation and the compacted flag. -/
def fullGenerationWord (b : SegmentBufferBuilder) : UInt32 :=
  (b.generation.fullGeneration.toUInt32 &&& 0x7FFFFFFF) |||
    if b.generation.isCompacted then 0x80000000 else 0

/-- The generation that a reader finds in the header. -/
def storedGeneration (b : SegmentBufferBuilder) : GarbageCollectionGeneration :=
  ⟨b.generation.generation, (b.fullGenerationWord &&& 0x7FFFFFFF).toInt32,
    signed32 b.fullGenerationWord < 0⟩

theorem signed32_nonneg_iff (x : UInt32) : 0 ≤ signed32 x ↔ x.toNat < 2 ^ 31 := by
  have hx := x.toNat_lt
  unfold signed32
  rw [← Int32.toInt_toBitVec, UInt32.toBitVec_toInt32, BitVec.toInt_eq_toNat_cond,
    UInt32.toNat_toBitVec]
  split <;> omega

/-- The header of a finished segment is valid, and it declares the tables. -/
theorem validateDataSegmentHeader_finish (hb : b.Bounded) :
    validateDataSegmentHeader b.identifier b.finish.bytes =
      .ok ⟨13, b.storedGeneration.generation, b.storedGeneration.fullGeneration,
        b.storedGeneration.isCompacted, b.referencedSegments.length, b.records.length,
        32 + b.referencedSegments.length * 16⟩ := by
  obtain ⟨rest, hbytes⟩ := b.finish_bytes_split
  obtain ⟨bytes, hb'⟩ : ∃ bytes, bytes = b.finish.bytes := ⟨_, rfl⟩
  obtain ⟨tail, htail⟩ : ∃ tail, tail = b.referencedSegments.flatMap identifierBytes ++
    (tableRows 0 maximumSegmentSize b.records ++ rest) := ⟨_, rfl⟩
  have hsize := hb.size
  have hreferences := hb.references
  have hlength := b.length_finish_bytes
  rw [length_tables] at hlength
  unfold headerSize segmentReferenceSize recordReferenceSize maximumSegmentSize at hsize
  unfold maximumSegmentReferences at hreferences
  rw [← hb'] at hbytes hlength ⊢
  rw [← htail, header] at hbytes
  have h0 : bytes.drop 0 = "0aK".utf8 ++ ([13] ++ (Bytes.be32 b.fullGenerationWord ++ ([0, 0] ++
      (Bytes.be32 b.generation.generation.toUInt32 ++ (Bytes.be 4 b.referencedSegments.length ++
        (Bytes.be 4 b.records.length ++ (List.replicate 10 0 ++ tail))))))) := by
    rw [List.drop_zero, hbytes]
    simp only [append_assoc, fullGenerationWord]
  have hmagic : "0aK".utf8.length = 3 := by decide
  have h3 := drop_add_of_drop_eq h0
  rw [hmagic] at h3
  have h4 := drop_add_of_drop_eq h3
  have h8 := Bytes.drop_be32 h4
  have h10 := drop_add_of_drop_eq h8
  have h14 := Bytes.drop_be32 h10
  have h18 := drop_add_of_drop_eq h14
  simp only [Bytes.length_be, length_cons, List.length_nil, Nat.zero_add,
    Nat.reduceAdd] at h3 h4 h8 h10 h14 h18
  have htake : bytes.take 3 = "0aK".utf8 := by
    have := Bytes.slice_of_drop_eq h0
    rwa [hmagic, Bytes.slice, List.drop_zero] at this
  have hversion : bytes.getD 3 0 = 13 := by
    have := congrArg (fun l => l[0]?) h3
    simp only [List.getElem?_drop, Nat.add_zero, List.singleton_append,
      List.getElem?_cons_zero] at this
    rw [List.getD_eq_getElem?_getD, this, Option.getD_some]
  have hgeneration : headerGeneration 13 bytes = b.storedGeneration := by
    rw [headerGeneration, if_pos rfl, Bytes.u32At_of_drop h10, Bytes.u32At_of_drop h4,
      Int32.toInt32_toUInt32]
    rfl
  have hrefs := signed32_u32At (show b.referencedSegments.length < 2 ^ 31 by omega) h14
  have hrecs := signed32_u32At (show b.records.length < 2 ^ 31 by omega) h18
  rw [validateDataSegmentHeader, if_neg (by omega), if_neg (by rw [htake]; exact fun h => h rfl)]
  simp only [hversion, hgeneration, hrefs, hrecs]
  rw [if_neg (by decide), if_neg (by omega), if_neg (by omega), if_neg (by
    simp only [Int.toNat_natCast]
    omega)]
  simp only [Int.toNat_natCast]

/-! ## The structure -/

/-- What a reader finds of a built segment. -/
structure ParsedAs (b : SegmentBufferBuilder) (parsed : ParsedSegment) : Prop where
  identifier : parsed.identifier = b.identifier
  kind : parsed.kind = .data
  size : parsed.size = b.finish.bytes.length
  referencedSegments : parsed.referencedSegments = b.referencedSegments
  recordTable : parsed.recordTable = tableEntries 0 maximumSegmentSize b.records
  generation : parsed.garbageCollectionGeneration = b.storedGeneration

theorem parse_finish (hb : b.Bounded) (hdata : b.identifier.isDataSegment = true) :
    ∃ parsed, ParsedSegment.parse b.identifier b.finish.bytes = .ok parsed ∧
      b.ParsedAs parsed := by
  have hlength := hb.length_le
  have hsize := hb.size
  unfold headerSize segmentReferenceSize recordReferenceSize maximumSegmentSize at hsize
  obtain ⟨rest, hbytes⟩ := b.finish_bytes_split
  have h0 : b.finish.bytes.drop 0 = b.header ++ (b.referencedSegments.flatMap identifierBytes ++
      (tableRows 0 maximumSegmentSize b.records ++ rest)) := by
    rw [List.drop_zero, hbytes]
  have h32 := drop_add_of_drop_eq h0
  rw [length_header, Nat.zero_add] at h32
  have htable := drop_add_of_drop_eq h32
  rw [length_flatMap_identifierBytes, Nat.mul_comm] at htable
  have hrows : parseRecordTable b.identifier b.records.length none
      (b.finish.bytes.drop (32 + b.referencedSegments.length * 16)) =
      .ok (tableEntries 0 maximumSegmentSize b.records) := by
    rw [htable]
    refine parseRecordTable_tableRows b.identifier rest (fun _ => hb.nonempty) le_rfl ?_ (by omega)
      (fun p hp => by cases hp)
    unfold maximumSegmentSize
    omega
  rw [ParsedSegment.parse, if_neg (by omega), SegmentIdentifier.kind_eq_data.mpr hdata]
  simp only [parseDataSegment, validateDataSegmentHeader_finish hb]
  split
  · rename_i hparsed
    rw [hrows] at hparsed
    cases hparsed
  · rename_i recordTable hparsed
    rw [hrows] at hparsed
    cases hparsed
    refine ⟨_, rfl, rfl, rfl, rfl, ?_, rfl, rfl⟩
    rw [h32, readIdentifiers_flatMap]

theorem mem_tableEntries {number start : Nat} {as bs : List BufferedRecord}
    {record : BufferedRecord} :
    (⟨UInt32.ofNat (number + as.length), record.recordType.toByte,
      UInt32.ofNat (start - dataLength as - alignedSize record.content.length)⟩ :
      RecordTableEntry) ∈ tableEntries number start (as ++ record :: bs) := by
  induction as generalizing number start with
  | nil =>
    rw [List.nil_append, tableEntries]
    exact List.mem_cons_self ..
  | cons first as ih =>
    rw [List.cons_append, tableEntries]
    refine List.mem_cons_of_mem _ ?_
    have hnumber : number + (first :: as).length = number + 1 + as.length := by
      rw [length_cons]
      omega
    have hstart : start - dataLength (first :: as) =
        start - alignedSize first.content.length - dataLength as := by
      have : dataLength (first :: as) = alignedSize first.content.length + dataLength as := by
        simp [dataLength]
      omega
    rw [hnumber, hstart]
    exact ih

variable {parsed : ParsedSegment} {record : BufferedRecord}

/-- The position of a record in the finished bytes: right behind the records of higher
numbers. -/
theorem recordPosition_finish (hb : b.Bounded) (hparsed : b.ParsedAs parsed)
    {as bs : List BufferedRecord} (hrecords : b.records = as ++ record :: bs) :
    SegmentView.recordPosition ⟨parsed, b.finish.bytes⟩ (UInt32.ofNat as.length) =
      .ok (b.front.length + dataLength bs) := by
  have hsize := hb.size
  have haligned := le_alignedSize record.content.length
  -- the record ends above the buffer's start, or something stands behind it
  have hnonempty : 0 < dataLength as + alignedSize record.content.length := by
    cases as with
    | nil =>
      have := hb.nonempty record (by rw [hrecords]; rfl)
      omega
    | cons first as =>
      have hfirst := hb.nonempty first (by rw [hrecords]; rfl)
      have := le_alignedSize first.content.length
      simp only [dataLength, List.map_cons, List.sum_cons]
      omega
  have hdata : dataLength b.records =
      dataLength as + (alignedSize record.content.length + dataLength bs) := by
    rw [hrecords, dataLength_append]
    simp [dataLength]
  have hcount : b.records.length = as.length + (bs.length + 1) := by
    rw [hrecords]
    simp
  have hbytes : b.finish.bytes.length = b.front.length + dataLength b.records := by
    rw [finish_bytes, length_append, length_recordData]
  unfold headerSize segmentReferenceSize recordReferenceSize maximumSegmentSize at hsize
  have hmem := @mem_tableEntries 0 maximumSegmentSize as bs record
  rw [Nat.zero_add, ← hrecords, ← hparsed.recordTable] at hmem
  obtain ⟨offset, hoffset⟩ : ∃ n, n =
    maximumSegmentSize - dataLength as - alignedSize record.content.length := ⟨_, rfl⟩
  rw [← hoffset] at hmem
  unfold maximumSegmentSize at hoffset
  have hfound := (Search.binarySearch_eq_some_iff parsed.sorted).mpr ⟨hmem, rfl⟩
  have hoffsetNat : (UInt32.ofNat offset).toNat = offset := by
    rw [UInt32.toNat_ofNat']
    omega
  have hlookup : parsed.recordOffset (UInt32.ofNat as.length) = some (UInt32.ofNat offset) := by
    rw [ParsedSegment.recordOffset, hparsed.kind]
    exact congrArg (Option.map RecordTableEntry.offset) hfound
  rw [SegmentView.recordPosition, hlookup]
  simp only [ParsedSegment.bufferPosition, hparsed.size, hoffsetNat, hbytes]
  unfold maximumSegmentSize
  rw [if_neg (by omega)]
  congr 1
  omega

/-- A read inside a record returns what was written there. -/
theorem readBytes_finish (hb : b.Bounded) (hparsed : b.ParsedAs parsed) {number offset length : Nat}
    (hrecord : b.records[number]? = some record) (hread : offset + length ≤ record.content.length) :
    SegmentView.readBytes ⟨parsed, b.finish.bytes⟩ (UInt32.ofNat number) offset length =
      .ok (record.content.slice offset length) := by
  obtain ⟨hnumber, hget⟩ := List.getElem?_eq_some_iff.mp hrecord
  have hrecords : b.records = b.records.take number ++ record :: b.records.drop (number + 1) := by
    rw [← hget, List.getElem_cons_drop, List.take_append_drop]
  have hlength : (b.records.take number).length = number := by
    rw [List.length_take]
    omega
  have hposition := recordPosition_finish hb hparsed hrecords
  rw [hlength] at hposition
  obtain ⟨above, habove⟩ : ∃ above, above = b.front ++ recordData (b.records.drop (number + 1)) :=
    ⟨_, rfl⟩
  have hbytes : b.finish.bytes = above ++ (record.content ++
      (List.replicate (alignedSize record.content.length - record.content.length) 0 ++
        recordData (b.records.take number))) := by
    rw [finish_bytes, hrecords, recordData_append, recordData, habove]
    simp only [append_assoc, ← hrecords]
  have hstart : b.front.length + dataLength (b.records.drop (number + 1)) = above.length := by
    rw [habove, length_append, length_recordData]
  rw [hstart] at hposition
  rw [SegmentView.readBytes, hposition, Except.ok_bind_eq]
  dsimp only
  rw [Bytes.range?_of_le (by rw [hbytes, length_append, length_append]; omega), hbytes,
    Bytes.slice_append_right (by omega), Nat.add_sub_cancel_left, Bytes.slice_append_left hread]

end SegmentBufferBuilder

end Froe
