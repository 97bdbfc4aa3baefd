import Froe.Writer.Filled

/-!
# The segment builder in its buffer

The builder as it lies in memory: one virtual buffer of 256 KiB, the lowest
position that is occupied, and tables of where each record is.  It simulates the
list of records that `SegmentBufferBuilder` keeps (`Lays`), operation by
operation, and both finish to the same bytes.
-/

namespace Froe

open List (append_assoc cons_append length_append length_cons length_replicate nil_append)
open Bytes (be32)

/-- One data segment under construction, in its buffer. -/
structure SegmentBuffer where
  identifier : SegmentIdentifier
  generation : GarbageCollectionGeneration
  /-- The virtual buffer; record data grows down from its end. -/
  buffer : Bytes
  /-- The lowest position that record data occupies. -/
  dataStart : Nat
  referencedSegments : List SegmentIdentifier
  referenceLookup : List (SegmentIdentifier × Nat)
  /-- Number, type and virtual offset of each record. -/
  recordTable : List (Nat × RecordType × Nat)
  /-- Position and size of each record, by number. -/
  recordPositions : List (Nat × Nat × Nat)
  binaryReferenceIdentifiers : List String

namespace SegmentBuffer

/-- A segment without records. -/
def new (identifier : SegmentIdentifier) (generation : GarbageCollectionGeneration) :
    SegmentBuffer where
  identifier := identifier
  generation := generation
  buffer := List.replicate maximumSegmentSize 0
  dataStart := maximumSegmentSize
  referencedSegments := []
  referenceLookup := []
  recordTable := []
  recordPositions := []
  binaryReferenceIdentifiers := []

variable (s : SegmentBuffer)

/-- Whether a record of a size fits, with all it references taken as new entries. -/
def fits (size : Nat) (referenced : List SegmentIdentifier) : Bool :=
  let newReferences := (referenced.filter fun segment =>
    segment ≠ s.identifier ∧ s.referenceLookup.lookup segment = none).length
  if s.referencedSegments.length + newReferences > maximumSegmentReferences then false
  else
    let dataLength := maximumSegmentSize - s.dataStart + alignedSize size
    let tablesLength := headerSize +
      (s.referencedSegments.length + newReferences) * segmentReferenceSize +
      (s.recordTable.length + 1) * recordReferenceSize
    tablesLength + dataLength ≤ maximumSegmentSize

def allocate (recordType : RecordType) (size : Nat) (referenced : List SegmentIdentifier) :
    Option (Nat × SegmentBuffer) :=
  if s.fits size referenced then
    let dataStart := s.dataStart - alignedSize size
    let recordNumber := s.recordTable.length
    some (recordNumber,
      { s with
        dataStart := dataStart
        recordTable := s.recordTable ++ [(recordNumber, recordType, dataStart)]
        recordPositions := (recordNumber, dataStart, size) :: s.recordPositions })
  else none

/-- Writes into the bytes of an allocated record.  There is no result for a record that was not
allocated or for bytes that do not lie inside it. -/
def writeRecordBytes (recordNumber offset : Nat) (bytes : Bytes) : Option SegmentBuffer :=
  match s.recordPositions.lookup recordNumber with
  | some (position, size) =>
    if offset + bytes.length ≤ size then
      some { s with buffer := s.buffer.splice (position + offset) bytes }
    else none
  | none => none

/-- The reference under which the segment addresses another one, unless the table overflows. -/
def referenceFor (segment : SegmentIdentifier) : Option (Nat × SegmentBuffer) :=
  if segment = s.identifier then some (0, s)
  else
    match s.referenceLookup.lookup segment with
    | some reference => some (reference, s)
    | none =>
      if s.referencedSegments.length < maximumSegmentReferences then
        let reference := s.referencedSegments.length + 1
        some (reference,
          { s with
            referencedSegments := s.referencedSegments ++ [segment]
            referenceLookup := (segment, reference) :: s.referenceLookup })
      else none

/-- Copies the rows of a table to its place, one behind the other. -/
def copyRows (bytes : Bytes) (base rowSize : Nat) : List Bytes → Bytes
  | [] => bytes
  | row :: rows => copyRows (bytes.splice base row) (base + rowSize) rowSize rows

def tableRow (entry : Nat × RecordType × Nat) : Bytes :=
  Bytes.be 4 entry.1 ++ [entry.2.1.toByte] ++ Bytes.be 4 entry.2.2

/-- Finishes the segment: header and tables in front of the record data, with a length that is a
multiple of sixteen. -/
def finish : BuiltSegment :=
  let dataLength := maximumSegmentSize - s.dataStart
  let tablesLength := headerSize + s.referencedSegments.length * segmentReferenceSize +
    s.recordTable.length * recordReferenceSize
  let totalLength := (tablesLength + dataLength + 15) / 16 * 16
  let fullGenerationWord := (s.generation.fullGeneration.toUInt32 &&& 0x7FFFFFFF) |||
    if s.generation.isCompacted then 0x80000000 else 0
  let bytes : Bytes := List.replicate totalLength 0
  let bytes : Bytes := bytes.splice 0 "0aK".utf8
  let bytes : Bytes := bytes.splice 3 [13]
  let bytes : Bytes := bytes.splice 4 (Bytes.be32 fullGenerationWord)
  let bytes : Bytes := bytes.splice 10 (Bytes.be32 s.generation.generation.toUInt32)
  let bytes : Bytes := bytes.splice 14 (Bytes.be 4 s.referencedSegments.length)
  let bytes : Bytes := bytes.splice 18 (Bytes.be 4 s.recordTable.length)
  let bytes := copyRows bytes headerSize segmentReferenceSize
    (s.referencedSegments.map identifierBytes)
  let bytes := copyRows bytes (headerSize + s.referencedSegments.length * segmentReferenceSize)
    recordReferenceSize (s.recordTable.map tableRow)
  let bytes := bytes.splice (totalLength - dataLength) (s.buffer.drop s.dataStart)
  { identifier := s.identifier
    bytes := bytes
    generation := s.generation
    referencedSegments := s.referencedSegments
    binaryReferenceIdentifiers := s.binaryReferenceIdentifiers }

/-! ## The layout of a list of records -/

/-- The record table of some records, from a record number on and above the records before. -/
def layout : Nat → Nat → List BufferedRecord → List (Nat × RecordType × Nat)
  | _, _, [] => []
  | number, start, record :: records =>
    (number, record.recordType, start - alignedSize record.content.length) ::
      layout (number + 1) (start - alignedSize record.content.length) records

theorem dataLength_cons (record : BufferedRecord) (records : List BufferedRecord) :
    dataLength (record :: records) =
      alignedSize record.content.length + dataLength records := by
  simp [dataLength]

section

variable (number start : Nat) (records : List BufferedRecord)

theorem flatMap_tableRow_layout :
    (layout number start records).flatMap tableRow =
      SegmentBufferBuilder.tableRows number start records := by
  induction records generalizing number start with
  | nil => rfl
  | cons record records ih =>
    rw [layout, List.flatMap_cons, ih, SegmentBufferBuilder.tableRows]
    rfl

@[simp] theorem length_layout :
    (layout number start records).length = records.length := by
  induction records generalizing number start with
  | nil => rfl
  | cons record records ih => rw [layout, length_cons, ih, length_cons]

end

theorem layout_append (number start : Nat) (as bs : List BufferedRecord) :
    layout number start (as ++ bs) =
      layout number start as ++ layout (number + as.length) (start - dataLength as) bs := by
  induction as generalizing number start with
  | nil => rfl
  | cons record as ih =>
    have hnumber : number + 1 + as.length = number + (record :: as).length := by
      rw [length_cons]
      omega
    have hstart : start - alignedSize record.content.length - dataLength as =
        start - dataLength (record :: as) := by
      rw [dataLength_cons]
      omega
    rw [cons_append, layout, layout, ih, hnumber, hstart, cons_append]

/-- The buffer holds a list of records. -/
structure Lays (s : SegmentBuffer) (b : SegmentBufferBuilder) : Prop where
  identifier : s.identifier = b.identifier
  generation : s.generation = b.generation
  referencedSegments : s.referencedSegments = b.referencedSegments
  binaryReferenceIdentifiers : s.binaryReferenceIdentifiers = b.binaryReferenceIdentifiers
  referenceLookup : ∀ segment, s.referenceLookup.lookup segment =
    if segment ∈ b.referencedSegments then some (b.referencedSegments.idxOf segment + 1) else none
  size : dataLength b.records ≤ maximumSegmentSize
  dataStart : s.dataStart = maximumSegmentSize - dataLength b.records
  buffer : s.buffer = List.replicate s.dataStart 0 ++ recordData b.records
  recordTable : s.recordTable = layout 0 maximumSegmentSize b.records
  recordPositions : ∀ n, s.recordPositions.lookup n = b.records[n]?.map fun record =>
    (maximumSegmentSize - dataLength (b.records.take (n + 1)), record.content.length)

theorem lays_new (identifier : SegmentIdentifier) (generation : GarbageCollectionGeneration) :
    Lays (new identifier generation) (.new identifier generation) where
  identifier := rfl
  generation := rfl
  referencedSegments := rfl
  binaryReferenceIdentifiers := rfl
  referenceLookup _ := rfl
  size := Nat.zero_le _
  dataStart := rfl
  buffer := (List.append_nil _).symm
  recordTable := rfl
  recordPositions _ := rfl

variable {s} {b : SegmentBufferBuilder}

theorem Lays.fits (h : Lays s b) (size : Nat) (referenced : List SegmentIdentifier) :
    s.fits size referenced = b.fits size referenced := by
  have hnew : (referenced.filter fun segment =>
      segment ≠ s.identifier ∧ s.referenceLookup.lookup segment = none).length =
      b.newReferences referenced := by
    rw [SegmentBufferBuilder.newReferences]
    congr 2
    funext segment
    rw [h.identifier, h.referenceLookup]
    by_cases hmem : segment ∈ b.referencedSegments <;> simp [hmem]
  have hdata : maximumSegmentSize - s.dataStart = dataLength b.records := by
    have := h.size
    rw [h.dataStart]
    omega
  have hrecords : s.recordTable.length = b.records.length := by
    rw [h.recordTable, length_layout]
  simp only [SegmentBuffer.fits, SegmentBufferBuilder.fits, hnew, hdata, hrecords,
    h.referencedSegments]
  split
  · simp only [gt_iff_lt] at *
    simp
    omega
  · simp only [gt_iff_lt, not_lt] at *
    simp
    omega

variable {s' : SegmentBuffer} {n total : Nat} {as bs : List BufferedRecord} {bytes before : Bytes}

theorem Lays.allocate {recordType : RecordType} {size : Nat}
    {referenced : List SegmentIdentifier} (h : Lays s b)
    (halloc : s.allocate recordType size referenced = some (n, s')) :
    ∃ b', b.allocate recordType size referenced = some (n, b') ∧ Lays s' b' := by
  unfold SegmentBuffer.allocate at halloc
  split at halloc
  · rename_i hfits
    simp only [Option.some.injEq, Prod.mk.injEq] at halloc
    obtain ⟨rfl, rfl⟩ := halloc
    rw [h.fits] at hfits
    have hlength : s.recordTable.length = b.records.length := by
      rw [h.recordTable, length_layout]
    obtain ⟨record, hrecord⟩ : ∃ record : BufferedRecord,
      record = ⟨recordType, List.replicate size 0⟩ := ⟨_, rfl⟩
    have hsize : record.content.length = size := by rw [hrecord, length_replicate]
    have hone : dataLength [record] = alignedSize size := by
      rw [dataLength, List.map_singleton, List.sum_singleton, hsize]
    have hroom : dataLength b.records + alignedSize size ≤ maximumSegmentSize := by
      simp only [SegmentBufferBuilder.fits, decide_eq_true_eq, Bool.decide_and,
        Bool.and_eq_true] at hfits
      omega
    have hdata := h.dataStart
    refine ⟨{ b with records := b.records ++ [record] }, ?_, h.identifier, h.generation,
      h.referencedSegments, h.binaryReferenceIdentifiers, h.referenceLookup, ?_, ?_, ?_, ?_, ?_⟩
    · rw [SegmentBufferBuilder.allocate, if_pos hfits, hlength, hrecord]
    · rw [dataLength_append, hone]
      exact hroom
    · rw [dataLength_append, hone]
      simp only [hdata]
      omega
    · -- the record is a run of the zeros below the data
      have hzeros : recordData [record] = List.replicate (alignedSize size) 0 := by
        have := le_alignedSize size
        simp only [recordData, nil_append, hrecord, length_replicate,
          List.replicate_append_replicate]
        congr 1
        omega
      have hstart : s.dataStart - alignedSize size + alignedSize size = s.dataStart := by omega
      rw [h.buffer, recordData_append, hzeros, ← append_assoc,
        List.replicate_append_replicate, hstart]
    · rw [layout_append, h.recordTable, length_layout, Nat.zero_add, layout, layout, hsize, hdata]
      rw [hrecord]
    · intro k
      rw [List.lookup_cons, hlength]
      split
      · rename_i heq
        rw [beq_iff_eq.mp heq, List.getElem?_append_right le_rfl, Nat.sub_self,
          List.take_of_length_le (by simp), dataLength_append, hone, h.dataStart]
        simp only [List.getElem?_cons_zero, Option.map_some, hsize]
        congr 2
        omega
      · rename_i hne
        have hne : k ≠ b.records.length := by simpa using hne
        rw [h.recordPositions]
        rcases Nat.lt_or_ge k b.records.length with hlt | hge
        · rw [List.getElem?_append_left hlt, List.take_append_of_le_length (by omega)]
        · rw [List.getElem?_eq_none hge, List.getElem?_eq_none (by
            rw [length_append, List.length_singleton]
            omega)]
          rfl
  · cases halloc

theorem splice_append_middle {a c r d : Bytes} {offset : Nat} (h : offset + d.length ≤ c.length) :
    (a ++ (c ++ r)).splice (a.length + offset) d = a ++ (c.splice offset d ++ r) := by
  have htake : (a ++ (c ++ r)).take (a.length + offset) = a ++ c.take offset := by
    rw [List.take_append, List.take_of_length_le (by omega), Nat.add_sub_cancel_left,
      List.take_append_of_le_length (by omega)]
  have hdrop : (a ++ (c ++ r)).drop (a.length + offset + d.length) =
      c.drop (offset + d.length) ++ r := by
    rw [List.drop_append, List.drop_of_length_le (by omega), nil_append,
      Nat.add_assoc, Nat.add_sub_cancel_left, List.drop_append_of_le_length h]
  simp only [Bytes.splice, htake, hdrop, append_assoc]

theorem modify_append_cons {α : Type} (as cs : List α) (a : α) (f : α → α) :
    (as ++ a :: cs).modify as.length f = as ++ f a :: cs := by
  induction as with
  | nil => rfl
  | cons x as ih =>
    rw [cons_append, length_cons, List.modify_succ_cons, ih, cons_append]

theorem dataLength_congr
    (h : as.map (fun r => r.content.length) = bs.map fun r => r.content.length) :
    dataLength as = dataLength bs := by
  have hmap : ∀ l : List BufferedRecord, dataLength l =
      ((l.map fun r => r.content.length).map alignedSize).sum := by
    intro l
    rw [List.map_map]
    rfl
  rw [hmap, hmap, h]

theorem layout_congr {number start : Nat}
    (h : List.Forall₂ (fun a b => a.recordType = b.recordType ∧
      a.content.length = b.content.length) as bs) :
    layout number start as = layout number start bs := by
  induction h generalizing number start with
  | nil => rfl
  | cons hab _ ih => rw [layout, layout, hab.1, hab.2, ih]

theorem Lays.writeRecordBytes {offset : Nat}
    (h : Lays s b) (hwrite : s.writeRecordBytes n offset bytes = some s') :
    (∃ record, b.records[n]? = some record ∧ offset + bytes.length ≤ record.content.length) ∧
      Lays s' (b.copyInto n offset bytes) := by
  unfold SegmentBuffer.writeRecordBytes at hwrite
  rw [h.recordPositions] at hwrite
  cases hget : b.records[n]? with
  | none => simp [hget] at hwrite
  | some record =>
    simp only [hget, Option.map_some, Option.ite_none_right_eq_some, Option.some.injEq] at hwrite
    obtain ⟨hinside, rfl⟩ := hwrite
    refine ⟨⟨record, rfl, hinside⟩, ?_⟩
    obtain ⟨hn, hrecord⟩ := List.getElem?_eq_some_iff.mp hget
    obtain ⟨as, has⟩ : ∃ as, as = b.records.take n := ⟨_, rfl⟩
    obtain ⟨cs, hcs⟩ : ∃ cs, cs = b.records.drop (n + 1) := ⟨_, rfl⟩
    have hsplit : b.records = as ++ record :: cs := by
      rw [has, hcs, ← hrecord, List.getElem_cons_drop, List.take_append_drop]
    have hlen : as.length = n := by
      rw [has, List.length_take]
      omega
    obtain ⟨new, hnew⟩ : ∃ new : BufferedRecord,
      new = { record with content := record.content.splice offset bytes } := ⟨_, rfl⟩
    have hnewLength : new.content.length = record.content.length := by
      rw [hnew]
      exact Bytes.length_splice hinside
    have hafter : (b.copyInto n offset bytes).records = as ++ new :: cs := by
      rw [SegmentBufferBuilder.copyInto, hsplit, ← hlen, modify_append_cons, hnew]
    have hone : ∀ r : BufferedRecord, dataLength (as ++ r :: cs) =
        dataLength as + (alignedSize r.content.length + dataLength cs) := by
      intro r
      rw [dataLength_append, dataLength_cons]
    have hdata : dataLength (b.copyInto n offset bytes).records = dataLength b.records := by
      rw [hafter, hsplit, hone, hone, hnewLength]
    have hsize := h.size
    have hstart := h.dataStart
    refine ⟨h.identifier, h.generation, h.referencedSegments, h.binaryReferenceIdentifiers,
      h.referenceLookup, ?_, ?_, ?_, ?_, ?_⟩
    · rw [hdata]
      exact hsize
    · rw [hdata]
      exact hstart
    · have hdataOf : ∀ r : BufferedRecord, List.replicate s.dataStart 0 ++
          recordData (as ++ r :: cs) = (List.replicate s.dataStart 0 ++ recordData cs) ++
            (r.content ++ (List.replicate (alignedSize r.content.length - r.content.length) 0 ++
              recordData as)) := by
        intro r
        rw [recordData_append, recordData]
        simp only [append_assoc]
      have hposition : maximumSegmentSize - dataLength (b.records.take (n + 1)) =
          (List.replicate s.dataStart 0 ++ recordData cs).length := by
        have htake : b.records.take (n + 1) = as ++ [record] := by
          rw [hsplit, ← hlen, List.take_append, List.take_of_length_le (by omega),
            Nat.add_sub_cancel_left]
          rfl
        rw [htake, dataLength_append, length_append, length_replicate,
          length_recordData, hstart, hsplit, hone]
        rw [hsplit, hone] at hsize
        simp only [dataLength, List.map_singleton, List.sum_singleton] at hsize ⊢
        omega
      rw [hafter, hdataOf, hposition]
      have hbuffer := h.buffer
      rw [hsplit, hdataOf] at hbuffer
      rw [hbuffer, splice_append_middle hinside, hnew]
      simp only [Bytes.length_splice hinside]
    · rw [h.recordTable, hafter, hsplit]
      refine layout_congr ?_
      refine List.rel_append (List.forall₂_same.mpr fun _ _ => ⟨rfl, rfl⟩) ?_
      refine List.Forall₂.cons ⟨by rw [hnew], hnewLength.symm⟩ ?_
      exact List.forall₂_same.mpr fun _ _ => ⟨rfl, rfl⟩
    · intro k
      have hsame : (as ++ new :: cs).map (fun r => r.content.length) =
          (as ++ record :: cs).map fun r => r.content.length := by
        rw [List.map_append, List.map_append, List.map_cons, List.map_cons, hnewLength]
      have htake : dataLength ((as ++ new :: cs).take (k + 1)) =
          dataLength ((as ++ record :: cs).take (k + 1)) := by
        refine dataLength_congr ?_
        rw [List.map_take, List.map_take, hsame]
      have hget : (as ++ new :: cs)[k]?.map (fun r => r.content.length) =
          (as ++ record :: cs)[k]?.map fun r => r.content.length := by
        rw [← List.getElem?_map, ← List.getElem?_map, hsame]
      rw [h.recordPositions, hafter, hsplit, htake]
      have hpair : ∀ o : Option BufferedRecord, ∀ p : Nat,
          o.map (fun r => (p, r.content.length)) =
            (o.map fun r => r.content.length).map fun l => (p, l) := by
        intro o p
        cases o <;> rfl
      rw [hpair, hpair, hget]

theorem Lays.referenceFor {segment : SegmentIdentifier} {reference : Nat}
    (h : Lays s b) (hreference : s.referenceFor segment = some (reference, s')) :
    (b.referenceFor segment).1 = reference ∧ Lays s' (b.referenceFor segment).2 := by
  unfold SegmentBuffer.referenceFor at hreference
  unfold SegmentBufferBuilder.referenceFor
  rw [h.identifier, h.referenceLookup] at hreference
  by_cases hown : segment = b.identifier
  · rw [if_pos hown] at hreference ⊢
    cases hreference
    exact ⟨rfl, h⟩
  · rw [if_neg hown] at hreference ⊢
    by_cases hmem : segment ∈ b.referencedSegments
    · rw [if_pos hmem] at hreference ⊢
      cases hreference
      exact ⟨rfl, h⟩
    · rw [if_neg hmem] at hreference ⊢
      simp only [Option.ite_none_right_eq_some, Option.some.injEq, Prod.mk.injEq] at hreference
      obtain ⟨-, rfl, rfl⟩ := hreference
      refine ⟨by rw [h.referencedSegments], rfl, h.generation, ?_,
        h.binaryReferenceIdentifiers, ?_, h.size, h.dataStart, h.buffer, h.recordTable,
        h.recordPositions⟩
      · rw [h.referencedSegments]
      · intro other
        rw [List.lookup_cons]
        by_cases hother : other = segment
        · subst hother
          simp [List.idxOf_append_of_notMem hmem, h.referencedSegments]
        · rw [beq_false_of_ne hother, h.referenceLookup]
          by_cases hin : other ∈ b.referencedSegments
          · simp [hin, List.idxOf_append_of_mem hin]
          · simp [hin, hother]

/-! ## Finishing -/

/-- A buffer of zeros that has been written from its start. -/
def Written (bytes : Bytes) (total : Nat) (before : Bytes) : Prop :=
  before.length ≤ total ∧ bytes = before ++ List.replicate (total - before.length) 0

section

variable (h : Written bytes total before)
include h

theorem Written.splice {d : Bytes} {start : Nat}
    (hstart : start = before.length) (hroom : before.length + d.length ≤ total) :
    Written (bytes.splice start d) total (before ++ d) := by
  refine ⟨by rw [length_append]; exact hroom, ?_⟩
  rw [h.2, hstart, SegmentBufferBuilder.splice_append, List.drop_replicate, length_append,
    Nat.sub_sub]

theorem Written.skip
    (hroom : before.length + n ≤ total) : Written bytes total (before ++ List.replicate n 0) := by
  refine ⟨by rw [length_append, length_replicate]; exact hroom, ?_⟩
  rw [h.2, append_assoc, List.replicate_append_replicate, length_append,
    length_replicate]
  congr 2
  omega

theorem Written.full (hlength : before.length = total) : bytes = before := by
  rw [h.2, hlength, Nat.sub_self, List.replicate_zero, List.append_nil]

theorem Written.copyRows {base rowSize : Nat} {rows : List Bytes} (hbase : base = before.length)
    (hrows : ∀ row ∈ rows, row.length = rowSize)
    (hroom : before.length + rows.length * rowSize ≤ total) :
    Written (copyRows bytes base rowSize rows) total (before ++ rows.flatten) := by
  induction rows generalizing bytes before base with
  | nil =>
    rw [List.flatten_nil, List.append_nil]
    exact h
  | cons row rows ih =>
    have hrow := hrows row (List.mem_cons_self ..)
    rw [length_cons, Nat.succ_mul] at hroom
    have hone := h.splice hbase (show before.length + row.length ≤ total by omega)
    rw [SegmentBuffer.copyRows, List.flatten_cons, ← append_assoc]
    refine ih hone ?_ (fun r hr => hrows r (List.mem_cons_of_mem _ hr)) ?_
    · rw [length_append, hrow, hbase]
    · rw [length_append, hrow]
      omega

end

/-- The header, written field by field. -/
theorem written_header (b : SegmentBufferBuilder) (htotal : 32 ≤ total)
    (h : Written bytes total []) :
    Written ((((((bytes.splice 0 "0aK".utf8).splice 3 [13]).splice 4
      (be32 b.fullGenerationWord)).splice 10
      (be32 b.generation.generation.toUInt32)).splice 14
      (Bytes.be 4 b.referencedSegments.length)).splice 18 (Bytes.be 4 b.records.length)) total
      b.header := by
  have hmagic : "0aK".utf8.length = 3 := by decide
  have h3 := h.splice rfl (show ([] : Bytes).length + "0aK".utf8.length ≤ total by
    rw [hmagic, List.length_nil]
    omega)
  have h4 := h3.splice (d := [13]) (show 3 = _ by simp [hmagic]) (by simp [hmagic]; omega)
  have h8 := h4.splice (d := be32 b.fullGenerationWord) (show 4 = _ by simp [hmagic])
    (by simp [hmagic]; omega)
  have h10 := h8.skip (n := 2) (by simp [hmagic]; omega)
  have h14 := h10.splice (d := be32 b.generation.generation.toUInt32)
    (show 10 = _ by simp [hmagic]) (by simp [hmagic]; omega)
  have h18 := h14.splice (d := Bytes.be 4 b.referencedSegments.length)
    (show 14 = _ by simp [hmagic]) (by simp [hmagic]; omega)
  have h22 := h18.splice (d := Bytes.be 4 b.records.length) (show 18 = _ by simp [hmagic])
    (by simp [hmagic]; omega)
  have h32 := h22.skip (n := 10) (by simp [hmagic]; omega)
  rw [nil_append] at h32
  exact h32

/-- Both builders finish to the same segment. -/
theorem Lays.finish (h : Lays s b) : s.finish = b.finish := by
  have hsize := h.size
  have hdata : maximumSegmentSize - s.dataStart = dataLength b.records := by
    rw [h.dataStart]
    omega
  have htable : s.recordTable.length = b.records.length := by rw [h.recordTable, length_layout]
  have hdrop : s.buffer.drop s.dataStart = recordData b.records := by
    rw [h.buffer, List.drop_append_of_le_length (by simp), List.drop_of_length_le (by simp),
      nil_append]
  obtain ⟨tablesLength, htables⟩ : ∃ n, n = headerSize +
    b.referencedSegments.length * segmentReferenceSize + b.records.length * recordReferenceSize :=
    ⟨_, rfl⟩
  obtain ⟨total, htotal⟩ : ∃ n, n = (tablesLength + dataLength b.records + 15) / 16 * 16 := ⟨_, rfl⟩
  have hlength : b.tables.length = tablesLength := by
    rw [length_tables, htables, headerSize, segmentReferenceSize,
      recordReferenceSize]
    omega
  have hstart : Written (List.replicate total 0) total [] := ⟨Nat.zero_le _, rfl⟩
  unfold headerSize segmentReferenceSize recordReferenceSize at htables
  have hheader := written_header b (by omega) hstart
  obtain ⟨headed, hheaded⟩ : ∃ bytes : Bytes, bytes =
    (((((Bytes.splice (List.replicate total 0) 0 "0aK".utf8).splice 3 [13]).splice 4
      (be32 b.fullGenerationWord)).splice 10
      (be32 b.generation.generation.toUInt32)).splice 14
      (Bytes.be 4 b.referencedSegments.length)).splice 18 (Bytes.be 4 b.records.length) := ⟨_, rfl⟩
  rw [← hheaded] at hheader
  have hreferences : Written (copyRows headed 32 16 (b.referencedSegments.map identifierBytes))
      total (b.header ++ (b.referencedSegments.map identifierBytes).flatten) := by
    refine hheader.copyRows (by rw [length_header]) ?_ ?_
    · intro row hrow
      obtain ⟨identifier, -, rfl⟩ := List.mem_map.mp hrow
      exact length_identifierBytes identifier
    · rw [length_header, List.length_map]
      omega
  rw [← List.flatMap_def] at hreferences
  have hrows : Written (copyRows (copyRows headed 32 16
      (b.referencedSegments.map identifierBytes)) (32 + b.referencedSegments.length * 16) 9
      (s.recordTable.map tableRow)) total b.tables := by
    have hall := hreferences.copyRows
      (show 32 + b.referencedSegments.length * 16 = _ by
        rw [length_append, length_header, length_flatMap_identifierBytes]
        omega)
      (show ∀ row ∈ s.recordTable.map tableRow, row.length = 9 by
        intro row hrow
        obtain ⟨entry, -, rfl⟩ := List.mem_map.mp hrow
        simp [tableRow])
      (by
        rw [length_append, length_header, length_flatMap_identifierBytes, List.length_map,
          htable]
        omega)
    rw [← List.flatMap_def, h.recordTable, flatMap_tableRow_layout, ← h.recordTable] at hall
    exact hall
  have hpadded := hrows.skip (n := total - (tablesLength + dataLength b.records)) (by
    rw [hlength]
    omega)
  have hdone := hpadded.splice (d := recordData b.records)
    (show total - dataLength b.records = _ by
      rw [length_append, hlength, length_replicate]
      omega)
    (by
      rw [length_append, hlength, length_replicate, length_recordData]
      omega)
  have hbytes := hdone.full (by
    rw [length_append, length_append, hlength, length_replicate, length_recordData]
    omega)
  simp only [SegmentBuffer.finish, SegmentBufferBuilder.finish, hdata, htable, hdrop, h.identifier,
    h.generation, h.referencedSegments, h.binaryReferenceIdentifiers, headerSize,
    segmentReferenceSize, recordReferenceSize, ← htables, ← htotal]
  rw [hheaded] at hbytes
  exact congrArg (fun bytes => (⟨b.identifier, bytes, b.generation, b.referencedSegments,
    b.binaryReferenceIdentifiers⟩ : BuiltSegment)) hbytes

end SegmentBuffer

end Froe
