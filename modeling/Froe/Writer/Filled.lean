import Froe.Writer.RecordWriter
import Froe.Writer.SegmentRoundTrip

/-!
# What a segment holds

A record is described by its fields, raw bytes and record identifiers, instead
of its bytes: `SegmentBufferBuilder.Holds` for a record under construction and
`SegmentView.Holds` for one that is read.  Filling an allocated record makes the
builder hold its fields (`allocate_fill`), a builder that grows goes on holding
them (`Holds.of_grows`), and so does the view of the finished segment
(`Holds.finish`).
-/

namespace Froe

open List (flatMap_cons length_append)
open Bytes (be32)

/-! ## Views -/

/-- The fields that stand at an offset of a record. -/
def SegmentView.Holds (view : SegmentView) (recordNumber : UInt32) : Nat → List Field → Prop
  | _, [] => True
  | offset, .raw bytes :: fields =>
    (∀ start n, start + n ≤ bytes.length →
      view.readBytes recordNumber (offset + start) n = .ok (bytes.slice start n)) ∧
      view.Holds recordNumber (offset + bytes.length) fields
  | offset, .identifier record :: fields =>
    view.readRecordIdentifier recordNumber offset 0 = .ok record ∧
      view.Holds recordNumber (offset + 6) fields

theorem fieldsLength_cons (field : Field) (fields : List Field) :
    fieldsLength (field :: fields) = field.length + fieldsLength fields := by
  simp [fieldsLength]

theorem fieldsLength_append (as bs : List Field) :
    fieldsLength (as ++ bs) = fieldsLength as + fieldsLength bs := by
  simp [fieldsLength]

namespace SegmentBufferBuilder

/-! ## Builders -/

variable {b b' : SegmentBufferBuilder}

/-- The reference that a segment has, or would have as the last one. -/
def referenceOf (b : SegmentBufferBuilder) (segment : SegmentIdentifier) : Nat :=
  if segment = b.identifier then 0 else b.referencedSegments.idxOf segment + 1

def fieldBytes (b : SegmentBufferBuilder) : Field → Bytes
  | .raw bytes => bytes
  | .identifier record =>
    Bytes.be 2 (b.referenceOf record.segment) ++ Bytes.be32 record.recordNumber

def Knows (b : SegmentBufferBuilder) : Field → Prop
  | .raw _ => True
  | .identifier record =>
    record.segment = b.identifier ∨ record.segment ∈ b.referencedSegments

/-- A record and the fields it consists of. -/
structure Holds (b : SegmentBufferBuilder) (recordNumber : Nat) (recordType : RecordType)
    (fields : List Field) : Prop where
  record : b.records[recordNumber]? = some ⟨recordType, fields.flatMap b.fieldBytes⟩
  knows : ∀ field ∈ fields, b.Knows field

/-- What adding records does to a segment. -/
structure Grows (b b' : SegmentBufferBuilder) : Prop where
  identifier : b'.identifier = b.identifier
  references : b.referencedSegments <+: b'.referencedSegments
  records : b.records <+: b'.records

@[simp] theorem length_fieldBytes (b : SegmentBufferBuilder) (field : Field) :
    (b.fieldBytes field).length = field.length := by
  cases field with
  | raw bytes => rfl
  | identifier record => simp [fieldBytes, Field.length]

@[simp] theorem length_flatMap_fieldBytes (b : SegmentBufferBuilder) (fields : List Field) :
    (fields.flatMap b.fieldBytes).length = fieldsLength fields := by
  induction fields with
  | nil => rfl
  | cons field fields ih =>
    rw [flatMap_cons, length_append, ih, length_fieldBytes, fieldsLength_cons]

theorem Knows.of_grows {field : Field} (h : b.Knows field) (hgrows : b.Grows b') :
    b'.Knows field := by
  cases field with
  | raw _ => trivial
  | identifier record =>
    rcases h with hown | hmem
    · exact .inl (hown.trans hgrows.identifier.symm)
    · exact .inr (hgrows.references.subset hmem)

/-- References stay as they are. -/
theorem fieldBytes_of_grows {field : Field} (h : b.Knows field) (hgrows : b.Grows b') :
    b'.fieldBytes field = b.fieldBytes field := by
  cases field with
  | raw _ => rfl
  | identifier record =>
    obtain ⟨added, hadded⟩ := hgrows.references
    have href : b'.referenceOf record.segment = b.referenceOf record.segment := by
      unfold referenceOf
      rw [hgrows.identifier]
      by_cases hown : record.segment = b.identifier
      · rw [if_pos hown, if_pos hown]
      · have hmem : record.segment ∈ b.referencedSegments := h.resolve_left hown
        rw [if_neg hown, if_neg hown, ← hadded, List.idxOf_append_of_mem hmem]
    rw [fieldBytes, fieldBytes, href]

variable {fields : List Field} {recordType : RecordType} {records : List BufferedRecord}

theorem flatMap_fieldBytes_of_grows (h : ∀ field ∈ fields, b.Knows field)
    (hgrows : b.Grows b') : fields.flatMap b'.fieldBytes = fields.flatMap b.fieldBytes := by
  induction fields with
  | nil => rfl
  | cons field fields ih =>
    rw [flatMap_cons, flatMap_cons,
      fieldBytes_of_grows (h field (List.mem_cons_self ..)) hgrows,
      ih fun f hf => h f (List.mem_cons_of_mem _ hf)]

theorem Holds.of_grows {recordNumber : Nat}
    (h : b.Holds recordNumber recordType fields) (hgrows : b.Grows b') :
    b'.Holds recordNumber recordType fields := by
  refine ⟨?_, fun field hf => (h.knows field hf).of_grows hgrows⟩
  obtain ⟨added, hadded⟩ := hgrows.records
  obtain ⟨hlt, -⟩ := List.getElem?_eq_some_iff.mp h.record
  rw [← hadded, List.getElem?_append_left hlt, h.record, flatMap_fieldBytes_of_grows h.knows hgrows]

theorem Grows.trans {b'' : SegmentBufferBuilder} (h : b.Grows b') (h' : b'.Grows b'') :
    b.Grows b'' :=
  ⟨h'.identifier.trans h.identifier, h.references.trans h'.references, h.records.trans h'.records⟩

/-! ## Filling a record -/

theorem modify_append_singleton {α : Type} (as : List α) (a : α) (f : α → α) :
    (as ++ [a]).modify as.length f = as ++ [f a] := by
  induction as with
  | nil => rfl
  | cons x as ih =>
    rw [List.cons_append, List.length_cons, List.modify_succ_cons, ih, List.cons_append]

theorem splice_append (before rest bytes : Bytes) :
    Bytes.splice (before ++ rest) before.length bytes =
      (before ++ bytes) ++ rest.drop bytes.length := by
  have hdrop : (before ++ rest).drop (before.length + bytes.length) = rest.drop bytes.length := by
    rw [List.drop_append, List.drop_of_length_le (by omega), Nat.add_sub_cancel_left,
      List.nil_append]
  rw [Bytes.splice, List.take_left, hdrop]

/-- Copying bytes behind what the last record has so far. -/
theorem copyInto_last
    {before rest : Bytes} (hrecords : b.records = records ++ [⟨recordType, before ++ rest⟩])
    (bytes : Bytes) :
    b.copyInto records.length before.length bytes =
      { b with records := records ++
          [⟨recordType, (before ++ bytes) ++ rest.drop bytes.length⟩] } := by
  rw [copyInto, hrecords, modify_append_singleton]
  simp only [splice_append before rest bytes]

/-- The table after a segment has got its reference. -/
theorem referenceFor_spec (b : SegmentBufferBuilder) (segment : SegmentIdentifier) :
    ∃ added, (b.referenceFor segment).2 =
        { b with referencedSegments := b.referencedSegments ++ added } ∧
      (b.referenceFor segment).1 = (b.referenceFor segment).2.referenceOf segment ∧
      (segment = b.identifier ∨ segment ∈ b.referencedSegments ++ added) ∧
      (added = [] ∨ added = [segment] ∧ segment ≠ b.identifier ∧
        segment ∉ b.referencedSegments) := by
  unfold referenceFor
  split
  · rename_i hown
    refine ⟨[], by simp, ?_, .inl hown, .inl rfl⟩
    simp [referenceOf, hown]
  · rename_i hown
    split
    · rename_i hmem
      refine ⟨[], by simp, ?_, .inr (by simpa using hmem), .inl rfl⟩
      simp [referenceOf, hown]
    · rename_i hmem
      refine ⟨[segment], rfl, ?_, .inr (by simp), .inr ⟨rfl, hown, hmem⟩⟩
      simp [referenceOf, hown, List.idxOf_append_of_notMem hmem]

/-- Filling the last record from where it has got to: its content, and the references that
were new. -/
theorem fill_spec {before rest : Bytes} (hrecords : b.records = records ++ [⟨recordType, before ++ rest⟩])
    (hlength : rest.length = fieldsLength fields) :
    ∃ added, b.fill records.length before.length fields =
        { b with
          referencedSegments := b.referencedSegments ++ added
          records := records ++ [⟨recordType, before ++ fields.flatMap
            (b.fill records.length before.length fields).fieldBytes⟩] } ∧
      (∀ field ∈ fields, (b.fill records.length before.length fields).Knows field) ∧
      added.Nodup ∧
      ∀ segment ∈ added, segment ≠ b.identifier ∧ segment ∉ b.referencedSegments ∧
        ∃ record, .identifier record ∈ fields ∧ record.segment = segment := by
  induction fields generalizing b before rest with
  | nil =>
    have hrest : rest = [] := List.eq_nil_of_length_eq_zero hlength
    subst hrest
    refine ⟨[], ?_, by simp, List.nodup_nil, by simp⟩
    cases b
    simp_all [fill]
  | cons field fields ih =>
    rw [fieldsLength_cons] at hlength
    cases field with
    | raw bytes =>
      rw [Field.length] at hlength
      have hcopy := b.copyInto_last hrecords bytes
      have hwritten : (b.copyInto records.length before.length bytes).records =
          records ++ [⟨recordType, (before ++ bytes) ++ rest.drop bytes.length⟩] := by
        rw [hcopy]
      have hrest : (rest.drop bytes.length).length = fieldsLength fields := by
        rw [List.length_drop]
        omega
      obtain ⟨added, hfill, hknows, hnodup, hadded⟩ := ih hwritten hrest
      rw [length_append] at hfill hknows
      have hstep : b.fill records.length before.length (.raw bytes :: fields) =
          (b.copyInto records.length before.length bytes).fill records.length
            (before.length + bytes.length) fields := rfl
      rw [hstep]
      obtain ⟨b', hb'⟩ : ∃ b', b' = (b.copyInto records.length before.length bytes).fill
        records.length (before.length + bytes.length) fields := ⟨_, rfl⟩
      rw [← hb'] at hfill hknows ⊢
      refine ⟨added, ?_, ?_, hnodup, ?_⟩
      · rw [hcopy] at hfill
        rw [flatMap_cons, fieldBytes, ← List.append_assoc]
        exact hfill
      · intro field hmem
        rcases List.mem_cons.mp hmem with rfl | hmem
        · trivial
        · exact hknows field hmem
      · intro segment hmem
        obtain ⟨hown, hnew, record, hin, heq⟩ := hadded segment hmem
        rw [hcopy] at hown hnew
        exact ⟨hown, hnew, record, List.mem_cons_of_mem _ hin, heq⟩
    | identifier record =>
      rw [Field.length] at hlength
      obtain ⟨one, hone, hreference, hknown, hcases⟩ := b.referenceFor_spec record.segment
      obtain ⟨b₁, hb₁⟩ : ∃ b₁, b₁ = (b.referenceFor record.segment).2 := ⟨_, rfl⟩
      rw [← hb₁] at hone hreference
      have hrecords₁ : b₁.records = records ++ [⟨recordType, before ++ rest⟩] := by
        rw [hone, hrecords]
      have hbytes : (b₁.fieldBytes (.identifier record)).length = 6 := length_fieldBytes _ _
      have hcopy := b₁.copyInto_last hrecords₁ (b₁.fieldBytes (.identifier record))
      obtain ⟨b₂, hb₂⟩ : ∃ b₂, b₂ = b₁.copyInto records.length before.length
        (b₁.fieldBytes (.identifier record)) := ⟨_, rfl⟩
      rw [← hb₂] at hcopy
      have hwritten : b₂.records = records ++ [⟨recordType, (before ++
          b₁.fieldBytes (.identifier record)) ++
            rest.drop (b₁.fieldBytes (.identifier record)).length⟩] := by
        rw [hcopy]
      have hrest : (rest.drop (b₁.fieldBytes (.identifier record)).length).length =
          fieldsLength fields := by
        rw [List.length_drop, hbytes]
        omega
      obtain ⟨added, hfill, hknows, hnodup, hadded⟩ := ih hwritten hrest
      rw [length_append, hbytes] at hfill hknows
      have hstep : b.fill records.length before.length (.identifier record :: fields) =
          b₂.fill records.length (before.length + 6) fields := by
        rw [hb₂, fieldBytes, ← hreference, hb₁]
        rfl
      rw [hstep]
      obtain ⟨b', hb'⟩ : ∃ b', b' = b₂.fill records.length (before.length + 6) fields := ⟨_, rfl⟩
      rw [← hb'] at hfill hknows ⊢
      -- the reference just written is the one that the filled segment has
      have hown : (⟨b.identifier, b.generation, records, b.referencedSegments ++ one,
          b.binaryReferenceIdentifiers⟩ : SegmentBufferBuilder).Knows (.identifier record) := hknown
      have hsame : b'.fieldBytes (.identifier record) = b₁.fieldBytes (.identifier record) := by
        have hgrows : (⟨b.identifier, b.generation, records, b.referencedSegments ++ one,
            b.binaryReferenceIdentifiers⟩ : SegmentBufferBuilder).Grows b' := by
          rw [hfill, hcopy, hone]
          exact ⟨rfl, List.prefix_append .., List.prefix_append ..⟩
        rw [fieldBytes_of_grows hown hgrows, hone]
        rfl
      refine ⟨one ++ added, ?_, ?_, ?_, ?_⟩
      · rw [hcopy, hone] at hfill
        rw [flatMap_cons, hsame, ← List.append_assoc, ← List.append_assoc, hone]
        exact hfill
      · intro field hmem
        rcases List.mem_cons.mp hmem with rfl | hmem
        · rw [hfill, hcopy, hone]
          rcases hknown with hown | hmem
          · exact .inl hown
          · exact .inr (List.mem_append_left _ hmem)
        · exact hknows field hmem
      · refine List.nodup_append.mpr ⟨?_, hnodup, ?_⟩
        · rcases hcases with rfl | ⟨rfl, -⟩
          · exact List.nodup_nil
          · exact List.nodup_singleton _
        · rintro a ha c hc rfl
          obtain ⟨-, hnew, -⟩ := hadded a hc
          rw [hcopy, hone] at hnew
          exact hnew (List.mem_append_right _ ha)
      · intro segment hmem
        rcases List.mem_append.mp hmem with hmem | hmem
        · rcases hcases with rfl | ⟨rfl, hne, hnew⟩
          · cases hmem
          · obtain rfl := List.mem_singleton.mp hmem
            exact ⟨hne, hnew, record, List.mem_cons_self .., rfl⟩
        · obtain ⟨hne, hnew, other, hin, heq⟩ := hadded segment hmem
          rw [hcopy, hone] at hne hnew
          exact ⟨hne, fun h => hnew (List.mem_append_left _ h), other,
            List.mem_cons_of_mem _ hin, heq⟩

structure Filled (b b' : SegmentBufferBuilder) (recordType : RecordType)
    (referenced : List SegmentIdentifier) (fields : List Field) : Prop where
  bounded : b'.Bounded
  grows : b.Grows b'
  holds : b'.Holds b.records.length recordType fields
  length : b'.records.length = b.records.length + 1
  generation : b'.generation = b.generation
  binaryReferenceIdentifiers : b'.binaryReferenceIdentifiers = b.binaryReferenceIdentifiers
  references : ∀ segment ∈ b'.referencedSegments, segment ∈ b.referencedSegments ∨
    segment ≠ b.identifier ∧ segment ∈ referenced

theorem bounded_new (identifier : SegmentIdentifier) (generation : GarbageCollectionGeneration) :
    (new identifier generation).Bounded := by
  refine ⟨Nat.zero_le _, ?_, fun record h => by cases h⟩
  show 32 + 0 * 16 + 0 * 9 + 0 ≤ 2 ^ 18
  omega

/-- A record of some size fits behind one of some size. -/
theorem allocate_of_room {b : SegmentBufferBuilder} {recordType : RecordType} {size : Nat}
    {referenced : List SegmentIdentifier}
    (hreferences : b.referencedSegments.length + referenced.length ≤ maximumSegmentReferences)
    (hroom : 32 + (b.referencedSegments.length + referenced.length) * 16 +
      (b.records.length + 1) * 9 + (dataLength b.records + (size + 3)) ≤ 2 ^ 18) :
    b.allocate recordType size referenced = some (b.records.length,
      { b with records := b.records ++ [⟨recordType, List.replicate size 0⟩] }) := by
  have hnew : b.newReferences referenced ≤ referenced.length := List.length_filter_le ..
  have haligned : alignedSize size ≤ size + 3 := by
    unfold alignedSize
    omega
  have hmul : (b.referencedSegments.length + b.newReferences referenced) * 16 ≤
      (b.referencedSegments.length + referenced.length) * 16 := by
    omega
  rw [allocate, if_pos]
  simp only [fits, decide_eq_true_eq]
  unfold headerSize segmentReferenceSize recordReferenceSize maximumSegmentSize
  omega

/-- A record that fits can be filled with all it was allocated for. -/
theorem allocate_fill {size n : Nat} {referenced : List SegmentIdentifier} {b₁ : SegmentBufferBuilder} (hb : b.Bounded)
    (halloc : b.allocate recordType size referenced = some (n, b₁))
    (hsize : size = fieldsLength fields) (hpos : 0 < size)
    (hreferenced : ∀ record, .identifier record ∈ fields →
      record.segment = b.identifier ∨ record.segment ∈ referenced) :
    n = b.records.length ∧ b.Filled (b₁.fill n 0 fields) recordType referenced fields := by
  unfold allocate at halloc
  split at halloc
  · rename_i hfits
    simp only [Option.some.injEq, Prod.mk.injEq] at halloc
    obtain ⟨rfl, rfl⟩ := halloc
    refine ⟨rfl, ?_⟩
    obtain ⟨b₁, hb₁⟩ : ∃ b₁ : SegmentBufferBuilder, b₁ = ⟨b.identifier, b.generation,
      b.records ++ [⟨recordType, List.replicate size 0⟩], b.referencedSegments,
      b.binaryReferenceIdentifiers⟩ := ⟨_, rfl⟩
    have hrecords : b₁.records = b.records ++ [⟨recordType, [] ++ List.replicate size 0⟩] := by
      rw [hb₁, List.nil_append]
    obtain ⟨added, hfill, hknows, hnodup, hadded⟩ := fill_spec hrecords
      (show (List.replicate size 0).length = fieldsLength fields by
        rw [List.length_replicate, hsize])
    rw [List.length_nil] at hfill hknows
    rw [← hb₁]
    obtain ⟨b₂, hb₂⟩ : ∃ b₂, b₂ = b₁.fill b.records.length 0 fields := ⟨_, rfl⟩
    rw [← hb₂] at hfill hknows ⊢
    rw [List.nil_append] at hfill
    have hown : ∀ segment ∈ added, segment ≠ b.identifier ∧ segment ∉ b.referencedSegments ∧
        segment ∈ referenced := by
      intro segment hmem
      obtain ⟨hne, hnew, record, hin, heq⟩ := hadded segment hmem
      rw [hb₁] at hne hnew
      refine ⟨hne, hnew, ?_⟩
      rw [← heq]
      exact (hreferenced record hin).resolve_left fun h => hne (heq ▸ h)
    have hnew : added.length ≤ b.newReferences referenced := by
      refine (List.subperm_of_subset hnodup ?_).length_le
      intro segment hmem
      obtain ⟨hne, hnot, hin⟩ := hown segment hmem
      exact List.mem_filter.mpr ⟨hin, by simp [hne, hnot]⟩
    have hreferences : b₂.referencedSegments = b.referencedSegments ++ added := by
      rw [hfill, hb₁]
    have hall : b₂.records = b.records ++ [⟨recordType, fields.flatMap b₂.fieldBytes⟩] :=
      congrArg SegmentBufferBuilder.records hfill
    simp only [fits, decide_eq_true_eq, Bool.decide_and, Bool.and_eq_true] at hfits
    refine ⟨⟨?_, ?_, ?_⟩, ⟨?_, ?_, ?_⟩, ⟨?_, hknows⟩, ?_, ?_, ?_, ?_⟩
    · rw [hreferences, length_append]
      omega
    · have hdata : dataLength b₂.records = dataLength b.records + alignedSize size := by
        have hone : dataLength [⟨recordType, fields.flatMap b₂.fieldBytes⟩] =
            alignedSize size := by
          rw [dataLength, List.map_singleton, List.sum_singleton, length_flatMap_fieldBytes, hsize]
        rw [hall, dataLength_append, hone]
      rw [hdata, hall, hreferences, length_append, length_append, List.length_singleton]
      unfold segmentReferenceSize recordReferenceSize at *
      omega
    · intro record hmem
      rw [hall, List.head?_append] at hmem
      cases hhead : b.records.head? with
      | some first =>
        rw [hhead] at hmem
        exact hb.nonempty record (hhead.trans hmem)
      | none =>
        rw [hhead] at hmem
        cases hmem
        rw [length_flatMap_fieldBytes]
        omega
    · rw [hfill, hb₁]
    · rw [hreferences]
      exact List.prefix_append ..
    · rw [hall]
      exact List.prefix_append ..
    · rw [hall, List.getElem?_append_right le_rfl, Nat.sub_self]
      rfl
    · rw [hall, length_append, List.length_singleton]
    · rw [hfill, hb₁]
    · rw [hfill, hb₁]
    · intro segment hmem
      rw [hreferences] at hmem
      rcases List.mem_append.mp hmem with hmem | hmem
      · exact .inl hmem
      · exact .inr ⟨(hown segment hmem).1, (hown segment hmem).2.2⟩
  · cases halloc

/-! ## Reading a finished segment -/

theorem resolveSegmentReference_finish (hb : b.Bounded) {parsed : ParsedSegment}
    (hparsed : b.ParsedAs parsed) {record : RecordIdentifier} (h : b.Knows (.identifier record)) :
    parsed.resolveSegmentReference (UInt16.ofNat (b.referenceOf record.segment)) =
      .ok record.segment := by
  have hreferences := hb.references
  unfold maximumSegmentReferences at hreferences
  unfold referenceOf
  by_cases hown : record.segment = b.identifier
  · rw [if_pos hown, ParsedSegment.resolveSegmentReference,
      if_pos (show UInt16.ofNat 0 = 0 from rfl), hparsed.identifier, hown]
  · have hmem : record.segment ∈ b.referencedSegments := h.resolve_left hown
    have hlt := List.idxOf_lt_length_of_mem hmem
    have hnat : (UInt16.ofNat (b.referencedSegments.idxOf record.segment + 1)).toNat =
        b.referencedSegments.idxOf record.segment + 1 := by
      rw [UInt16.toNat_ofNat']
      omega
    have hne : UInt16.ofNat (b.referencedSegments.idxOf record.segment + 1) ≠ 0 := by
      intro h0
      rw [h0] at hnat
      exact absurd hnat (Nat.succ_ne_zero _).symm
    rw [if_neg hown, ParsedSegment.resolveSegmentReference, if_neg hne, hnat,
      hparsed.referencedSegments, Nat.add_sub_cancel, List.getElem?_eq_getElem hlt,
      List.getElem_idxOf]

theorem u16At_be {n : Nat} (h : n < 2 ^ 16) : (Bytes.be 2 n).u16At 0 = UInt16.ofNat n := by
  have hslice : (Bytes.be 2 n).slice 0 2 = Bytes.be 2 n := by
    have := (Bytes.be 2 n).slice_zero_length
    rwa [Bytes.length_be] at this
  rw [Bytes.u16At, hslice, Bytes.ofBe_be_of_lt h]

theorem u32At_be32 (x : UInt32) : (be32 x).u32At 0 = x :=
  Bytes.u32At_of_slice (Bytes.slice_zero_length (be32 x))

theorem holds_of_content (hb : b.Bounded) {parsed : ParsedSegment} (hparsed : b.ParsedAs parsed)
    {recordNumber : Nat} {recordType : RecordType} {before : Bytes} {fields : List Field}
    (hrecord : b.records[recordNumber]? =
      some ⟨recordType, before ++ fields.flatMap b.fieldBytes⟩)
    (hknows : ∀ field ∈ fields, b.Knows field) :
    SegmentView.Holds ⟨parsed, b.finish.bytes⟩ (UInt32.ofNat recordNumber) before.length
      fields := by
  induction fields generalizing before with
  | nil => trivial
  | cons field fields ih =>
    rw [flatMap_cons] at hrecord
    have hread : ∀ start n, start + n ≤ field.length →
        SegmentView.readBytes ⟨parsed, b.finish.bytes⟩ (UInt32.ofNat recordNumber)
          (before.length + start) n = .ok ((b.fieldBytes field).slice start n) := by
      intro start n hle
      have hlength := b.length_fieldBytes field
      rw [readBytes_finish hb hparsed hrecord (by
        simp only [length_append]
        omega)]
      simp only
      rw [Bytes.slice_append_right (by omega), Nat.add_sub_cancel_left,
        Bytes.slice_append_left (by omega)]
    have hnext := ih (by rw [hrecord, ← List.append_assoc])
      (fun f hf => hknows f (List.mem_cons_of_mem _ hf))
    rw [length_append, length_fieldBytes] at hnext
    cases field with
    | raw bytes => exact ⟨hread, hnext⟩
    | identifier record =>
      refine ⟨?_, hnext⟩
      have hresolve := resolveSegmentReference_finish hb hparsed
        (hknows (.identifier record) (List.mem_cons_self ..))
      have hbound : b.referenceOf record.segment < 2 ^ 16 := by
        have hreferences := hb.references
        unfold maximumSegmentReferences at hreferences
        have := List.idxOf_le_length (a := record.segment) (l := b.referencedSegments)
        unfold referenceOf
        split <;> omega
      have h2 := hread 0 2 (Nat.le_of_ble_eq_true rfl)
      have h4 := hread 2 4 (Nat.le_of_ble_eq_true rfl)
      rw [fieldBytes, Bytes.slice_append_left (by simp)] at h2
      rw [fieldBytes, Bytes.slice_append_right (by simp)] at h4
      have hfirst : (Bytes.be 2 (b.referenceOf record.segment)).slice 0 2 =
          Bytes.be 2 (b.referenceOf record.segment) := by
        simpa using Bytes.slice_zero_length (Bytes.be 2 (b.referenceOf record.segment))
      have hsecond : (be32 record.recordNumber).slice 0 4 =
          be32 record.recordNumber := by
        simpa using Bytes.slice_zero_length (be32 record.recordNumber)
      rw [hfirst, Nat.add_zero] at h2
      rw [Bytes.length_be, Nat.sub_self, hsecond] at h4
      simp only [SegmentView.readRecordIdentifier, SegmentView.readU16, SegmentView.readU32,
        Nat.zero_mul, Nat.add_zero, h2, h4, Except.ok_bind_eq, u16At_be hbound, u32At_be32,
        hresolve, pure, Except.pure]

theorem Holds.finish (hb : b.Bounded) {parsed : ParsedSegment} (hparsed : b.ParsedAs parsed)
    {recordNumber : Nat} {recordType : RecordType} {fields : List Field}
    (h : b.Holds recordNumber recordType fields) :
    SegmentView.Holds ⟨parsed, b.finish.bytes⟩ (UInt32.ofNat recordNumber) 0 fields :=
  @holds_of_content _ hb _ hparsed _ _ [] _ h.record h.knows

end SegmentBufferBuilder

end Froe
