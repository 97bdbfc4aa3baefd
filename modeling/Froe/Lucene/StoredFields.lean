import Froe.Lucene.DataInput

/-!
# Stored fields

One file holds the stored values of the documents, each document behind the number of its
fields, and another one holds where each document starts.  A count is written before what it
counts, so a writer that was promised another count is refused, and whatever calls came
before, files that are handed back read as the documents that were finished.
-/

namespace Froe.StoredFields

open Option (bind_eq_bind bind_some)
open List (append_assoc append_nil length_append)

open CodecOutput LuceneReader
open CodecInput (checkHeader)

/-! ## Writing -/

/-- The codec name of the data file. -/
def codecNameData : String := "Lucene40StoredFieldsData"

/-- The codec name of the index file. -/
def codecNameIndex : String := "Lucene40StoredFieldsIndex"

/-- The version of both files. -/
def versionCurrent : Int := 0

/-- Floating-point numbers are given by their bits. -/
inductive StoredValue where
  | text (text : String)
  | binary (bytes : Bytes)
  | integer (value : Int32)
  | long (value : Int64)
  | float (bits : UInt32)
  | double (bits : UInt64)
deriving DecidableEq

/-- The bits byte that a type sets. -/
def StoredValue.bits : StoredValue → UInt8
  | .text _ => 0
  | .binary _ => 2
  | .integer _ => 8
  | .long _ => 16
  | .float _ => 24
  | .double _ => 32

/-- The bytes of a value behind its length. -/
def StoredValue.write : StoredValue → Except Error Bytes
  | .text string => writeString string
  | .binary bytes =>
    if maximumI32 < bytes.length then
      .error (.invalidFormat s!"{bytes.length} bytes does not fit a vint")
    else .ok (writeVint bytes.length ++ bytes)
  | .integer value => .ok (writeInt value.toInt)
  | .long value => .ok (writeLong value.toInt)
  | .float value => .ok (writeInt value.toInt32.toInt)
  | .double value => .ok (writeLong value.toInt64.toInt)

/-- The writer of both files. -/
structure Writer where
  data : Bytes
  index : Bytes
  openDocument : Option Nat
  writtenFields : Nat
  documents : Nat

namespace Writer

/-- A writer that has written the headers. -/
def new : Except Error Writer := do
  let data ← writeHeader codecNameData versionCurrent
  let index ← writeHeader codecNameIndex versionCurrent
  return ⟨data, index, none, 0, 0⟩

/-- The entry of the index goes out before the count. -/
def startDocument (writer : Writer) (fieldCount : Nat) : Except Error Unit × Writer :=
  match writer.openDocument with
  | some _ =>
    (.error (.invalidFormat "a document is already open; finish it before starting another"),
      writer)
  | none =>
    let index := writer.index ++ writeLong writer.data.length
    if maximumI32 < fieldCount then
      (.error (.invalidFormat s!"{fieldCount} stored fields does not fit a vint"),
        { writer with index := index })
    else
      (.ok (), ⟨writer.data ++ writeVint fieldCount, index, some fieldCount, 0, writer.documents⟩)

/-- Writes one field of the open document. -/
def writeField (writer : Writer) (number : Int32) (value : StoredValue) :
    Except Error Unit × Writer :=
  match writer.openDocument with
  | none => (.error (.invalidFormat "a stored field outside any document"), writer)
  | some fieldCount =>
    if writer.writtenFields = fieldCount then
      (.error (.invalidFormat (s!"the document said it held {fieldCount} stored fields and this " ++
        "is one more; the count is written before the fields and cannot be revised")), writer)
    else
      let data := writer.data ++ (writeVint number.toInt ++ [value.bits])
      match value.write with
      | .error error => (.error error, { writer with data := data })
      | .ok bytes =>
        (.ok (), { writer with data := data ++ bytes, writtenFields := writer.writtenFields + 1 })

/-- Ends a document, which must have all of its fields. -/
def finishDocument (writer : Writer) : Except Error Unit × Writer :=
  match writer.openDocument with
  | none => (.error (.invalidFormat "no document is open"), writer)
  | some fieldCount =>
    if writer.writtenFields ≠ fieldCount then
      (.error (.invalidFormat (s!"the document said it held {fieldCount} stored fields and " ++
        s!"wrote {writer.writtenFields}; the count is written before them and cannot be revised")),
        { writer with openDocument := none })
    else
      (.ok (), { writer with openDocument := none, documents := writer.documents + 1 })

/-- The files, data first. -/
def finish (writer : Writer) (documentCount : Nat) : Except Error (Bytes × Bytes) :=
  if writer.openDocument.isSome then .error (.invalidFormat "a document is still open")
  else
    let expected := 9 + codecNameIndex.utf8.length + documentCount * 8
    if expected ≠ writer.index.length then
      .error (.invalidFormat (s!"fdx size mismatch: {documentCount} documents make {expected} " ++
        s!"bytes and the file is {writer.index.length}"))
    else if documentCount ≠ writer.documents then
      .error (.invalidFormat (s!"{writer.documents} documents were written and " ++
        s!"{documentCount} were declared"))
    else .ok (writer.data, writer.index)

end Writer

/-- The calls of the writer. -/
inductive Call where
  | startDocument (fieldCount : Nat)
  | writeField (number : Int32) (value : StoredValue)
  | finishDocument

/-- One call of the writer. -/
def Writer.call (writer : Writer) : Call → Except Error Unit × Writer
  | .startDocument fieldCount => writer.startDocument fieldCount
  | .writeField number value => writer.writeField number value
  | .finishDocument => writer.finishDocument

/-- Calls in a row, whether they fail or not. -/
def Writer.calls (writer : Writer) (calls : List Call) : Writer :=
  calls.foldl (fun writer call => (writer.call call).2) writer

/-- Calls in a row up to the first that fails. -/
def Writer.tryCalls (writer : Writer) : List Call → Except Error Unit × Writer
  | [] => (.ok (), writer)
  | call :: calls =>
    match writer.call call with
    | (.ok (), writer) => writer.tryCalls calls
    | (.error error, writer) => (.error error, writer)

/-- The stored fields of a document. -/
abbrev Document := List (Int32 × StoredValue)

/-- The calls that write a document. -/
def Document.calls (document : Document) : List Call :=
  .startDocument document.length ::
    (document.map fun field => .writeField field.1 field.2) ++ [.finishDocument]

/-- Writes a document, up to the first error. -/
def writeStoredFields (writer : Writer) (document : Document) : Except Error Unit × Writer :=
  writer.tryCalls document.calls

/-- Documents in a row, whether they fail or not. -/
def writeDocuments (writer : Writer) (documents : List Document) : Writer :=
  documents.foldl (fun writer document => (writeStoredFields writer document).2) writer

/-! ## Reading by the rules of the format -/

/-- `DataInput.readLong`. -/
def readLong (bytes : Bytes) : Option (Int × Bytes) :=
  if bytes.length < 8 then none
  else
    let value := Bytes.ofBe (bytes.take 8)
    some (if value < 2 ^ 63 then value else (value : Int) - 2 ^ 64, bytes.drop 8)

/-- A value behind its bits byte.  The number types are told by three bits, a binary by one. -/
def readValue (bits : UInt8) (bytes : Bytes) : Option (StoredValue × Bytes) := do
  if bits &&& 0x38 ≠ 0 then
    if bits &&& 0x38 = 8 then
      let (value, bytes) ← CodecInput.readInt bytes
      return (.integer (.ofInt value), bytes)
    else if bits &&& 0x38 = 16 then
      let (value, bytes) ← readLong bytes
      return (.long (.ofInt value), bytes)
    else if bits &&& 0x38 = 24 then
      let (value, bytes) ← CodecInput.readInt bytes
      return (.float (Int32.ofInt value).toUInt32, bytes)
    else if bits &&& 0x38 = 32 then
      let (value, bytes) ← readLong bytes
      return (.double (Int64.ofInt value).toUInt64, bytes)
    else none
  else
    let (length, bytes) ← CodecInput.readVint bytes
    let (value, bytes) ← CodecInput.readBytes length bytes
    if bits &&& 2 ≠ 0 then return (.binary value, bytes)
    else
      let text ← String.fromUTF8? ⟨value.toArray⟩
      return (.text text, bytes)

/-- Reads as many fields as the document counts. -/
def readFields : Nat → Bytes → Option (Document × Bytes)
  | 0, bytes => some ([], bytes)
  | count + 1, bytes => do
    let (number, bytes) ← CodecInput.readVint bytes
    let bits ← bytes.head?
    let (value, bytes) ← readValue bits bytes.tail
    let (fields, bytes) ← readFields count bytes
    return ((.ofInt number, value) :: fields, bytes)

/-- The fields of the document at the start of the bytes. -/
def readDocument (bytes : Bytes) : Option (Document × Bytes) := do
  let (count, bytes) ← CodecInput.readVint bytes
  if count < 0 then none else readFields count.toNat bytes

/-- What a reader finds of a document: its entry in the index, and its fields there. -/
def visitDocument (data index : Bytes) (document : Nat) : Option (Nat × Document) := do
  let (pointer, _) ← readLong (index.drop (9 + codecNameIndex.utf8.length + document * 8))
  if pointer < 0 then none
  else
    let (fields, _) ← readDocument (data.drop pointer.toNat)
    return (pointer.toNat, fields)

/-! ## Values -/

/-- The length of a value fits a variable-length integer. -/
def StoredValue.Fits : StoredValue → Prop
  | .text string => string.utf8.length ≤ maximumI32
  | .binary bytes => bytes.length ≤ maximumI32
  | _ => True

/-- What is written of a value that fits. -/
def StoredValue.bytes : StoredValue → Bytes
  | .text string => writeVint string.utf8.length ++ string.utf8
  | .binary bytes => writeVint bytes.length ++ bytes
  | .integer value => writeInt value.toInt
  | .long value => writeLong value.toInt
  | .float value => writeInt value.toInt32.toInt
  | .double value => writeLong value.toInt64.toInt

variable {value : StoredValue} {document : Document}

theorem StoredValue.write_of_fits (h : value.Fits) :
    value.write = .ok value.bytes := by
  cases value with
  | text string => exact writeString_ok_iff.mpr ⟨h, rfl⟩
  | binary bytes => exact if_neg (Nat.not_lt.mpr h)
  | integer value => rfl
  | long value => rfl
  | float value => rfl
  | double value => rfl

theorem StoredValue.write_of_not_fits (h : ¬ value.Fits) :
    ∃ error, value.write = .error error := by
  cases hwrite : value.write with
  | error error => exact ⟨error, rfl⟩
  | ok bytes =>
    cases value with
    | text string => exact absurd (writeString_ok_iff.mp hwrite).1 h
    | binary bytes =>
      rw [StoredValue.write, if_pos (Nat.lt_of_not_le h)] at hwrite
      cases hwrite
    | integer value => exact absurd trivial h
    | long value => exact absurd trivial h
    | float value => exact absurd trivial h
    | double value => exact absurd trivial h

theorem readLong_writeLong {value : Int} (hlow : -2 ^ 63 ≤ value) (hhigh : value < 2 ^ 63)
    (rest : Bytes) : readLong (writeLong value ++ rest) = some (value, rest) := by
  have hlength : (writeLong value).length = 8 := Bytes.length_be 8 _
  have hvalue : Bytes.ofBe (writeLong value) = (value % 2 ^ 64).toNat :=
    Bytes.ofBe_be_of_lt (by omega)
  rw [readLong, if_neg (by rw [length_append, hlength]; omega), ← hlength, List.take_left,
    List.drop_left, hvalue]
  simp only [Option.some.injEq, Prod.mk.injEq, and_true]
  split <;> omega

theorem readInt_toInt (value : Int32) (rest : Bytes) :
    CodecInput.readInt (writeInt value.toInt ++ rest) = some (value.toInt, rest) :=
  CodecInput.readInt_writeInt value.le_toInt value.toInt_lt rest

theorem readLong_toInt (value : Int64) (rest : Bytes) :
    readLong (writeLong value.toInt ++ rest) = some (value.toInt, rest) :=
  readLong_writeLong value.le_toInt value.toInt_lt rest

theorem readBytes_length {bytes : Bytes} (h : bytes.length ≤ maximumI32) (rest : Bytes) :
    (CodecInput.readVint (writeVint bytes.length ++ (bytes ++ rest)) =
        some ((bytes.length : Int), bytes ++ rest)) ∧
      CodecInput.readBytes bytes.length (bytes ++ rest) = some (bytes, rest) :=
  ⟨CodecInput.readVint_writeVint h _, CodecInput.readBytes_append _ _⟩

theorem readValue_bytes (h : value.Fits) (rest : Bytes) :
    readValue value.bits (value.bytes ++ rest) = some (value, rest) := by
  cases value with
  | text string =>
    obtain ⟨hlength, hbytes⟩ := readBytes_length h rest
    rw [readValue, StoredValue.bits, StoredValue.bytes, append_assoc, if_neg (by decide), hlength]
    dsimp only [bind_eq_bind, bind_some]
    rw [hbytes, bind_some, if_neg (by decide), fromUTF8?_utf8]
    rfl
  | binary bytes =>
    obtain ⟨hlength, hbytes⟩ := readBytes_length h rest
    rw [readValue, StoredValue.bits, StoredValue.bytes, append_assoc, if_neg (by decide), hlength]
    dsimp only [bind_eq_bind, bind_some]
    rw [hbytes, bind_some, if_pos (by decide)]
    rfl
  | integer value =>
    rw [readValue, StoredValue.bits, if_pos (by decide), if_pos (by decide), StoredValue.bytes, readInt_toInt]
    dsimp only [bind_eq_bind, bind_some]
    rw [Int32.ofInt_toInt]
    rfl
  | long value =>
    rw [readValue, StoredValue.bits, if_pos (by decide), if_neg (by decide), if_pos (by decide), StoredValue.bytes,
      readLong_toInt]
    dsimp only [bind_eq_bind, bind_some]
    rw [Int64.ofInt_toInt]
    rfl
  | float value =>
    rw [readValue, StoredValue.bits, if_pos (by decide), if_neg (by decide), if_neg (by decide), if_pos (by decide),
      StoredValue.bytes, readInt_toInt]
    dsimp only [bind_eq_bind, bind_some]
    rw [Int32.ofInt_toInt]
    rfl
  | double value =>
    rw [readValue, StoredValue.bits, if_pos (by decide), if_neg (by decide), if_neg (by decide), if_neg (by decide),
      if_pos (by decide), StoredValue.bytes, readLong_toInt]
    dsimp only [bind_eq_bind, bind_some]
    rw [Int64.ofInt_toInt]
    rfl

/-! ## Documents -/

/-- What is written of a field that fits. -/
def encodeField (field : Int32 × StoredValue) : Bytes :=
  writeVint field.1.toInt ++ ([field.2.bits] ++ field.2.bytes)

/-- The bytes of a document. -/
def encodeDocument (document : Document) : Bytes :=
  writeVint document.length ++ document.flatMap encodeField

/-- The counts and lengths of a document fit their fields. -/
def Document.Fits (document : Document) : Prop :=
  document.length ≤ maximumI32 ∧ ∀ field ∈ document, field.2.Fits

theorem readFields_encode (h : ∀ field ∈ document, field.2.Fits) (rest : Bytes) :
    readFields document.length (document.flatMap encodeField ++ rest) = some (document, rest) := by
  induction document with
  | nil => rfl
  | cons field document ih =>
    rw [List.forall_mem_cons] at h
    obtain ⟨number, value⟩ := field
    have hnumber := CodecInput.readVint_writeVint_int number.le_toInt number.toInt_lt
      (value.bits :: (value.bytes ++ (document.flatMap encodeField ++ rest)))
    rw [List.flatMap_cons, encodeField, List.length_cons, readFields]
    simp only [append_assoc, List.nil_append, List.cons_append]
    rw [hnumber]
    dsimp only [bind_eq_bind, bind_some, List.head?_cons, List.tail_cons]
    rw [readValue_bytes h.1, bind_some]
    dsimp only
    rw [ih h.2, Int32.ofInt_toInt]
    rfl

theorem readDocument_encode (h : document.Fits) (rest : Bytes) :
    readDocument (encodeDocument document ++ rest) = some (document, rest) := by
  rw [readDocument, encodeDocument, append_assoc, CodecInput.readVint_writeVint h.1]
  dsimp only [bind_eq_bind, bind_some]
  rw [if_neg (Int.not_lt.mpr (Int.natCast_nonneg _)), Int.toNat_natCast]
  exact readFields_encode h.2 rest

/-! ## What the calls record -/

/-- The finished documents and the open one, with the number of fields it was promised. -/
structure Log where
  finished : List Document
  current : Option (Nat × Document)

/-- What a call records.  A call out of place records nothing, and a document that is closed too
early is lost. -/
def Log.call (log : Log) : Call → Log
  | .startDocument fieldCount =>
    match log.current with
    | some _ => log
    | none => if maximumI32 < fieldCount then log else { log with current := some (fieldCount, []) }
  | .writeField number value =>
    match log.current with
    | some (fieldCount, fields) =>
      if fields.length = fieldCount then log
      else { log with current := some (fieldCount, fields ++ [(number, value)]) }
    | none => log
  | .finishDocument =>
    match log.current with
    | some (fieldCount, fields) =>
      if fields.length ≠ fieldCount then { log with current := none }
      else ⟨log.finished ++ [fields], none⟩
    | none => log

/-- What has been accepted after some calls. -/
def Log.calls (log : Log) (calls : List Call) : Log := calls.foldl Log.call log

/-- The documents that some calls finish. -/
def finishedBy (calls : List Call) : List Document := (Log.calls ⟨[], none⟩ calls).finished

/-- The bytes of a document that is not finished. -/
def encodeOpen : Option (Nat × Document) → Bytes
  | none => []
  | some (fieldCount, fields) => writeVint fieldCount ++ fields.flatMap encodeField

/-- The entries of the first documents. -/
def encodeStarts (header : Nat) (documents : List Document) (count : Nat) : Bytes :=
  (List.range count).flatMap fun i =>
    writeLong ((header + ((documents.take i).flatMap encodeDocument).length : Nat) : Int)

/-- The number of entries that documents account for. -/
def Log.entries (log : Log) : Nat := log.finished.length + if log.current.isSome then 1 else 0

section

variable (dataHeader indexHeader : Bytes)

/-- A writer that has written what was recorded. -/
structure Holds (writer : Writer) (log : Log) : Prop where
  data : writer.data =
    dataHeader ++ (log.finished.flatMap encodeDocument ++ encodeOpen log.current)
  index : writer.index = indexHeader ++ encodeStarts dataHeader.length log.finished log.entries
  openDocument : writer.openDocument = log.current.map Prod.fst
  writtenFields : ∀ fieldCount fields, log.current = some (fieldCount, fields) →
    writer.writtenFields = fields.length ∧ fields.length ≤ fieldCount ∧ fieldCount ≤ maximumI32
  documents : writer.documents = log.finished.length
  fits : ∀ document ∈ log.finished, document.Fits
  openFits : ∀ fieldCount fields, log.current = some (fieldCount, fields) →
    ∀ field ∈ fields, field.2.Fits

/-- A writer with more entries than documents. -/
def Poisoned (writer : Writer) : Prop :=
  indexHeader.length + (writer.documents + (if writer.openDocument.isSome then 1 else 0) + 1) * 8 ≤
    writer.index.length

end

variable {dataHeader indexHeader : Bytes} {writer : Writer} {log : Log}

theorem length_writeLong (value : Int) : (writeLong value).length = 8 := Bytes.length_be 8 _

variable (header : Nat) (documents : List Document)

theorem length_encodeStarts (count : Nat) :
    (encodeStarts header documents count).length = count * 8 := by
  rw [encodeStarts, List.length_flatMap]
  simp only [length_writeLong, List.map_const', List.sum_replicate_nat, List.length_range]

/-- An entry does not depend on later documents. -/
theorem encodeStarts_append (later : List Document) {count : Nat}
    (h : count ≤ documents.length + 1) :
    encodeStarts header (documents ++ later) count = encodeStarts header documents count := by
  refine List.flatMap_congr fun i hi => ?_
  rw [List.take_append_of_le_length (by have := List.mem_range.mp hi; omega)]

theorem encodeStarts_succ :
    encodeStarts header documents (documents.length + 1) =
      encodeStarts header documents documents.length ++
        writeLong ((header + (documents.flatMap encodeDocument).length : Nat) : Int) := by
  rw [encodeStarts, List.range_succ, List.flatMap_append, List.flatMap_singleton, List.take_length]
  rfl

/-! ## One call -/

theorem Poisoned.call (h : Poisoned indexHeader writer) (call : Call) :
    Poisoned indexHeader (writer.call call).2 := by
  obtain ⟨data, index, openDocument, writtenFields, documents⟩ := writer
  cases call with
  | startDocument fieldCount =>
    rw [Writer.call, Writer.startDocument]
    cases openDocument with
    | some count => exact h
    | none =>
      dsimp only
      split
      · rw [Poisoned, length_append, length_writeLong]
        exact Nat.le_add_right_of_le h
      · rw [Poisoned, length_append, length_writeLong]
        exact Nat.le_trans (by simp; omega) (Nat.add_le_add_right h 8)
  | writeField number value =>
    rw [Writer.call, Writer.writeField]
    cases openDocument with
    | none => exact h
    | some count =>
      dsimp only
      split
      · exact h
      · cases value.write with
        | error error => exact h
        | ok bytes => exact h
  | finishDocument =>
    rw [Writer.call, Writer.finishDocument]
    cases openDocument with
    | none => exact h
    | some count =>
      dsimp only
      split
      · exact Nat.le_trans (by simp) h
      · exact Nat.le_trans (by simp) h

theorem Poisoned.finish (h : Poisoned indexHeader writer)
    (hheader : indexHeader.length = 9 + codecNameIndex.utf8.length) (documentCount : Nat) :
    ∃ error, writer.finish documentCount = .error error := by
  rw [Writer.finish]
  by_cases hopen : writer.openDocument.isSome
  · exact ⟨_, if_pos hopen⟩
  · rw [if_neg hopen]
    dsimp only
    by_cases hindex : 9 + codecNameIndex.utf8.length + documentCount * 8 ≠ writer.index.length
    · exact ⟨_, if_pos hindex⟩
    · rw [if_neg hindex]
      have hcount : documentCount ≠ writer.documents := by
        rw [Poisoned, hheader] at h
        omega
      exact ⟨_, if_pos hcount⟩

/-- The value of a call fits its length. -/
def Call.Fits : Call → Prop
  | .writeField _ value => value.Fits
  | _ => True

section

variable {finished : List Document} {fieldCount : Nat} {fields : Document}

theorem Holds.length_index (h : Holds dataHeader indexHeader writer log) :
    writer.index.length = indexHeader.length + log.entries * 8 := by
  rw [h.index, length_append, length_encodeStarts]

section

variable (h : Holds dataHeader indexHeader writer ⟨finished, none⟩)
include h

theorem Holds.startDocument (hshort : ¬ maximumI32 < fieldCount) :
    ∃ writer', writer.startDocument fieldCount = (.ok (), writer') ∧
      Holds dataHeader indexHeader writer' ⟨finished, some (fieldCount, [])⟩ := by
  have hopen : writer.openDocument = none := h.openDocument
  have hdata := h.data
  rw [encodeOpen, append_nil] at hdata
  rw [Writer.startDocument, hopen]
  dsimp only
  rw [if_neg hshort]
  refine ⟨_, rfl, ?_, ?_, rfl, ?_, h.documents, h.fits, ?_⟩
  · rw [hdata, encodeOpen, List.flatMap_nil, append_nil, append_assoc]
  · have hindex := h.index
    rw [Log.entries] at hindex ⊢
    simp only [Option.isSome_none, Option.isSome_some, Bool.false_eq_true, if_false,
      if_true, Nat.add_zero] at hindex ⊢
    rw [hindex, append_assoc, encodeStarts_succ, hdata, length_append]
  · rintro count later ⟨⟩
    exact ⟨rfl, Nat.zero_le _, Nat.le_of_not_lt hshort⟩
  · rintro count later ⟨⟩
    nofun

/-- A count that is too long leaves its entry behind. -/
theorem Holds.startDocument_long (hlong : maximumI32 < fieldCount) :
    ∃ error writer', writer.startDocument fieldCount = (.error error, writer') ∧
      Poisoned indexHeader writer' := by
  have hopen : writer.openDocument = none := h.openDocument
  rw [Writer.startDocument, hopen]
  dsimp only
  rw [if_pos hlong]
  refine ⟨_, _, rfl, ?_⟩
  rw [Poisoned, length_append, length_writeLong, h.length_index]
  dsimp only
  rw [h.documents]
  simp [Log.entries]
  omega

end

variable {value : StoredValue}

section

variable (h : Holds dataHeader indexHeader writer ⟨finished, some (fieldCount, fields)⟩)
include h

theorem Holds.writeField
    (hroom : fields.length ≠ fieldCount) (number : Int32) (hfits : value.Fits) :
    ∃ writer', writer.writeField number value = (.ok (), writer') ∧
      Holds dataHeader indexHeader writer'
        ⟨finished, some (fieldCount, fields ++ [(number, value)])⟩ := by
  obtain ⟨hwritten, hle, hmaximum⟩ := h.writtenFields fieldCount fields rfl
  have hopen : writer.openDocument = some fieldCount := h.openDocument
  rw [Writer.writeField, hopen]
  dsimp only
  rw [hwritten, if_neg hroom, StoredValue.write_of_fits hfits]
  refine ⟨_, rfl, ?_, h.index, rfl, ?_, h.documents, h.fits, ?_⟩
  · dsimp only
    rw [h.data, encodeOpen, encodeOpen, List.flatMap_append, List.flatMap_singleton, encodeField]
    simp only [append_assoc]
  · rintro count later ⟨⟩
    rw [length_append, List.length_singleton]
    exact ⟨rfl, by omega, hmaximum⟩
  · rintro count later ⟨⟩
    exact List.forall_mem_append.mpr
      ⟨h.openFits fieldCount fields rfl, List.forall_mem_singleton.mpr hfits⟩

/-- A value that is too long leaves its document open. -/
theorem Holds.writeField_long
    (hroom : fields.length ≠ fieldCount) (number : Int32) (hlong : ¬ value.Fits) :
    ∃ error writer', writer.writeField number value = (.error error, writer') ∧
      writer'.openDocument.isSome := by
  obtain ⟨hwritten, -⟩ := h.writtenFields fieldCount fields rfl
  have hopen : writer.openDocument = some fieldCount := h.openDocument
  obtain ⟨error, herror⟩ := StoredValue.write_of_not_fits hlong
  rw [Writer.writeField, hopen]
  dsimp only
  rw [hwritten, if_neg hroom, herror]
  exact ⟨error, _, rfl, rfl⟩

theorem Holds.finishDocument (hfull : fields.length = fieldCount) :
    ∃ writer', writer.finishDocument = (.ok (), writer') ∧
      Holds dataHeader indexHeader writer' ⟨finished ++ [fields], none⟩ := by
  obtain ⟨hwritten, hle, hmaximum⟩ := h.writtenFields fieldCount fields rfl
  have hopen : writer.openDocument = some fieldCount := h.openDocument
  rw [Writer.finishDocument, hopen]
  dsimp only
  rw [hwritten, if_neg (not_not_intro hfull)]
  refine ⟨_, rfl, ?_, ?_, rfl, nofun, ?_, ?_, nofun⟩
  · dsimp only
    rw [h.data, encodeOpen, encodeOpen, List.flatMap_append, List.flatMap_singleton,
      encodeDocument, append_nil, hfull]
  · dsimp only
    rw [h.index, Log.entries, Log.entries, length_append, List.length_singleton,
      encodeStarts_append _ _ _ (by simp)]
    rfl
  · dsimp only
    rw [h.documents, length_append, List.length_singleton]
  · exact List.forall_mem_append.mpr ⟨h.fits, List.forall_mem_singleton.mpr
      ⟨hfull ▸ hmaximum, h.openFits fieldCount fields rfl⟩⟩

/-- A document that is closed too early keeps its entry. -/
theorem Holds.finishDocument_early
    (hshort : fields.length ≠ fieldCount) : Poisoned indexHeader writer.finishDocument.2 := by
  obtain ⟨hwritten, hle, hmaximum⟩ := h.writtenFields fieldCount fields rfl
  have hopen : writer.openDocument = some fieldCount := h.openDocument
  rw [Writer.finishDocument, hopen]
  dsimp only
  rw [hwritten, if_pos hshort, Poisoned, h.length_index, h.documents]
  simp [Log.entries]

end

end

/-- A call whose value fits writes what it records, or it leaves an entry without a document. -/
theorem Holds.call (h : Holds dataHeader indexHeader writer log) {call : Call} (hfits : call.Fits) :
    Holds dataHeader indexHeader (writer.call call).2 (log.call call) ∨
      Poisoned indexHeader (writer.call call).2 := by
  obtain ⟨finished, current⟩ := log
  cases call with
  | startDocument fieldCount =>
    rw [Writer.call, Log.call]
    cases current with
    | some pair =>
      rw [Writer.startDocument, h.openDocument]
      exact .inl h
    | none =>
      dsimp only
      by_cases hlong : maximumI32 < fieldCount
      · obtain ⟨error, writer', hstart, hpoisoned⟩ := h.startDocument_long hlong
        rw [hstart]
        exact .inr hpoisoned
      · obtain ⟨writer', hstart, hholds⟩ := h.startDocument hlong
        rw [hstart, if_neg hlong]
        exact .inl hholds
  | writeField number value =>
    rw [Writer.call, Log.call]
    cases current with
    | none =>
      rw [Writer.writeField, h.openDocument]
      exact .inl h
    | some pair =>
      obtain ⟨fieldCount, fields⟩ := pair
      dsimp only
      by_cases hfull : fields.length = fieldCount
      · rw [if_pos hfull, Writer.writeField, h.openDocument]
        dsimp only [Option.map_some]
        rw [(h.writtenFields fieldCount fields rfl).1, if_pos hfull]
        exact .inl h
      · obtain ⟨writer', hwrite, hholds⟩ := h.writeField hfull number hfits
        rw [hwrite, if_neg hfull]
        exact .inl hholds
  | finishDocument =>
    rw [Writer.call, Log.call]
    cases current with
    | none =>
      rw [Writer.finishDocument, h.openDocument]
      exact .inl h
    | some pair =>
      obtain ⟨fieldCount, fields⟩ := pair
      dsimp only
      by_cases hshort : fields.length ≠ fieldCount
      · exact .inr (h.finishDocument_early hshort)
      · obtain ⟨writer', hfinish, hholds⟩ := h.finishDocument (not_not.mp hshort)
        rw [hfinish, if_neg hshort]
        exact .inl hholds

/-! ## Calls in a row -/

theorem Holds.calls (h : Holds dataHeader indexHeader writer log ∨ Poisoned indexHeader writer)
    {calls : List Call} (hfits : ∀ call ∈ calls, call.Fits) :
    Holds dataHeader indexHeader (writer.calls calls) (log.calls calls) ∨
      Poisoned indexHeader (writer.calls calls) := by
  induction calls generalizing writer log with
  | nil => exact h
  | cons call calls ih =>
    rw [List.forall_mem_cons] at hfits
    refine @ih _ (log.call call) ?_ hfits.2
    rcases h with hholds | hpoisoned
    · exact hholds.call hfits.1
    · exact .inr (hpoisoned.call call)

theorem exists_new : ∃ dataHeader indexHeader writer, Writer.new = .ok writer ∧
    Holds dataHeader indexHeader writer ⟨[], none⟩ ∧
    indexHeader.length = 9 + codecNameIndex.utf8.length ∧
    (∀ rest, checkHeader codecNameData versionCurrent (dataHeader ++ rest) = some rest) ∧
    ∀ rest, checkHeader codecNameIndex versionCurrent (indexHeader ++ rest) =
      some rest := by
  obtain ⟨dataHeader, hdata, hcheckData⟩ := @CodecInput.checkHeader_writeHeader codecNameData
    versionCurrent (by decide) (by decide) (by rw [toUTF8_toList]; rfl) (by decide) (by decide)
  obtain ⟨indexHeader, hindex, hcheckIndex⟩ := @CodecInput.checkHeader_writeHeader codecNameIndex
    versionCurrent (by decide) (by decide) (by rw [toUTF8_toList]; rfl) (by decide) (by decide)
  obtain ⟨header, hheader, hlength⟩ := @exists_writeHeader codecNameIndex versionCurrent (by decide)
    (by decide)
  obtain rfl : indexHeader = header := Except.ok.inj (hindex.symm.trans hheader)
  refine ⟨dataHeader, indexHeader, ⟨dataHeader, indexHeader, none, 0, 0⟩, ?_, ?_, hlength,
    hcheckData, hcheckIndex⟩
  · rw [Writer.new, hdata, hindex]
    rfl
  · exact ⟨(append_nil _).symm, (append_nil _).symm, rfl, nofun, rfl, nofun, nofun⟩

/-! ## The files -/

/-- Files that read as documents: each is found by its entry, where it starts. -/
structure ReadsAs (data index : Bytes) (documents : List Document) : Prop where
  dataHeader : (CodecInput.checkHeader codecNameData versionCurrent data).isSome
  indexHeader : (CodecInput.checkHeader codecNameIndex versionCurrent index).isSome
  size : index.length = 9 + codecNameIndex.utf8.length + documents.length * 8
  visits : ∃ header, data = header ++ documents.flatMap encodeDocument ∧
    ∀ i (hi : i < documents.length), visitDocument data index i =
      some ((header ++ (documents.take i).flatMap encodeDocument).length, documents[i])

theorem drop_flatMap {α : Type} {f : α → Bytes} (hf : ∀ a, (f a).length = 8) (l : List α) (i : Nat) :
    (l.flatMap f).drop (i * 8) = (l.drop i).flatMap f := by
  induction l generalizing i with
  | nil => simp
  | cons a l ih =>
    cases i with
    | zero => rfl
    | succ i =>
      rw [List.flatMap_cons, List.drop_succ_cons, ← ih, Nat.succ_mul, Nat.add_comm, ← List.drop_drop,
        ← hf a, List.drop_left]

/-- The entry of a document and what follows it. -/
theorem drop_encodeStarts {header : Nat} {documents : List Document} {count i : Nat}
    (hi : i < count) :
    ∃ rest, (encodeStarts header documents count).drop (i * 8) =
      writeLong ((header + ((documents.take i).flatMap encodeDocument).length : Nat) : Int) ++
        rest := by
  rw [encodeStarts, drop_flatMap fun _ => length_writeLong _,
    List.drop_eq_getElem_cons (by rwa [List.length_range]), List.flatMap_cons, List.getElem_range]
  exact ⟨_, rfl⟩

theorem Holds.finish (h : Holds dataHeader indexHeader writer log) {documentCount : Nat}
    {data index : Bytes} (hfinish : writer.finish documentCount = .ok (data, index)) :
    log.current = none ∧ documentCount = log.finished.length ∧ data = writer.data ∧
      index = writer.index := by
  rw [Writer.finish] at hfinish
  by_cases hopen : writer.openDocument.isSome
  · rw [if_pos hopen] at hfinish
    cases hfinish
  · rw [if_neg hopen] at hfinish
    dsimp only at hfinish
    split at hfinish
    · cases hfinish
    · split at hfinish
      · cases hfinish
      · rename_i hcount
        cases hfinish
        refine ⟨?_, (not_not.mp hcount).trans h.documents, rfl, rfl⟩
        rw [h.openDocument, Option.isSome_map, Bool.not_eq_true] at hopen
        exact Option.isSome_eq_false_iff.mp hopen |> Option.isNone_iff_eq_none.mp

section

variable (h : Holds dataHeader indexHeader writer log)
  (hheader : indexHeader.length = 9 + codecNameIndex.utf8.length)
include h hheader

theorem Holds.finish_ok (hcurrent : log.current = none) :
    writer.finish log.finished.length = .ok (writer.data, writer.index) := by
  have hopen : writer.openDocument = none := by
    rw [h.openDocument, hcurrent]
    rfl
  have hlength : writer.index.length = indexHeader.length + log.finished.length * 8 := by
    rw [h.index, length_append, length_encodeStarts, Log.entries, hcurrent]
    rfl
  rw [Writer.finish, hopen, if_neg (by decide)]
  dsimp only
  rw [hlength, hheader, if_neg (not_not_intro rfl), h.documents, if_neg (not_not_intro rfl)]

/-- The documents are found in what was written. -/
theorem Holds.readsAs (hcheckData : ∀ rest,
      checkHeader codecNameData versionCurrent (dataHeader ++ rest) = some rest)
    (hcheckIndex : ∀ rest,
      checkHeader codecNameIndex versionCurrent (indexHeader ++ rest) = some rest)
    (hcurrent : log.current = none) (hsize : writer.data.length < 2 ^ 63) :
    ReadsAs writer.data writer.index log.finished := by
  have hdata : writer.data = dataHeader ++ log.finished.flatMap encodeDocument := by
    rw [h.data, hcurrent, encodeOpen, append_nil]
  have hindex : writer.index =
      indexHeader ++ encodeStarts dataHeader.length log.finished log.finished.length := by
    rw [h.index, Log.entries, hcurrent]
    rfl
  refine ⟨?_, ?_, ?_, dataHeader, hdata, fun i hi => ?_⟩
  · rw [hdata, hcheckData]
    rfl
  · rw [hindex, hcheckIndex]
    rfl
  · rw [hindex, length_append, length_encodeStarts, hheader]
  · obtain ⟨later, hentry⟩ := @drop_encodeStarts dataHeader.length log.finished _ i hi
    have hdocuments : log.finished =
        log.finished.take i ++ log.finished[i] :: log.finished.drop (i + 1) := by
      rw [← List.drop_eq_getElem_cons hi, List.take_append_drop]
    obtain ⟨before, hbefore⟩ :
        ∃ before, dataHeader ++ (log.finished.take i).flatMap encodeDocument = before := ⟨_, rfl⟩
    have hsplit : writer.data = before ++ (encodeDocument log.finished[i] ++
        (log.finished.drop (i + 1)).flatMap encodeDocument) := by
      rw [hdata, ← hbefore, append_assoc, ← List.flatMap_cons, ← List.flatMap_append,
        ← hdocuments]
    have hle : before.length < 2 ^ 63 := by
      rw [hsplit, length_append] at hsize
      omega
    rw [← length_append, hbefore] at hentry
    rw [visitDocument, hindex, ← hheader, ← List.drop_drop, List.drop_left, hentry,
      readLong_writeLong (by omega) (by omega)]
    dsimp only [bind_eq_bind, bind_some]
    rw [if_neg (Int.not_lt.mpr (Int.natCast_nonneg _)), Int.toNat_natCast, hsplit, List.drop_left,
      readDocument_encode (h.fits _ (List.getElem_mem hi)), hbefore]
    rfl

end

/-! ## Documents in a row -/

/-- The calls for the fields that are left of a document. -/
theorem Holds.tryFields {finished : List Document} {fieldCount : Nat} {written fields : Document}
    (h : Holds dataHeader indexHeader writer ⟨finished, some (fieldCount, written)⟩)
    (hcount : written.length + fields.length = fieldCount) :
    ((∀ field ∈ fields, field.2.Fits) →
      ∃ writer', writer.tryCalls ((fields.map fun field => .writeField field.1 field.2) ++
          [.finishDocument]) = (.ok (), writer') ∧
        Holds dataHeader indexHeader writer' ⟨finished ++ [written ++ fields], none⟩) ∧
    (¬ (∀ field ∈ fields, field.2.Fits) →
      ∃ error writer', writer.tryCalls ((fields.map fun field => .writeField field.1 field.2) ++
          [.finishDocument]) = (.error error, writer') ∧ writer'.openDocument.isSome) := by
  induction fields generalizing writer written with
  | nil =>
    refine ⟨fun _ => ?_, fun hlong => absurd (List.forall_mem_nil _) hlong⟩
    obtain ⟨writer', hfinish, hholds⟩ := h.finishDocument hcount
    rw [append_nil]
    refine ⟨writer', ?_, hholds⟩
    rw [List.map_nil, List.nil_append, Writer.tryCalls, Writer.call, hfinish]
    rfl
  | cons field fields ih =>
    have hroom : written.length ≠ fieldCount := by
      rw [List.length_cons] at hcount
      omega
    have hcount' : (written ++ [field]).length + fields.length = fieldCount := by
      rw [List.length_cons] at hcount
      rw [length_append, List.length_singleton]
      omega
    rw [List.map_cons, List.cons_append, Writer.tryCalls, Writer.call, List.forall_mem_cons]
    by_cases hfits : field.2.Fits
    · obtain ⟨writer', hwrite, hholds⟩ := h.writeField hroom field.1 hfits
      rw [hwrite, and_iff_right hfits]
      have hih := ih hholds hcount'
      rw [append_assoc] at hih
      exact hih
    · obtain ⟨error, writer', hwrite, hopen⟩ := h.writeField_long hroom field.1 hfits
      rw [hwrite]
      exact ⟨fun hboth => absurd hboth.1 hfits, fun _ => ⟨error, writer', rfl, hopen⟩⟩

/-- A writer that will refuse to hand back its files. -/
def Broken (indexHeader : Bytes) (writer : Writer) : Prop :=
  Poisoned indexHeader writer ∨ writer.openDocument.isSome

theorem Poisoned.tryCalls (h : Poisoned indexHeader writer) (calls : List Call) :
    Poisoned indexHeader (writer.tryCalls calls).2 := by
  induction calls generalizing writer with
  | nil => exact h
  | cons call calls ih =>
    have hcall := h.call call
    rw [Writer.tryCalls]
    cases hresult : writer.call call with
    | mk result writer' =>
      rw [hresult] at hcall
      cases result with
      | ok _ => exact ih hcall
      | error error => exact hcall

theorem Broken.writeStoredFields (h : Broken indexHeader writer) (document : Document) :
    Broken indexHeader (writeStoredFields writer document).2 := by
  rcases h with hpoisoned | hopen
  · exact .inl (hpoisoned.tryCalls _)
  · obtain ⟨count, hcount⟩ := Option.isSome_iff_exists.mp hopen
    refine .inr ?_
    rw [StoredFields.writeStoredFields, Document.calls, List.cons_append, Writer.tryCalls,
      Writer.call, Writer.startDocument, hcount]
    exact hopen

theorem Broken.finish (h : Broken indexHeader writer)
    (hheader : indexHeader.length = 9 + codecNameIndex.utf8.length) (documentCount : Nat) :
    ∃ error, writer.finish documentCount = .error error := by
  rcases h with hpoisoned | hopen
  · exact hpoisoned.finish hheader documentCount
  · exact ⟨_, if_pos hopen⟩

/-- One document is written whole, or the writer is broken. -/
theorem Holds.writeStoredFields {finished : List Document}
    (h : Holds dataHeader indexHeader writer ⟨finished, none⟩) (document : Document) :
    (document.Fits →
      Holds dataHeader indexHeader (writeStoredFields writer document).2
        ⟨finished ++ [document], none⟩) ∧
      (¬ document.Fits → Broken indexHeader (writeStoredFields writer document).2) := by
  rw [StoredFields.writeStoredFields, Document.calls, List.cons_append, Writer.tryCalls,
    Writer.call]
  by_cases hlong : maximumI32 < document.length
  · obtain ⟨error, writer', hstart, hpoisoned⟩ := h.startDocument_long hlong
    rw [hstart]
    exact ⟨fun hfits => absurd hfits.1 (Nat.not_le.mpr hlong), fun _ => .inl hpoisoned⟩
  · obtain ⟨writer', hstart, hholds⟩ := h.startDocument hlong
    rw [hstart]
    obtain ⟨hwhole, hbroken⟩ := hholds.tryFields (Nat.zero_add document.length)
    refine ⟨fun hfits => ?_, fun hnot => ?_⟩
    · obtain ⟨writer'', htry, hholds'⟩ := hwhole hfits.2
      dsimp only
      rw [htry]
      exact hholds'
    · obtain ⟨error, writer'', htry, hopen⟩ :=
        hbroken fun hfields => hnot ⟨Nat.le_of_not_lt hlong, hfields⟩
      dsimp only
      rw [htry]
      exact .inr hopen

theorem Broken.writeDocuments (h : Broken indexHeader writer) (documents : List Document) :
    Broken indexHeader (writeDocuments writer documents) := by
  induction documents generalizing writer with
  | nil => exact h
  | cons document documents ih => exact ih (h.writeStoredFields document)

theorem Holds.writeDocuments {finished : List Document}
    (h : Holds dataHeader indexHeader writer ⟨finished, none⟩) (documents : List Document) :
    ((∀ document ∈ documents, document.Fits) →
      Holds dataHeader indexHeader (writeDocuments writer documents)
        ⟨finished ++ documents, none⟩) ∧
      (¬ (∀ document ∈ documents, document.Fits) →
        Broken indexHeader (writeDocuments writer documents)) := by
  induction documents generalizing writer finished with
  | nil =>
    rw [append_nil]
    exact ⟨fun _ => h, fun hnot => absurd (List.forall_mem_nil _) hnot⟩
  | cons document documents ih =>
    obtain ⟨hwhole, hbroken⟩ := h.writeStoredFields document
    rw [List.forall_mem_cons]
    by_cases hfits : document.Fits
    · rw [and_iff_right hfits]
      have hih := ih (hwhole hfits)
      rw [append_assoc] at hih
      exact hih
    · exact ⟨fun hboth => absurd hboth.1 hfits,
        fun _ => (hbroken hfits).writeDocuments documents⟩

/-- Files that are handed back after any calls whose values fit hold the documents that the calls
finished, as many as were declared.  Documents in a row are handed back exactly when all of them
fit and as many were declared, and then they are what the files hold. -/
theorem storedFields :
    ∃ writer, Writer.new = .ok writer ∧
      (∀ (calls : List Call) (documentCount : Nat) (data index : Bytes),
        (∀ call ∈ calls, call.Fits) →
        (writer.calls calls).finish documentCount = .ok (data, index) → data.length < 2 ^ 63 →
        documentCount = (finishedBy calls).length ∧ ReadsAs data index (finishedBy calls)) ∧
      ∀ (documents : List Document) (documentCount : Nat),
        ((∃ files, (writeDocuments writer documents).finish documentCount = .ok files) ↔
          documentCount = documents.length ∧ ∀ document ∈ documents, document.Fits) ∧
        ∀ data index, (writeDocuments writer documents).finish documentCount = .ok (data, index) →
          data.length < 2 ^ 63 → ReadsAs data index documents := by
  obtain ⟨dataHeader, indexHeader, writer, hnew, hholds, hheader, hdata, hindex⟩ := exists_new
  refine ⟨writer, hnew, fun calls documentCount data index hfits hfinish hsize => ?_,
    fun documents documentCount => ?_⟩
  · rcases Holds.calls (.inl hholds) hfits with hafter | hpoisoned
    · obtain ⟨hcurrent, hcount, rfl, rfl⟩ := hafter.finish hfinish
      exact ⟨hcount, hafter.readsAs hheader hdata hindex hcurrent hsize⟩
    · obtain ⟨error, herror⟩ := hpoisoned.finish hheader documentCount
      rw [herror] at hfinish
      cases hfinish
  · obtain ⟨hwhole, hbroken⟩ := hholds.writeDocuments documents
    rw [List.nil_append] at hwhole
    have hrefuses : ¬ (∀ document ∈ documents, document.Fits) → ∀ files,
        (writeDocuments writer documents).finish documentCount ≠ .ok files := by
      intro hnot files hfiles
      obtain ⟨error, herror⟩ := (hbroken hnot).finish hheader documentCount
      rw [herror] at hfiles
      cases hfiles
    refine ⟨⟨fun hfiles => ?_, fun hboth => ?_⟩, fun data index hfinish hsize => ?_⟩
    · obtain ⟨⟨data, index⟩, hfinish⟩ := hfiles
      have hfits := not_not.mp fun hnot => hrefuses hnot _ hfinish
      exact ⟨((hwhole hfits).finish hfinish).2.1, hfits⟩
    · obtain ⟨rfl, hfits⟩ := hboth
      exact ⟨_, (hwhole hfits).finish_ok hheader rfl⟩
    · have hfits := not_not.mp fun hnot => hrefuses hnot _ hfinish
      obtain ⟨-, -, rfl, rfl⟩ := (hwhole hfits).finish hfinish
      exact (hwhole hfits).readsAs hheader hdata hindex rfl hsize

/-- A document with a text and a number, and one with no stored field. -/
def twoDocuments : List Document := [[(3, .text "a"), (-1, .integer 7)], []]

theorem storedFields_two :
    ∃ writer, Writer.new = .ok writer ∧
      ∃ data index, (writeDocuments writer twoDocuments).finish 2 = .ok (data, index) ∧
        ReadsAs data index twoDocuments := by
  obtain ⟨writer, hnew, -, hdocuments⟩ := storedFields
  have hfits : ∀ document ∈ twoDocuments, document.Fits := by
    intro document hmem
    rcases List.mem_cons.mp hmem with rfl | hmem
    · refine ⟨by decide, fun field hfield => ?_⟩
      rcases List.mem_cons.mp hfield with rfl | hfield
      · exact (by decide : "a".utf8.length ≤ maximumI32)
      · rw [List.mem_singleton.mp hfield]
        exact trivial
    · rw [List.mem_singleton.mp hmem]
      exact ⟨Nat.zero_le _, nofun⟩
  obtain ⟨⟨data, index⟩, hfinish⟩ := (hdocuments twoDocuments 2).1.mpr ⟨rfl, hfits⟩
  have hlength : (Writer.new.toOption.bind fun writer =>
      ((writeDocuments writer twoDocuments).finish 2).toOption.map (·.1.length)) = some 49 := by
    decide +kernel
  rw [hnew, Except.toOption, Option.bind_some, hfinish] at hlength
  have hsize : data.length = 49 := Option.some.inj hlength
  exact ⟨writer, hnew, data, index, hfinish,
    (hdocuments twoDocuments 2).2 data index hfinish (by omega)⟩

end Froe.StoredFields
