import Froe.Lucene.DataInput
import Froe.Lucene.Packed
import Froe.Lucene.SkipList
import Froe.Tar.Index

/-!
# Writing postings

`PostingsWriter` in `codec/postings.rs` writes the documents of a term to `.doc`, its positions
to `.pos` and its offsets to `.pay`.  Documents and positions are buffered in blocks of 128 that
are filled independently of each other.  The first document after a filled block buffers a skip
point with where the three files stood when the block's last document was finished.

`writeTerm` is the order of calls for one term; `Written` are the writers that a segment's
fields and terms lead to.
-/

namespace Froe

open Except (bind_ok_iff ok_bind_eq)

/-- `FieldInfo.IndexOptions`. -/
inductive IndexOptions where
  | documents
  | documentsAndFrequencies
  | documentsAndFrequenciesAndPositions
  | documentsAndFrequenciesAndPositionsAndOffsets
deriving DecidableEq, Repr

namespace IndexOptions

def hasFrequencies : IndexOptions → Bool
  | documents => false
  | _ => true

def hasPositions : IndexOptions → Bool
  | documents | documentsAndFrequencies => false
  | _ => true

def hasOffsets : IndexOptions → Bool
  | documentsAndFrequenciesAndPositionsAndOffsets => true
  | _ => false

end IndexOptions

namespace Postings

open CodecOutput

/-- What the segment decides for the whole writer. -/
structure SegmentShape where
  documentCount : Int32
  anyFieldHasPositions : Bool
  anyFieldHasOffsets : Bool

/-- What `finish_term` hands to the terms dictionary. -/
structure TermMetadata where
  documentStart : Nat
  positionStart : Nat
  payloadStart : Nat
  singletonDocument : Option Int32
  lastPositionBlockOffset : Option Nat
  skipOffset : Option Nat
  documentFrequency : Nat
  totalTermFrequency : Int

/-- The writer between two calls.  A buffer is the list of what it holds. -/
structure PostingsWriter where
  documentOutput : Bytes
  positionOutput : Option Bytes
  payloadOutput : Option Bytes
  options : IndexOptions := .documents
  documentDeltas : List Int32 := []
  frequencies : List Int32 := []
  positionDeltas : List Int32 := []
  offsetStartDeltas : List Int32 := []
  offsetLengths : List Int32 := []
  lastDocument : Int32 := 0
  lastPosition : Int32 := 0
  lastStartOffset : Int32 := 0
  documentCount : Nat := 0
  frequencyTotal : Int := 0
  positionCount : Nat := 0
  lastBlockDocument : Int32 := -1
  lastBlockPositionPointer : Nat := 0
  lastBlockPayloadPointer : Nat := 0
  lastBlockPositionBufferUpto : Nat := 0
  documentStart : Nat := 0
  positionStart : Nat := 0
  payloadStart : Nat := 0
  skip : SkipWriter

/-! ## Blocks -/

/-- `ForUtil`'s constructor: how a block of each width is packed. -/
def formatTable : Bytes :=
  writeVint 1 ++ (List.range 32).flatMap fun width => writeVint width

/-- `ForUtil.writeBlock`: one byte of width, then the packed values, or the one value that all
of them are. -/
def writeBlock (values : List Int32) : Except Error Bytes :=
  let first := values.headD 0
  if values.all (· == first) then .ok (0 :: writeVint first.toInt)
  else do
    let packed := values.map fun value => value.toUInt32.toUInt64
    let bitsPerValue := bitsRequired (packed.foldl (· ||| ·) 0)
    let block ← writePacked packed bitsPerValue
    return UInt8.ofNat bitsPerValue :: block

/-! ## The writer -/

/-- Opens the segment's files: a sink for `.pos` and for `.pay` exactly where the shape has
them. -/
def PostingsWriter.new (shape : SegmentShape) (position payload : Bool) :
    Except Error PostingsWriter :=
  if shape.anyFieldHasPositions ≠ position then
    let given := if position then "" else "not "
    invalid (s!"a segment with positions = {shape.anyFieldHasPositions} needs a .pos sink and " ++
      s!"only then; one was {given}given")
  else if shape.anyFieldHasOffsets ≠ payload then
    let given := if payload then "" else "not "
    invalid (s!"a segment with offsets = {shape.anyFieldHasOffsets} needs a .pay sink and " ++
      s!"only then; one was {given}given")
  else if shape.anyFieldHasOffsets ∧ ¬ shape.anyFieldHasPositions then
    invalid ("offsets without positions is not an index option Lucene has; " ++
      ".pay is created inside the branch that creates .pos")
  else do
    let document ← writeHeader "Lucene41PostingsWriterDoc" 1
    let positionHeader ← writeHeader "Lucene41PostingsWriterPos" 1
    let payloadHeader ← writeHeader "Lucene41PostingsWriterPay" 1
    return {
      documentOutput := document ++ formatTable
      positionOutput := if position then some positionHeader else none
      payloadOutput := if payload then some payloadHeader else none
      skip := SkipWriter.new shape.documentCount }

/-- `setField`, with the number of pointers that its terms' metadata carry. -/
def PostingsWriter.setField (writer : PostingsWriter) (options : IndexOptions) :
    Except Error (Nat × PostingsWriter) :=
  if options.hasPositions ∧ writer.positionOutput.isNone then
    invalid ("a field with positions in a segment whose field infos said it had none: " ++
      "there is no .pos to write into")
  else if options.hasOffsets ∧ writer.payloadOutput.isNone then
    invalid ("a field with offsets in a segment whose field infos said it had none: " ++
      "there is no .pay to write into")
  else
    .ok (if options.hasPositions then if options.hasOffsets then 3 else 2 else 1,
      { writer with
        options
        skip := writer.skip.setField options.hasPositions options.hasOffsets })

/-- The length of a file that the segment may not have; `old` where it has none. -/
def pointerOr (output : Option Bytes) (old : Nat) : Nat := (output.map List.length).getD old

/-- `startTerm`: latches where the term begins in each file and clears the skip list. -/
def PostingsWriter.startTerm (writer : PostingsWriter) : PostingsWriter :=
  let documentStart := writer.documentOutput.length
  let positionStart := pointerOr writer.positionOutput writer.positionStart
  let payloadStart := pointerOr writer.payloadOutput writer.payloadStart
  { writer with
    documentStart, positionStart, payloadStart
    lastDocument := 0
    lastBlockDocument := -1
    skip := writer.skip.reset documentStart positionStart payloadStart }

/-- Where the last full block ends. -/
def PostingsWriter.blockPoint (writer : PostingsWriter) : SkipPoint :=
  { document := writer.lastBlockDocument.toInt
    documentPointer := writer.documentOutput.length
    positionPointer := writer.lastBlockPositionPointer
    payloadPointer := writer.lastBlockPayloadPointer
    positionBufferUpto := writer.lastBlockPositionBufferUpto }

/-- The first document after a filled block buffers the block's skip point. -/
def PostingsWriter.bufferPoint (writer : PostingsWriter) : Except Error PostingsWriter :=
  if writer.lastBlockDocument ≠ -1 ∧ writer.documentDeltas = [] then do
    let skip ← writer.skip.bufferSkip writer.documentCount writer.blockPoint
    return { writer with skip }
  else .ok writer

/-- Writes out a block of documents that is full.  The buffer stays full for `finish_document`. -/
def PostingsWriter.flushDocuments (writer : PostingsWriter) : Except Error PostingsWriter :=
  if writer.documentDeltas.length = blockSize then do
    let deltas ← writeBlock writer.documentDeltas
    let frequencies ←
      (if writer.options.hasFrequencies then writeBlock writer.frequencies else .ok [])
    return { writer with documentOutput := writer.documentOutput ++ (deltas ++ frequencies) }
  else .ok writer

/-- `startDoc`. -/
def PostingsWriter.startDocument (writer : PostingsWriter) (document frequency : Int32) :
    Except Error PostingsWriter := do
  let writer ← writer.bufferPoint
  let delta := document - writer.lastDocument
  if document < 0 ∨ (0 < writer.documentCount ∧ delta ≤ 0) then
    invalid (s!"postings are written in increasing document order and {document} does not " ++
      s!"follow {writer.lastDocument}")
  else if writer.options.hasFrequencies ∧ frequency < 1 then
    invalid ("a document in the postings of a term occurs at least once, so a frequency of " ++
      s!"{frequency} cannot be encoded")
  else
    let writer ← PostingsWriter.flushDocuments { writer with
      documentDeltas := writer.documentDeltas ++ [delta]
      frequencies :=
        if writer.options.hasFrequencies then writer.frequencies ++ [frequency]
        else writer.frequencies
      frequencyTotal :=
        if writer.options.hasFrequencies then writer.frequencyTotal + frequency.toInt
        else writer.frequencyTotal
      documentCount := writer.documentCount + 1 }
    return { writer with lastDocument := document, lastPosition := 0, lastStartOffset := 0 }

/-- Writes out a block of positions that is full, and clears its buffer. -/
def PostingsWriter.flushPositions (writer : PostingsWriter) : Except Error PostingsWriter :=
  if writer.positionDeltas.length = blockSize then
    match writer.positionOutput with
    | none => invalid "a field with positions but no .pos sink"
    | some output => do
      let positions ← writeBlock writer.positionDeltas
      let writer := { writer with positionOutput := some (output ++ positions) }
      let cleared := { writer with
        positionDeltas := []
        offsetStartDeltas := []
        offsetLengths := [] }
      if writer.options.hasOffsets then
        match writer.payloadOutput with
        | none => invalid "a field with offsets but no .pay sink"
        | some output => do
          let starts ← writeBlock writer.offsetStartDeltas
          let lengths ← writeBlock writer.offsetLengths
          return { cleared with payloadOutput := some (output ++ (starts ++ lengths)) }
      else return cleared
  else .ok writer

/-- `addPosition`, without the payload. -/
def PostingsWriter.addPosition (writer : PostingsWriter)
    (position startOffset endOffset : Int32) : Except Error PostingsWriter :=
  if ¬ writer.options.hasPositions then
    invalid "a position in a field whose index options have none"
  else
    let positionDelta := position - writer.lastPosition
    if positionDelta < 0 then
      invalid (s!"positions within a document increase, and {position} does not follow " ++
        s!"{writer.lastPosition}")
    else
      let buffered := { writer with
        positionDeltas := writer.positionDeltas ++ [positionDelta]
        positionCount := writer.positionCount + 1
        lastPosition := position }
      if writer.options.hasOffsets then
        if startOffset < writer.lastStartOffset ∨ endOffset < startOffset then
          invalid (s!"offsets increase and enclose their term: {startOffset}..{endOffset} " ++
            s!"does not follow a start of {writer.lastStartOffset}")
        else
          PostingsWriter.flushPositions { buffered with
            offsetStartDeltas :=
              writer.offsetStartDeltas ++ [startOffset - writer.lastStartOffset]
            offsetLengths := writer.offsetLengths ++ [endOffset - startOffset]
            lastStartOffset := startOffset }
      else buffered.flushPositions

/-- `finishDoc`: latches where a filled block ends and only then clears its buffer. -/
def PostingsWriter.finishDocument (writer : PostingsWriter) : PostingsWriter :=
  if writer.documentDeltas.length = blockSize then
    let cleared := { writer with
      lastBlockDocument := writer.lastDocument
      documentDeltas := []
      frequencies := [] }
    match writer.positionOutput with
    | none => cleared
    | some output =>
      { cleared with
        lastBlockPayloadPointer :=
          pointerOr writer.payloadOutput writer.lastBlockPayloadPointer
        lastBlockPositionPointer := output.length
        lastBlockPositionBufferUpto := writer.positionDeltas.length }
  else writer

/-- One document of the tail of `.doc`, whose delta and frequency share a number. -/
def documentTail (options : IndexOptions) (delta frequency : Int32) : Bytes :=
  if ¬ options.hasFrequencies then writeVint delta.toInt
  else if frequency = 1 then writeVint ((delta <<< 1) ||| 1).toInt
  else writeVint (delta <<< 1).toInt ++ writeVint frequency.toInt

/-- `write_document_tail`: what a field without frequencies has in that buffer is not read. -/
def PostingsWriter.documentTails (writer : PostingsWriter) : Bytes :=
  let frequencies :=
    if writer.options.hasFrequencies then writer.frequencies
    else List.replicate writer.documentDeltas.length 0
  (writer.documentDeltas.zip frequencies).flatMap fun entry =>
    documentTail writer.options entry.1 entry.2

/-- The tail of `.pos`: a length of an offset is left out where it is the one before it. -/
def positionTails (hasOffsets : Bool) : Int32 → List (Int32 × Int32 × Int32) → Bytes
  | _, [] => []
  | lastOffsetLength, (delta, startDelta, length) :: rest =>
    writeVint delta.toInt ++
      (if ¬ hasOffsets then positionTails hasOffsets lastOffsetLength rest
      else if length = lastOffsetLength then
        writeVint (startDelta <<< 1).toInt ++ positionTails hasOffsets lastOffsetLength rest
      else
        writeVint ((startDelta <<< 1) ||| 1).toInt ++ (writeVint length.toInt ++
          positionTails hasOffsets length rest))

/-- The positions that no block took, with their offsets where the field has them. -/
def PostingsWriter.bufferedPositions (writer : PostingsWriter) : List (Int32 × Int32 × Int32) :=
  if writer.options.hasOffsets then
    writer.positionDeltas.zip (writer.offsetStartDeltas.zip writer.offsetLengths)
  else writer.positionDeltas.map fun delta => (delta, 0, 0)

/-- `finish_positions`: the tail of `.pos`, and where it begins for a term with more positions
than one block. -/
def PostingsWriter.finishPositions (writer : PostingsWriter) (totalTermFrequency : Int) :
    Except Error (Option Nat × PostingsWriter) :=
  if ¬ writer.options.hasPositions then .ok (none, writer)
  else if (writer.positionCount : Int) ≠ totalTermFrequency then
    invalid ("a field with positions records one position per occurrence, so " ++
      s!"{writer.positionCount} positions cannot belong to a term of total frequency " ++
      s!"{totalTermFrequency}")
  else
    match writer.positionOutput with
    | none => invalid "a field with positions but no .pos sink"
    | some output =>
      .ok (if (blockSize : Int) < totalTermFrequency then some (output.length - writer.positionStart)
          else none,
        { writer with
          positionOutput := some (output ++
            positionTails writer.options.hasOffsets (-1) writer.bufferedPositions) })

/-- `finishTerm`: the tails, the skip list, and the metadata of the term. -/
def PostingsWriter.finishTerm (writer : PostingsWriter) :
    Except Error (TermMetadata × PostingsWriter) := do
  if writer.documentCount = 0 then
    invalid "a term with no documents has no postings to finish"
  else
    let singletonDocument :=
      if writer.documentCount = 1 then writer.documentDeltas.head? else none
    let documentOutput :=
      if writer.documentCount = 1 then writer.documentOutput
      else writer.documentOutput ++ writer.documentTails
    let totalTermFrequency :=
      if writer.options.hasFrequencies then writer.frequencyTotal else -1
    let (lastPositionBlockOffset, writer) ←
      PostingsWriter.finishPositions { writer with documentOutput } totalTermFrequency
    let (skipPointer, documentOutput) ←
      (if blockSize < writer.documentCount then writer.skip.writeSkip writer.documentOutput
      else .ok (0, writer.documentOutput))
    return (
      { documentStart := writer.documentStart
        positionStart := writer.positionStart
        payloadStart := writer.payloadStart
        singletonDocument
        lastPositionBlockOffset
        skipOffset :=
          if blockSize < writer.documentCount then some (skipPointer - writer.documentStart)
          else none
        documentFrequency := writer.documentCount
        totalTermFrequency },
      { writer with
        documentOutput
        documentDeltas := []
        frequencies := []
        positionDeltas := []
        offsetStartDeltas := []
        offsetLengths := []
        lastDocument := 0
        documentCount := 0
        frequencyTotal := 0
        positionCount := 0 })

/-! ## A term -/

/-- One occurrence of a term. -/
structure Occurrence where
  position : Int32
  startOffset : Int32
  endOffset : Int32

/-- A document of a term with its positions. -/
structure Posting where
  document : Int32
  frequency : Int32
  positions : List Occurrence

/-- The calls for one document. -/
def PostingsWriter.writeDocument (writer : PostingsWriter) (posting : Posting) :
    Except Error PostingsWriter := do
  let writer ← writer.startDocument posting.document posting.frequency
  let writer ← posting.positions.foldlM (fun writer occurrence =>
    writer.addPosition occurrence.position occurrence.startOffset occurrence.endOffset) writer
  return writer.finishDocument

/-- The first documents of a term. -/
def PostingsWriter.writeDocuments (writer : PostingsWriter) (postings : List Posting) :
    Except Error PostingsWriter :=
  postings.foldlM PostingsWriter.writeDocument writer.startTerm

/-- The calls for one term. -/
def PostingsWriter.writeTerm (writer : PostingsWriter) (postings : List Posting) :
    Except Error (TermMetadata × PostingsWriter) := do
  let writer ← writer.writeDocuments postings
  writer.finishTerm

/-- The writers of a segment between two terms. -/
inductive Written (shape : SegmentShape) : PostingsWriter → Prop
  | opened {writer : PostingsWriter} {position payload : Bool}
      (h : PostingsWriter.new shape position payload = .ok writer) : Written shape writer
  | field {writer next : PostingsWriter} {options : IndexOptions} {count : Nat}
      (before : Written shape writer) (h : writer.setField options = .ok (count, next)) :
      Written shape next
  | term {writer next : PostingsWriter} {postings : List Posting} {metadata : TermMetadata}
      (before : Written shape writer) (h : writer.writeTerm postings = .ok (metadata, next)) :
      Written shape next

/-! ## Where the writer stands -/

/-- The last document, the lengths of the files, and the number of buffered positions. -/
def PostingsWriter.here (writer : PostingsWriter) : SkipPoint :=
  { document := writer.lastDocument.toInt
    documentPointer := writer.documentOutput.length
    positionPointer := pointerOr writer.positionOutput 0
    payloadPointer := pointerOr writer.payloadOutput 0
    positionBufferUpto := writer.positionDeltas.length }

/-- The part of a point that a field with these options records. -/
abbrev SkipPoint.recordedBy (options : IndexOptions) (point : SkipPoint) : SkipPoint :=
  point.recorded options.hasPositions options.hasOffsets

/-- Where the writer stands after so many documents of a term. -/
def pointAfter (writer : PostingsWriter) (postings : List Posting) (count : Nat) : SkipPoint :=
  match writer.writeDocuments (postings.take count) with
  | .ok reached => reached.here
  | .error _ => {}

/-- The end of so many blocks of documents of a term, as far as the term's field records it. -/
def blockBoundary (writer : PostingsWriter) (postings : List Posting) (block : Nat) : SkipPoint :=
  (pointAfter writer postings (blockSize * block)).recordedBy writer.options

/-- What no call for a document of a term changes. -/
structure Frame (before after : PostingsWriter) : Prop where
  options : after.options = before.options
  documentStart : after.documentStart = before.documentStart
  positionStart : after.positionStart = before.positionStart
  payloadStart : after.payloadStart = before.payloadStart
  positionOutput : after.positionOutput.isSome = before.positionOutput.isSome
  payloadOutput : after.payloadOutput.isSome = before.payloadOutput.isSome
  documents : before.documentOutput.length ≤ after.documentOutput.length
  positions : pointerOr before.positionOutput 0 ≤ pointerOr after.positionOutput 0
  payloads : pointerOr before.payloadOutput 0 ≤ pointerOr after.payloadOutput 0

theorem Frame.refl (writer : PostingsWriter) : Frame writer writer :=
  ⟨rfl, rfl, rfl, rfl, rfl, rfl, Nat.le_refl _, Nat.le_refl _, Nat.le_refl _⟩

variable {first second third writer start reached : PostingsWriter} {document : Int32}
  {shape : SegmentShape} {points : Nat → SkipPoint} {count length positions : Nat}
  {postings : List Posting} {metadata : TermMetadata} {frequencies : Int}

theorem Frame.trans (h : Frame first second)
    (h' : Frame second third) : Frame first third where
  options := h'.options.trans h.options
  documentStart := h'.documentStart.trans h.documentStart
  positionStart := h'.positionStart.trans h.positionStart
  payloadStart := h'.payloadStart.trans h.payloadStart
  positionOutput := h'.positionOutput.trans h.positionOutput
  payloadOutput := h'.payloadOutput.trans h.payloadOutput
  documents := Nat.le_trans h.documents h'.documents
  positions := Nat.le_trans h.positions h'.positions
  payloads := Nat.le_trans h.payloads h'.payloads

/-- What adding a position leaves as it is: everything about documents. -/
structure SameDocuments (before after : PostingsWriter) : Prop where
  documentOutput : after.documentOutput = before.documentOutput
  documentDeltas : after.documentDeltas = before.documentDeltas
  frequencies : after.frequencies = before.frequencies
  documentCount : after.documentCount = before.documentCount
  lastDocument : after.lastDocument = before.lastDocument
  lastBlockDocument : after.lastBlockDocument = before.lastBlockDocument
  skip : after.skip = before.skip

theorem SameDocuments.refl (writer : PostingsWriter) : SameDocuments writer writer :=
  ⟨rfl, rfl, rfl, rfl, rfl, rfl, rfl⟩

theorem SameDocuments.trans (h : SameDocuments first second)
    (h' : SameDocuments second third) : SameDocuments first third where
  documentOutput := h'.documentOutput.trans h.documentOutput
  documentDeltas := h'.documentDeltas.trans h.documentDeltas
  frequencies := h'.frequencies.trans h.frequencies
  documentCount := h'.documentCount.trans h.documentCount
  lastDocument := h'.lastDocument.trans h.lastDocument
  lastBlockDocument := h'.lastBlockDocument.trans h.lastBlockDocument
  skip := h'.skip.trans h.skip

/-! ## Positions -/

theorem blockSize_pos : 0 < blockSize := by decide

theorem pointerOr_some (output : Bytes) (old : Nat) : pointerOr (some output) old = output.length :=
  rfl

/-- What `flush_positions` does to a writer with at most a block of positions. -/
theorem flushPositions_spec {next : PostingsWriter}
    (h : writer.flushPositions = .ok next) (hroom : writer.positionDeltas.length ≤ blockSize) :
    Frame writer next ∧ SameDocuments writer next ∧ next.positionDeltas.length < blockSize := by
  rw [PostingsWriter.flushPositions] at h
  split at h
  next hfull =>
    cases houtput : writer.positionOutput with
    | none =>
      rw [houtput] at h
      cases h
    | some output =>
      rw [houtput] at h
      obtain ⟨positions, _, h⟩ := bind_ok_iff.mp h
      have hpositions : pointerOr writer.positionOutput 0 ≤
          pointerOr (some (output ++ positions)) 0 := by
        rw [houtput, pointerOr_some, pointerOr_some, List.length_append]
        exact Nat.le_add_right _ _
      have hsome : (some (output ++ positions)).isSome = writer.positionOutput.isSome := by
        rw [houtput]
        rfl
      dsimp only at h
      split at h
      next =>
        cases hpayload : writer.payloadOutput with
        | none =>
          rw [hpayload] at h
          cases h
        | some payload =>
          rw [hpayload] at h
          obtain ⟨starts, _, h⟩ := bind_ok_iff.mp h
          obtain ⟨lengths, _, h⟩ := bind_ok_iff.mp h
          cases h
          refine ⟨⟨rfl, rfl, rfl, rfl, hsome, ?_, Nat.le_refl _, hpositions, ?_⟩,
            ⟨rfl, rfl, rfl, rfl, rfl, rfl, rfl⟩, blockSize_pos⟩
          · rw [hpayload]
            rfl
          · rw [hpayload, pointerOr_some, pointerOr_some, List.length_append]
            exact Nat.le_add_right _ _
      next =>
        cases h
        exact ⟨⟨rfl, rfl, rfl, rfl, hsome, rfl, Nat.le_refl _, hpositions, Nat.le_refl _⟩,
          ⟨rfl, rfl, rfl, rfl, rfl, rfl, rfl⟩, blockSize_pos⟩
  next hroomLeft =>
    cases h
    exact ⟨Frame.refl _, SameDocuments.refl _, Nat.lt_of_le_of_ne hroom hroomLeft⟩

theorem addPosition_spec {next : PostingsWriter} {position startOffset endOffset : Int32}
    (h : writer.addPosition position startOffset endOffset = .ok next)
    (hroom : writer.positionDeltas.length < blockSize) :
    Frame writer next ∧ SameDocuments writer next ∧ next.positionDeltas.length < blockSize := by
  have hlength : (writer.positionDeltas ++ [position - writer.lastPosition]).length ≤
      blockSize := by
    rw [List.length_append]
    exact hroom
  rw [PostingsWriter.addPosition] at h
  split at h
  · cases h
  · dsimp only at h
    split at h
    · cases h
    · split at h
      · split at h
        · cases h
        · obtain ⟨hframe, hsame, hbuffered⟩ := flushPositions_spec h hlength
          exact ⟨⟨hframe.1, hframe.2, hframe.3, hframe.4, hframe.5, hframe.6, hframe.7,
            hframe.8, hframe.9⟩, ⟨hsame.1, hsame.2, hsame.3, hsame.4, hsame.5, hsame.6, hsame.7⟩,
            hbuffered⟩
      · obtain ⟨hframe, hsame, hbuffered⟩ := flushPositions_spec h hlength
        exact ⟨⟨hframe.1, hframe.2, hframe.3, hframe.4, hframe.5, hframe.6, hframe.7,
          hframe.8, hframe.9⟩, ⟨hsame.1, hsame.2, hsame.3, hsame.4, hsame.5, hsame.6, hsame.7⟩,
          hbuffered⟩

/-- The positions of a document. -/
theorem addPositions_spec {occurrences : List Occurrence} {next : PostingsWriter}
    (h : occurrences.foldlM (fun writer occurrence =>
      PostingsWriter.addPosition writer occurrence.position occurrence.startOffset
        occurrence.endOffset) writer = .ok next)
    (hroom : writer.positionDeltas.length < blockSize) :
    Frame writer next ∧ SameDocuments writer next ∧ next.positionDeltas.length < blockSize := by
  induction occurrences generalizing writer with
  | nil =>
    cases h
    exact ⟨Frame.refl _, SameDocuments.refl _, hroom⟩
  | cons occurrence occurrences ih =>
    obtain ⟨added, hadded, h⟩ := Except.foldlM_cons_ok_iff.mp h
    obtain ⟨hframe, hsame, hbuffered⟩ := addPosition_spec hadded hroom
    obtain ⟨hframe', hsame', hbuffered'⟩ := ih h hbuffered
    exact ⟨hframe.trans hframe', hsame.trans hsame', hbuffered'⟩

/-! ## Documents -/

/-- What the start of a document does: the skip point is buffered, the document counted. -/
structure Started (writer : PostingsWriter) (document : Int32) (skip : SkipWriter)
    (next : PostingsWriter) : Prop where
  buffered : writer.bufferPoint = .ok { writer with skip }
  nonneg : 0 ≤ document
  follows : 0 < writer.documentCount → 0 < document - writer.lastDocument
  frame : Frame writer next
  skip : next.skip = skip
  documentDeltas : next.documentDeltas.length = writer.documentDeltas.length + 1
  documentCount : next.documentCount = writer.documentCount + 1
  lastDocument : next.lastDocument = document
  lastBlockDocument : next.lastBlockDocument = writer.lastBlockDocument
  positionDeltas : next.positionDeltas = writer.positionDeltas

theorem bufferPoint_eq {buffered : PostingsWriter} (h : writer.bufferPoint = .ok buffered) :
    ∃ skip, buffered = { writer with skip } := by
  rw [PostingsWriter.bufferPoint] at h
  split at h
  · obtain ⟨skip, _, h⟩ := bind_ok_iff.mp h
    cases h
    exact ⟨skip, rfl⟩
  · cases h
    exact ⟨writer.skip, rfl⟩

/-- A full block of documents only adds to `.doc`. -/
theorem flushDocuments_eq {next : PostingsWriter} (h : writer.flushDocuments = .ok next) :
    ∃ bytes, next = { writer with documentOutput := writer.documentOutput ++ bytes } := by
  rw [PostingsWriter.flushDocuments] at h
  split at h
  · obtain ⟨deltas, _, h⟩ := bind_ok_iff.mp h
    obtain ⟨frequencies, _, h⟩ := bind_ok_iff.mp h
    cases h
    exact ⟨deltas ++ frequencies, rfl⟩
  · cases h
    exact ⟨[], by rw [List.append_nil]⟩

theorem startDocument_spec {next : PostingsWriter} {frequency : Int32}
    (h : writer.startDocument document frequency = .ok next) :
    ∃ skip, Started writer document skip next := by
  rw [PostingsWriter.startDocument] at h
  obtain ⟨buffered, hbuffered, h⟩ := bind_ok_iff.mp h
  obtain ⟨skip, rfl⟩ := bufferPoint_eq hbuffered
  dsimp only at h
  split at h
  · cases h
  next haccepted =>
    obtain ⟨hnonneg, hfollows⟩ := not_or.mp haccepted
    split at h
    · cases h
    · obtain ⟨flushed, hflushed, h⟩ := bind_ok_iff.mp h
      obtain ⟨bytes, rfl⟩ := flushDocuments_eq hflushed
      cases h
      refine ⟨skip, hbuffered, Int32.not_lt.mp hnonneg, fun hpos => ?_, ?_, rfl,
        List.length_append, rfl, rfl, rfl, rfl⟩
      · exact Int32.not_le.mp fun hle => hfollows ⟨hpos, hle⟩
      · refine ⟨rfl, rfl, rfl, rfl, rfl, rfl, ?_, Nat.le_refl _, Nat.le_refl _⟩
        exact List.length_append ▸ Nat.le_add_right _ _

/-- A document that follows the one before it, in numbers. -/
theorem lt_of_pos_sub {last : Int32} (hlast : 0 ≤ last.toInt)
    (hdocument : 0 ≤ document.toInt) (h : 0 < document - last) : last.toInt < document.toInt := by
  have hhigh := document.toInt_lt
  have hlastHigh := last.toInt_lt
  have hdelta := Int32.lt_iff_toInt_lt.mp h
  rw [Int32.toInt_sub, Int.bmod] at hdelta
  have hzero : (0 : Int32).toInt = 0 := rfl
  rw [hzero] at hdelta
  omega

/-- What the end of a document does. -/
theorem finishDocument_of_full (h : writer.documentDeltas.length = blockSize) :
    Frame writer writer.finishDocument ∧ writer.finishDocument.documentDeltas = [] ∧
      writer.finishDocument.lastBlockDocument = writer.lastDocument ∧
      writer.finishDocument.lastDocument = writer.lastDocument ∧
      writer.finishDocument.documentCount = writer.documentCount ∧
      writer.finishDocument.skip = writer.skip ∧
      writer.finishDocument.positionDeltas = writer.positionDeltas ∧
      ((writer.options.hasPositions = true → writer.positionOutput.isSome = true) →
        (writer.options.hasOffsets = true → writer.payloadOutput.isSome = true) →
        writer.finishDocument.blockPoint.recordedBy writer.options =
          writer.finishDocument.here.recordedBy writer.options) := by
  rw [PostingsWriter.finishDocument, if_pos h]
  cases houtput : writer.positionOutput with
  | none =>
    have hsame := congrArg (pointerOr · 0) houtput
    have hsome := congrArg Option.isSome houtput
    refine ⟨⟨rfl, rfl, rfl, rfl, hsome.symm, rfl, Nat.le_refl _, Nat.le_of_eq hsame,
      Nat.le_refl _⟩, rfl, rfl, rfl, rfl, rfl, rfl, fun hpositions _ => ?_⟩
    cases hoptions : writer.options.hasPositions with
    | false =>
      simp only [SkipPoint.recordedBy, SkipPoint.recorded, hoptions, Bool.false_and,
        Bool.false_eq_true, if_false, PostingsWriter.blockPoint, PostingsWriter.here]
    | true => exact absurd (hpositions hoptions) (by rintro ⟨⟩)
  | some output =>
    have hsame := congrArg (pointerOr · 0) houtput
    have hsome := congrArg Option.isSome houtput
    refine ⟨⟨rfl, rfl, rfl, rfl, hsome.symm, rfl, Nat.le_refl _, Nat.le_of_eq hsame,
      Nat.le_refl _⟩, rfl, rfl, rfl, rfl, rfl, rfl, fun _ hpayloads => ?_⟩
    cases hoffsets : writer.options.hasOffsets with
    | false =>
      simp only [SkipPoint.recordedBy, SkipPoint.recorded, hoffsets, Bool.and_false,
        Bool.false_eq_true, if_false, PostingsWriter.blockPoint, PostingsWriter.here,
        pointerOr_some]
    | true =>
      obtain ⟨payload, hpayload⟩ := Option.isSome_iff_exists.mp (hpayloads hoffsets)
      simp only [SkipPoint.recordedBy, SkipPoint.recorded, hpayload, pointerOr_some,
        PostingsWriter.blockPoint, PostingsWriter.here]

theorem finishDocument_of_not_full
    (h : writer.documentDeltas.length ≠ blockSize) : writer.finishDocument = writer :=
  if_neg h

/-! ## Inside a term -/

/-- The writer after so many documents of a term, whose blocks end at the given points. -/
structure InTerm (shape : SegmentShape) (start : PostingsWriter) (points : Nat → SkipPoint)
    (count : Nat) (writer : PostingsWriter) : Prop where
  frame : Frame start writer
  documentDeltas : writer.documentDeltas.length = count % blockSize
  positionDeltas : writer.positionDeltas.length < blockSize
  documentCount : writer.documentCount = count
  levelCount : writer.skip.levelCount = skipLevelCount shape.documentCount
  hasPositions : writer.skip.hasPositions = writer.options.hasPositions
  hasOffsets : writer.skip.hasOffsets = writer.options.hasOffsets
  positionOutput : writer.options.hasPositions = true → writer.positionOutput.isSome = true
  payloadOutput : writer.options.hasOffsets = true → writer.payloadOutput.isSome = true
  lastDocument : 0 ≤ writer.lastDocument.toInt
  fresh : count = 0 → writer.lastDocument = 0
  counted : (count : Int) ≤ writer.lastDocument.toInt + 1
  lastBlock : writer.lastBlockDocument ≠ -1 ↔ blockSize ≤ count
  point : blockSize ≤ count → count % blockSize = 0 →
    writer.blockPoint.recordedBy writer.options = points (count / blockSize)
  skip : writer.skip.Holds points ((count - 1) / blockSize)

/-- The skip list has the points of all blocks that a document follows. -/
theorem InTerm.bufferPoint (h : InTerm shape start points count writer) :
    ∃ skip, writer.bufferPoint = .ok { writer with skip } ∧
      skip.Holds points (count / blockSize) ∧ skip.levelCount = writer.skip.levelCount ∧
      skip.hasPositions = writer.skip.hasPositions ∧ skip.hasOffsets = writer.skip.hasOffsets := by
  have hdeltas := h.documentDeltas
  by_cases hfilled : blockSize ≤ count ∧ count % blockSize = 0
  · obtain ⟨hblock, hmod⟩ := hfilled
    have hnil : writer.documentDeltas = [] := List.length_eq_zero_iff.mp (hdeltas.trans hmod)
    have hlevels : 0 < writer.skip.levelCount := by
      rw [h.levelCount, skipLevelCount]
      simp only [maximumSkipLevels]
      split <;> omega
    have hnext : (count - 1) / blockSize + 1 = count / blockSize := by
      simp only [blockSize] at hblock hmod ⊢
      omega
    have hcount : writer.documentCount = blockSize * ((count - 1) / blockSize + 1) := by
      rw [h.documentCount, hnext, Nat.mul_div_cancel' (Nat.dvd_of_mod_eq_zero hmod)]
    have hpoint : writer.blockPoint.recorded writer.skip.hasPositions writer.skip.hasOffsets =
        points ((count - 1) / blockSize + 1) := by
      rw [h.hasPositions, h.hasOffsets, hnext]
      exact h.point hblock hmod
    obtain ⟨levels, hwritten, hholds⟩ := h.skip.bufferSkip hlevels hpoint
    refine ⟨{ writer.skip with levels }, ?_, hnext ▸ hholds, rfl, rfl, rfl⟩
    rw [PostingsWriter.bufferPoint, if_pos ⟨h.lastBlock.mpr hblock, hnil⟩, hcount]
    exact bind_ok_iff.mpr ⟨_, hwritten, rfl⟩
  · have hsame : count / blockSize = (count - 1) / blockSize := by
      simp only [blockSize] at hfilled ⊢
      omega
    refine ⟨writer.skip, if_neg fun hbuffer => hfilled ?_, hsame ▸ h.skip, rfl, rfl, rfl⟩
    obtain ⟨hlast, hnil⟩ := hbuffer
    rw [hnil] at hdeltas
    exact ⟨h.lastBlock.mp hlast, hdeltas.symm⟩

/-- One more document.  Where it fills a block, the block ends where the writer stands. -/
theorem InTerm.writeDocument {next : PostingsWriter} {posting : Posting}
    (h : InTerm shape start points count writer) (hwritten : writer.writeDocument posting = .ok next)
    (hpoint : (count + 1) % blockSize = 0 →
      points ((count + 1) / blockSize) = next.here.recordedBy start.options) :
    InTerm shape start points (count + 1) next ∧ Frame writer next ∧
      writer.lastDocument.toInt ≤ next.lastDocument.toInt ∧
      next.lastDocument = posting.document := by
  rw [PostingsWriter.writeDocument] at hwritten
  obtain ⟨started, hstarted, hwritten⟩ := bind_ok_iff.mp hwritten
  obtain ⟨positioned, hpositioned, hwritten⟩ := bind_ok_iff.mp hwritten
  cases hwritten
  obtain ⟨skip, hskip⟩ := startDocument_spec hstarted
  obtain ⟨skip', hbuffered, hholds, hlevelCount, hskipPositions, hskipOffsets⟩ := h.bufferPoint
  rw [hskip.buffered] at hbuffered
  have hsame : skip = skip' := congrArg PostingsWriter.skip (Except.ok.inj hbuffered)
  subst hsame
  obtain ⟨hframePositions, hdocuments, hroom⟩ := addPositions_spec hpositioned
    (hskip.positionDeltas ▸ h.positionDeltas)
  have hframe := hskip.frame.trans hframePositions
  have hnonneg : 0 ≤ posting.document.toInt := Int32.le_iff_toInt_le.mp hskip.nonneg
  have hlast : positioned.lastDocument = posting.document :=
    hdocuments.lastDocument.trans hskip.lastDocument
  have hfollows : 0 < count → writer.lastDocument.toInt < posting.document.toInt := by
    intro hpos
    exact lt_of_pos_sub h.lastDocument hnonneg (hskip.follows (h.documentCount ▸ hpos))
  have hgrows : writer.lastDocument.toInt ≤ posting.document.toInt := by
    cases Nat.eq_zero_or_pos count with
    | inl hzero =>
      rw [h.fresh hzero]
      exact hnonneg
    | inr hpos => exact Int.le_of_lt (hfollows hpos)
  have hcounted : ((count + 1 : Nat) : Int) ≤ posting.document.toInt + 1 := by
    have hbefore := h.counted
    cases count with
    | zero => omega
    | succ count =>
      have hlt := hfollows (Nat.succ_pos count)
      omega
  have hlength : positioned.documentDeltas.length = count % blockSize + 1 := by
    rw [hdocuments.documentDeltas, hskip.documentDeltas, h.documentDeltas]
  have hlastBlock : positioned.lastBlockDocument = writer.lastBlockDocument :=
    hdocuments.lastBlockDocument.trans hskip.lastBlockDocument
  have hskipEq : positioned.skip = skip := hdocuments.skip.trans hskip.skip
  have hcountEq : positioned.documentCount = count + 1 := by
    rw [hdocuments.documentCount, hskip.documentCount, h.documentCount]
  have hoptions := hframe.options
  have hlevels : positioned.skip.levelCount = skipLevelCount shape.documentCount := by
    rw [hskipEq, hlevelCount, h.levelCount]
  have hpositions : positioned.skip.hasPositions = positioned.options.hasPositions := by
    rw [hskipEq, hskipPositions, h.hasPositions, hoptions]
  have hoffsets : positioned.skip.hasOffsets = positioned.options.hasOffsets := by
    rw [hskipEq, hskipOffsets, h.hasOffsets, hoptions]
  have hpositionOutput : positioned.options.hasPositions = true →
      positioned.positionOutput.isSome = true := by
    rw [hoptions, hframe.positionOutput]
    exact h.positionOutput
  have hpayloadOutput : positioned.options.hasOffsets = true →
      positioned.payloadOutput.isSome = true := by
    rw [hoptions, hframe.payloadOutput]
    exact h.payloadOutput
  by_cases hfull : positioned.documentDeltas.length = blockSize
  · obtain ⟨hfinish, hcleared, hfilled, hlast', hcount', hskip', hpositionDeltas, hblockPoint⟩ :=
      finishDocument_of_full hfull
    have hmod : (count + 1) % blockSize = 0 := by
      rw [hlength] at hfull
      simp only [blockSize] at hfull ⊢
      omega
    have hpointOptions := hfinish.options.trans hoptions
    refine ⟨?_, hframe.trans hfinish, ?_, hlast'.trans hlast⟩
    · constructor
      case frame => exact (h.frame.trans hframe).trans hfinish
      case documentDeltas => rw [hcleared, hmod]; rfl
      case positionDeltas => rw [hpositionDeltas]; exact hroom
      case documentCount => exact hcount'.trans hcountEq
      case levelCount => rw [hskip']; exact hlevels
      case hasPositions => rw [hskip', hfinish.options]; exact hpositions
      case hasOffsets => rw [hskip', hfinish.options]; exact hoffsets
      case positionOutput =>
        rw [hfinish.options, hfinish.positionOutput]
        exact hpositionOutput
      case payloadOutput =>
        rw [hfinish.options, hfinish.payloadOutput]
        exact hpayloadOutput
      case lastDocument => rw [hlast', hlast]; exact hnonneg
      case fresh => exact (by rintro ⟨⟩)
      case counted => rw [hlast', hlast]; exact hcounted
      case lastBlock =>
        refine iff_of_true (fun heq => ?_) ?_
        · rw [hfilled, hlast] at heq
          rw [heq] at hnonneg
          exact absurd hnonneg (by decide)
        · rw [hlength] at hfull
          have hle := Nat.mod_le count blockSize
          omega
      case point =>
        intro _ _
        rw [hpoint hmod, hfinish.options, hblockPoint hpositionOutput hpayloadOutput, hoptions,
          h.frame.options]
      case skip =>
        rw [hskip', hskipEq]
        exact hholds
    · rw [hlast', hlast]
      exact hgrows
  · rw [finishDocument_of_not_full hfull]
    rw [hlength] at hfull
    have hmod : (count + 1) % blockSize = count % blockSize + 1 := by
      simp only [blockSize] at hfull ⊢
      omega
    refine ⟨?_, hframe, ?_, hlast⟩
    · constructor
      case frame => exact h.frame.trans hframe
      case documentDeltas => rw [hlength, hmod]
      case positionDeltas => exact hroom
      case documentCount => exact hcountEq
      case levelCount => exact hlevels
      case hasPositions => exact hpositions
      case hasOffsets => exact hoffsets
      case positionOutput => exact hpositionOutput
      case payloadOutput => exact hpayloadOutput
      case lastDocument => rw [hlast]; exact hnonneg
      case fresh => exact (by rintro ⟨⟩)
      case counted => rw [hlast]; exact hcounted
      case lastBlock =>
        rw [hlastBlock, h.lastBlock]
        simp only [blockSize] at hfull ⊢
        omega
      case point =>
        intro _ hzero
        rw [hmod] at hzero
        exact absurd hzero (Nat.succ_ne_zero _)
      case skip =>
        rw [hskipEq]
        exact hholds
    · rw [hlast]
      exact hgrows

/-! ## Between terms -/

/-- A writer that has no term at hand. -/
structure Idle (shape : SegmentShape) (writer : PostingsWriter) : Prop where
  documentDeltas : writer.documentDeltas = []
  positionDeltas : writer.positionDeltas = []
  documentCount : writer.documentCount = 0
  levelCount : writer.skip.levelCount = skipLevelCount shape.documentCount
  levels : writer.skip.levels.length = writer.skip.levelCount
  hasPositions : writer.skip.hasPositions = writer.options.hasPositions
  hasOffsets : writer.skip.hasOffsets = writer.options.hasOffsets
  positionOutput : writer.options.hasPositions = true → writer.positionOutput.isSome = true
  payloadOutput : writer.options.hasOffsets = true → writer.payloadOutput.isSome = true

/-- Where a term starts, as its field records it. -/
def PostingsWriter.startPoint (writer : PostingsWriter) : SkipPoint :=
  SkipPoint.recordedBy writer.options
    ⟨0, writer.documentStart, writer.positionStart, writer.payloadStart, 0⟩

theorem Idle.startPoint (h : Idle shape writer) :
    writer.startTerm.here.recordedBy writer.options = writer.startTerm.startPoint := by
  have hnil := h.positionDeltas
  cases hpositions : writer.options.hasPositions with
  | false =>
    simp only [PostingsWriter.startPoint, SkipPoint.recordedBy, SkipPoint.recorded,
      PostingsWriter.startTerm, PostingsWriter.here, hpositions, Bool.false_and,
      Bool.false_eq_true, if_false]
    rfl
  | true =>
    obtain ⟨output, houtput⟩ := Option.isSome_iff_exists.mp (h.positionOutput hpositions)
    cases hoffsets : writer.options.hasOffsets with
    | false =>
      simp only [PostingsWriter.startPoint, SkipPoint.recordedBy, SkipPoint.recorded,
        PostingsWriter.startTerm, PostingsWriter.here, hpositions, hoffsets, houtput, hnil,
        Bool.and_false, Bool.false_eq_true, if_false, if_true, pointerOr_some]
      rfl
    | true =>
      obtain ⟨payload, hpayload⟩ := Option.isSome_iff_exists.mp (h.payloadOutput hoffsets)
      simp only [PostingsWriter.startPoint, SkipPoint.recordedBy, SkipPoint.recorded,
        PostingsWriter.startTerm, PostingsWriter.here, hpositions, hoffsets, houtput, hpayload,
        hnil, Bool.and_self, if_true, pointerOr_some]
      rfl

theorem Idle.startTerm
    (h : Idle shape writer) (hpoint : points 0 = writer.startTerm.startPoint) :
    InTerm shape writer.startTerm points 0 writer.startTerm where
  frame := Frame.refl _
  documentDeltas := congrArg List.length h.documentDeltas
  positionDeltas := by
    rw [PostingsWriter.startTerm, h.positionDeltas]
    exact blockSize_pos
  documentCount := h.documentCount
  levelCount := h.levelCount
  hasPositions := h.hasPositions
  hasOffsets := h.hasOffsets
  positionOutput := h.positionOutput
  payloadOutput := h.payloadOutput
  lastDocument := (by decide : 0 ≤ (0 : Int32).toInt)
  fresh := fun _ => rfl
  counted := (by decide : ((0 : Nat) : Int) ≤ (0 : Int32).toInt + 1)
  lastBlock := iff_of_false (fun hne => hne rfl) (by decide)
  point := fun hblock => absurd hblock (by decide)
  skip := by
    refine SkipWriter.reset_holds h.levels ?_
    rw [hpoint, h.hasPositions, h.hasOffsets]
    rfl

theorem writeDocuments_succ (hcount : count < postings.length) {next : PostingsWriter} :
    writer.writeDocuments (postings.take (count + 1)) = .ok next ↔
      ∃ reached, writer.writeDocuments (postings.take count) = .ok reached ∧
        reached.writeDocument (postings.get ⟨count, hcount⟩) = .ok next := by
  rw [← List.take_concat_get' postings count hcount, PostingsWriter.writeDocuments,
    List.foldlM_append]
  refine bind_ok_iff.trans ?_
  simp only [List.foldlM_cons, List.foldlM_nil, bind_pure]
  rfl

/-- What holds after every document of a term. -/
theorem Idle.writeDocuments (h : Idle shape writer) (hcount : count ≤ postings.length)
    (hreached : writer.writeDocuments (postings.take count) = .ok reached) :
    InTerm shape writer.startTerm (blockBoundary writer postings) count reached := by
  induction count generalizing reached with
  | zero =>
    cases hreached
    exact h.startTerm h.startPoint
  | succ count ih =>
    obtain ⟨before, hbefore, hwritten⟩ := (writeDocuments_succ hcount).mp hreached
    refine ((ih (Nat.le_of_succ_le hcount) hbefore).writeDocument hwritten fun hmod => ?_).1
    rw [blockBoundary, Nat.mul_div_cancel' (Nat.dvd_of_mod_eq_zero hmod), pointAfter, hreached]
    rfl

/-- Of two places in a term, the later one is further on in every file. -/
theorem Idle.between {last : PostingsWriter} {earlier later : Nat} (h : Idle shape writer)
    (hle : earlier ≤ later) (hlater : later ≤ postings.length)
    (hlast : writer.writeDocuments (postings.take later) = .ok last) :
    ∃ first, writer.writeDocuments (postings.take earlier) = .ok first ∧ Frame first last ∧
      first.lastDocument.toInt ≤ last.lastDocument.toInt := by
  induction hle generalizing last with
  | refl => exact ⟨last, hlast, Frame.refl last, Int.le_refl _⟩
  | @step later hle ih =>
    obtain ⟨before, hbefore, hwritten⟩ := (writeDocuments_succ hlater).mp hlast
    obtain ⟨first, hfirst, hframe, hdocument⟩ := ih (Nat.le_of_succ_le hlater) hbefore
    have hinvariant := h.writeDocuments (Nat.le_of_succ_le hlater) hbefore
    obtain ⟨_, hstep, hgrows, _⟩ := hinvariant.writeDocument hwritten fun hmod => by
      rw [blockBoundary, Nat.mul_div_cancel' (Nat.dvd_of_mod_eq_zero hmod), pointAfter, hlast]
      rfl
    exact ⟨first, hfirst, hframe.trans hstep, Int.le_trans hdocument hgrows⟩

/-! ## The end of a term -/

/-- What the end of a term does, told from the writer after its last document. -/
structure Finished (reached : PostingsWriter) (metadata : TermMetadata) (next : PostingsWriter) :
    Prop where
  documentStart : metadata.documentStart = reached.documentStart
  positionStart : metadata.positionStart = reached.positionStart
  payloadStart : metadata.payloadStart = reached.payloadStart
  documentFrequency : metadata.documentFrequency = reached.documentCount
  options : next.options = reached.options
  skip : next.skip = reached.skip
  documentDeltas : next.documentDeltas = []
  positionDeltas : next.positionDeltas = []
  documentCount : next.documentCount = 0
  positionOutput : next.positionOutput.isSome = reached.positionOutput.isSome
  payloadOutput : next.payloadOutput.isSome = reached.payloadOutput.isSome
  shortTerm : reached.documentCount ≤ blockSize → metadata.skipOffset = none
  longTerm : blockSize < reached.documentCount → ∃ tails pointer,
    reached.skip.writeSkip (reached.documentOutput ++ tails) = .ok (pointer, next.documentOutput) ∧
      metadata.skipOffset = some (pointer - reached.documentStart)

theorem finishPositions_spec {next : PostingsWriter} {totalTermFrequency : Int}
    {offset : Option Nat} (h : writer.finishPositions totalTermFrequency = .ok (offset, next)) :
    ∃ positionOutput, next = { writer with positionOutput } ∧
      positionOutput.isSome = writer.positionOutput.isSome := by
  rw [PostingsWriter.finishPositions] at h
  split at h
  · cases h
    exact ⟨writer.positionOutput, rfl, rfl⟩
  · split at h
    · cases h
    · cases houtput : writer.positionOutput with
      | none =>
        rw [houtput] at h
        cases h
      | some output =>
        rw [houtput] at h
        cases h
        exact ⟨_, rfl, rfl⟩

theorem finishTerm_spec {next : PostingsWriter}
    (h : writer.finishTerm = .ok (metadata, next)) : Finished writer metadata next := by
  rw [PostingsWriter.finishTerm] at h
  split at h
  · cases h
  · obtain ⟨⟨offset, positioned⟩, hpositioned, h⟩ := bind_ok_iff.mp h
    obtain ⟨positionOutput, rfl, hsome⟩ := finishPositions_spec hpositioned
    obtain ⟨⟨pointer, documentOutput⟩, hskip, h⟩ := bind_ok_iff.mp h
    cases h
    refine ⟨rfl, rfl, rfl, rfl, rfl, rfl, rfl, rfl, rfl, hsome, rfl, fun hshort => ?_,
      fun hlong => ?_⟩
    · exact if_neg (Nat.not_lt.mpr hshort)
    · dsimp only at hskip
      rw [if_pos hlong] at hskip
      refine ⟨if writer.documentCount = 1 then [] else writer.documentTails, pointer, ?_,
        if_pos hlong⟩
      have hsingle : writer.documentCount ≠ 1 := by
        simp only [blockSize] at hlong
        omega
      rw [if_neg hsingle] at hskip ⊢
      exact hskip

theorem Idle.next {next : PostingsWriter} (h : Idle shape writer)
    (hterm : writer.writeTerm postings = .ok (metadata, next)) : Idle shape next := by
  obtain ⟨reached, hreached, hfinished⟩ := bind_ok_iff.mp hterm
  have hend := finishTerm_spec hfinished
  have hall : writer.writeDocuments (postings.take postings.length) = .ok reached := by
    rw [List.take_length]
    exact hreached
  have hterm := h.writeDocuments (Nat.le_refl _) hall
  refine ⟨hend.documentDeltas, hend.positionDeltas, hend.documentCount, ?_, ?_, ?_, ?_, ?_, ?_⟩
  · rw [hend.skip, hterm.levelCount]
  · rw [hend.skip, ← hterm.skip.length_eq, List.length_range]
  · rw [hend.skip, hend.options, hterm.hasPositions]
  · rw [hend.skip, hend.options, hterm.hasOffsets]
  · rw [hend.options, hend.positionOutput]
    exact hterm.positionOutput
  · rw [hend.options, hend.payloadOutput]
    exact hterm.payloadOutput

/-- Between its terms a segment's writer is idle. -/
theorem Written.idle (h : Written shape writer) :
    Idle shape writer := by
  induction h with
  | opened hopened =>
    rw [PostingsWriter.new] at hopened
    split at hopened
    · cases hopened
    · split at hopened
      · cases hopened
      · split at hopened
        · cases hopened
        · obtain ⟨document, _, hopened⟩ := bind_ok_iff.mp hopened
          obtain ⟨positionHeader, _, hopened⟩ := bind_ok_iff.mp hopened
          obtain ⟨payloadHeader, _, hopened⟩ := bind_ok_iff.mp hopened
          cases hopened
          exact ⟨rfl, rfl, rfl, rfl, List.length_replicate, rfl, rfl, nofun, nofun⟩
  | @field writer next options count _ hfield ih =>
    rw [PostingsWriter.setField] at hfield
    split at hfield
    · cases hfield
    next hpositions =>
      split at hfield
      · cases hfield
      next hoffsets =>
        cases hfield
        refine ⟨ih.documentDeltas, ih.positionDeltas, ih.documentCount, ih.levelCount, ih.levels,
          rfl, rfl, fun hhas => ?_, fun hhas => ?_⟩
        · have hsome := fun hnone => hpositions ⟨hhas, hnone⟩
          exact Option.isSome_iff_ne_none.mpr fun hnone => hsome (Option.isNone_iff_eq_none.mpr hnone)
        · have hsome := fun hnone => hoffsets ⟨hhas, hnone⟩
          exact Option.isSome_iff_ne_none.mpr fun hnone => hsome (Option.isNone_iff_eq_none.mpr hnone)
  | term _ hterm ih => exact ih.next hterm

/-! ## Terms of repeated positions -/

theorem bitsRequired_le_word (value : UInt64) : bitsRequired value ≤ 64 :=
  bitsRequired_le (by decide) value.toNat_lt

theorem writeBlock_ok (values : List Int32) : ∃ block, writeBlock values = .ok block := by
  rw [writeBlock]
  dsimp only
  split
  · exact ⟨_, rfl⟩
  · obtain ⟨bytes, hbytes, _⟩ := writePacked_spec
      (values.map fun value => value.toUInt32.toUInt64) (bitsRequired_pos _)
      (bitsRequired_le_word _)
    rw [hbytes, ok_bind_eq]
    exact ⟨_, rfl⟩

theorem flushDocuments_ok (writer : PostingsWriter) :
    ∃ next, writer.flushDocuments = .ok next := by
  rw [PostingsWriter.flushDocuments]
  split
  · obtain ⟨deltas, hdeltas⟩ := writeBlock_ok writer.documentDeltas
    obtain ⟨frequencies, hfrequencies⟩ : ∃ frequencies,
        (if writer.options.hasFrequencies then writeBlock writer.frequencies else .ok []) =
          (.ok frequencies : Except Error Bytes) := by
      split
      · exact writeBlock_ok writer.frequencies
      · exact ⟨[], rfl⟩
    rw [hdeltas, ok_bind_eq, hfrequencies, ok_bind_eq]
    exact ⟨_, rfl⟩
  · exact ⟨writer, rfl⟩

/-- A document that occurs at its first position only, so many blocks of times. -/
def repeated (blocks : Nat) (document : Int32) : Posting :=
  { document
    frequency := Int32.ofNat (blockSize * blocks)
    positions := List.replicate (blockSize * blocks) ⟨0, 0, 0⟩ }

/-- What is counted of positions: the length of `.pos` and the numbers of occurrences. -/
structure Counted (writer : PostingsWriter) (length positions : Nat) (frequencies : Int) : Prop where
  options : writer.options = .documentsAndFrequenciesAndPositions
  positionOutput : ∃ output, writer.positionOutput = some output ∧ output.length = length
  positionCount : writer.positionCount = positions
  frequencyTotal : writer.frequencyTotal = frequencies

section

variable (h : Counted writer length positions frequencies)
include h

/-- A position at zero takes room in `.pos` once a block of them is full. -/
theorem Counted.addPosition {buffered : Nat} (hlast : writer.lastPosition = 0)
    (hdeltas : writer.positionDeltas = List.replicate buffered 0) (hroom : buffered < blockSize) :
    ∃ next, writer.addPosition 0 0 0 = .ok next ∧ next.lastPosition = 0 ∧
      next.positionDeltas = List.replicate ((buffered + 1) % blockSize) 0 ∧
      Counted next (length + 2 * ((buffered + 1) / blockSize)) (positions + 1) frequencies := by
  have hoptions := h.options
  obtain ⟨output, houtput, hlength⟩ := h.positionOutput
  have hzero : (0 : Int32) - writer.lastPosition = 0 := by
    rw [hlast]
    rfl
  have hnext : writer.positionDeltas ++ [(0 : Int32)] = List.replicate (buffered + 1) 0 := by
    rw [hdeltas, List.replicate_succ']
  rw [PostingsWriter.addPosition, hoptions, if_neg (by decide), hzero]
  dsimp only
  rw [if_neg (by decide), if_neg (by decide), hnext, PostingsWriter.flushPositions]
  dsimp only
  rw [List.length_replicate]
  cases Nat.lt_or_ge (buffered + 1) blockSize with
  | inl hlt =>
    rw [if_neg (Nat.ne_of_lt hlt), Nat.mod_eq_of_lt hlt, Nat.div_eq_of_lt hlt]
    exact ⟨_, rfl, rfl, rfl, rfl, ⟨output, houtput, hlength⟩,
      congrArg Nat.succ h.positionCount, h.frequencyTotal⟩
  | inr hge =>
    have hfull : buffered + 1 = blockSize := Nat.le_antisymm hroom hge
    have hblock : writeBlock (List.replicate blockSize 0) = .ok [0, 0] := by decide +kernel
    rw [if_pos hfull, hfull, houtput, hblock]
    dsimp only
    rw [ok_bind_eq, if_neg (by decide)]
    refine ⟨_, rfl, rfl, rfl, rfl, ⟨output ++ [0, 0], rfl, ?_⟩,
      congrArg Nat.succ h.positionCount, h.frequencyTotal⟩
    rw [List.length_append, hlength]
    rfl

/-- So many positions at zero. -/
theorem Counted.addPositions
    (hlast : writer.lastPosition = 0) (hdeltas : writer.positionDeltas = []) (count : Nat) :
    ∃ next, (List.replicate count (⟨0, 0, 0⟩ : Occurrence)).foldlM (fun writer occurrence =>
        PostingsWriter.addPosition writer occurrence.position occurrence.startOffset
          occurrence.endOffset) writer = .ok next ∧ next.lastPosition = 0 ∧
      next.positionDeltas = List.replicate (count % blockSize) 0 ∧
      Counted next (length + 2 * (count / blockSize)) (positions + count) frequencies := by
  induction count with
  | zero => exact ⟨writer, rfl, hlast, hdeltas, h⟩
  | succ count ih =>
    obtain ⟨before, hbefore, hlastBefore, hdeltasBefore, hcounted⟩ := ih
    obtain ⟨next, hnext, hlastNext, hdeltasNext, hcountedNext⟩ :=
      hcounted.addPosition hlastBefore hdeltasBefore (Nat.mod_lt _ blockSize_pos)
    have hmod : (count % blockSize + 1) % blockSize = (count + 1) % blockSize := by
      rw [Nat.mod_add_mod]
    have hdiv : length + 2 * (count / blockSize) + 2 * ((count % blockSize + 1) / blockSize) =
        length + 2 * ((count + 1) / blockSize) := by
      simp only [blockSize]
      omega
    rw [hmod] at hdeltasNext
    rw [hdiv] at hcountedNext
    refine ⟨next, ?_, hlastNext, hdeltasNext, hcountedNext⟩
    rw [List.replicate_succ', List.foldlM_append]
    refine bind_ok_iff.mpr ⟨before, hbefore, ?_⟩
    exact Except.foldlM_cons_ok_iff.mpr ⟨next, hnext, rfl⟩

theorem Counted.finishDocument :
    Counted writer.finishDocument length positions frequencies := by
  obtain ⟨output, houtput, hlength⟩ := h.positionOutput
  rw [PostingsWriter.finishDocument]
  split
  · rw [houtput]
    exact ⟨h.options, ⟨output, rfl, hlength⟩, h.positionCount, h.frequencyTotal⟩
  · exact h

/-- A document of repeated positions is accepted, and `.pos` grows by two bytes for a block. -/
theorem Counted.writeDocument {blocks : Nat}
    (hterm : InTerm shape start points count writer) (hempty : writer.positionDeltas = [])
    (hnonneg : 0 ≤ document) (hfollows : 0 < count → 0 < document - writer.lastDocument)
    (hoccurs : 1 ≤ Int32.ofNat (blockSize * blocks)) :
    ∃ next, writer.writeDocument (repeated blocks document) = .ok next ∧
      next.positionDeltas = [] ∧
      Counted next (length + 2 * blocks) (positions + blockSize * blocks)
        (frequencies + (Int32.ofNat (blockSize * blocks)).toInt) := by
  obtain ⟨skip, hbuffered, _⟩ := hterm.bufferPoint
  have haccepted : ¬ (document < 0 ∨
      (0 < writer.documentCount ∧ document - writer.lastDocument ≤ 0)) := by
    rintro (hneg | ⟨hpos, hle⟩)
    · exact Int32.not_lt.mpr hnonneg hneg
    · exact Int32.not_lt.mpr hle (hfollows (hterm.documentCount ▸ hpos))
  have hfrequencies : writer.options.hasFrequencies = true := by
    rw [h.options]
    rfl
  obtain ⟨started, hstarted, hlast, hdeltas, hcounted⟩ : ∃ started,
      writer.startDocument document (Int32.ofNat (blockSize * blocks)) = .ok started ∧
        started.lastPosition = 0 ∧ started.positionDeltas = [] ∧
        Counted started length positions
          (frequencies + (Int32.ofNat (blockSize * blocks)).toInt) := by
    rw [PostingsWriter.startDocument, hbuffered, ok_bind_eq]
    dsimp only
    rw [if_neg haccepted, if_neg fun hrefused => Int32.not_lt.mpr hoccurs hrefused.2]
    obtain ⟨flushed, hflushed⟩ := flushDocuments_ok { writer with
      skip
      documentDeltas := writer.documentDeltas ++ [document - writer.lastDocument]
      frequencies :=
        if writer.options.hasFrequencies then
          writer.frequencies ++ [Int32.ofNat (blockSize * blocks)]
        else writer.frequencies
      frequencyTotal :=
        if writer.options.hasFrequencies then
          writer.frequencyTotal + (Int32.ofNat (blockSize * blocks)).toInt
        else writer.frequencyTotal
      documentCount := writer.documentCount + 1 }
    obtain ⟨bytes, rfl⟩ := flushDocuments_eq hflushed
    refine ⟨_, bind_ok_iff.mpr ⟨_, hflushed, rfl⟩, rfl, hempty, h.options,
      h.positionOutput, h.positionCount, ?_⟩
    dsimp only
    rw [if_pos hfrequencies, h.frequencyTotal]
  obtain ⟨positioned, hpositioned, _, hdeltasAfter, hcountedAfter⟩ :=
    hcounted.addPositions hlast hdeltas (blockSize * blocks)
  rw [Nat.mul_mod_right] at hdeltasAfter
  rw [Nat.mul_div_cancel_left _ blockSize_pos] at hcountedAfter
  refine ⟨positioned.finishDocument, ?_, ?_, hcountedAfter.finishDocument⟩
  · exact bind_ok_iff.mpr ⟨started, hstarted, bind_ok_iff.mpr
      ⟨positioned, hpositioned, rfl⟩⟩
  · by_cases hfull : positioned.documentDeltas.length = blockSize
    · exact (finishDocument_of_full hfull).2.2.2.2.2.2.1.trans hdeltasAfter
    · rw [finishDocument_of_not_full hfull]
      exact hdeltasAfter

end

theorem length_writeBlock_le {values : List Int32} {block : Bytes}
    (h : writeBlock values = .ok block) (hlength : values.length ≤ blockSize) :
    block.length ≤ 1025 := by
  rw [writeBlock] at h
  dsimp only at h
  split at h
  · cases h
    exact Nat.succ_le_succ (Nat.le_trans (length_writeVint_le _) (by decide))
  · obtain ⟨packed, hpacked, h⟩ := bind_ok_iff.mp h
    cases h
    obtain ⟨bytes, hbytes, hsize, _⟩ := writePacked_spec
      (values.map fun value => value.toUInt32.toUInt64) (bitsRequired_pos _)
      (bitsRequired_le_word _)
    cases hbytes.symm.trans hpacked
    have hroom := Nat.mul_le_mul hlength (bitsRequired_le_word
      ((values.map fun value => value.toUInt32.toUInt64).foldl (· ||| ·) 0))
    rw [packedByteCount, List.length_map] at hsize
    rw [List.length_cons, hsize]
    simp only [blockSize] at hroom
    omega

/-- A document takes two blocks of `.doc` at most. -/
theorem writeDocument_grows {next : PostingsWriter} {posting : Posting}
    (h : writer.writeDocument posting = .ok next)
    (hpositions : writer.positionDeltas.length < blockSize)
    (hfrequencies : writer.frequencies.length ≤ writer.documentDeltas.length) :
    next.frequencies.length ≤ next.documentDeltas.length ∧
      next.documentOutput.length ≤ writer.documentOutput.length + 2050 := by
  obtain ⟨started, hstarted, h⟩ := bind_ok_iff.mp h
  obtain ⟨positioned, hpositioned, h⟩ := bind_ok_iff.mp h
  cases h
  obtain ⟨hbuffered, hgrown, hdeltas⟩ :
      started.frequencies.length ≤ started.documentDeltas.length ∧
      started.documentOutput.length ≤ writer.documentOutput.length + 2050 ∧
      started.positionDeltas = writer.positionDeltas := by
    rw [PostingsWriter.startDocument] at hstarted
    obtain ⟨buffered, hbuffered, hstarted⟩ := bind_ok_iff.mp hstarted
    obtain ⟨skip, rfl⟩ := bufferPoint_eq hbuffered
    dsimp only at hstarted
    split at hstarted
    · cases hstarted
    split at hstarted
    · cases hstarted
    obtain ⟨flushed, hflushed, hstarted⟩ := bind_ok_iff.mp hstarted
    cases hstarted
    have hcounts : (if writer.options.hasFrequencies then writer.frequencies ++ [posting.frequency]
        else writer.frequencies).length ≤
          (writer.documentDeltas ++ [posting.document - writer.lastDocument]).length := by
      rw [List.length_append]
      split
      · rw [List.length_append]
        exact Nat.succ_le_succ hfrequencies
      · exact Nat.le_succ_of_le hfrequencies
    rw [PostingsWriter.flushDocuments] at hflushed
    dsimp only at hflushed
    split at hflushed
    next hfull =>
      obtain ⟨deltas, hdeltas, hflushed⟩ := bind_ok_iff.mp hflushed
      obtain ⟨frequencies, hwritten, hflushed⟩ := bind_ok_iff.mp hflushed
      cases hflushed
      refine ⟨hcounts, ?_, rfl⟩
      have hdocuments := length_writeBlock_le hdeltas (Nat.le_of_eq hfull)
      have hrest : frequencies.length ≤ 1025 := by
        rw [hfull] at hcounts
        cases hhas : writer.options.hasFrequencies with
        | true =>
          rw [hhas, if_pos rfl] at hcounts
          simp only [hhas, if_true] at hwritten
          exact length_writeBlock_le hwritten hcounts
        | false =>
          simp only [hhas, Bool.false_eq_true, if_false] at hwritten
          cases hwritten
          exact Nat.zero_le _
      rw [List.length_append, List.length_append]
      omega
    next =>
      cases hflushed
      exact ⟨hcounts, Nat.le_add_right _ _, rfl⟩
  obtain ⟨_, hsame, _⟩ := addPositions_spec hpositioned (hdeltas ▸ hpositions)
  rw [← hsame.frequencies, ← hsame.documentDeltas] at hbuffered
  rw [← hsame.documentOutput] at hgrown
  rw [PostingsWriter.finishDocument]
  split
  · split
    · exact ⟨Nat.le_refl _, hgrown⟩
    · exact ⟨Nat.le_refl _, hgrown⟩
  · exact ⟨hbuffered, hgrown⟩

theorem Idle.writeDocuments_grow (h : Idle shape writer) (hempty : writer.frequencies = [])
    (hcount : count ≤ postings.length)
    (hreached : writer.writeDocuments (postings.take count) = .ok reached) :
    reached.frequencies.length ≤ reached.documentDeltas.length ∧
      reached.documentOutput.length ≤ writer.documentOutput.length + 2050 * count := by
  induction count generalizing reached with
  | zero =>
    cases hreached
    refine ⟨?_, Nat.le_refl _⟩
    have hstart : writer.startTerm.frequencies = [] := hempty
    rw [hstart]
    exact Nat.zero_le _
  | succ count ih =>
    obtain ⟨before, hbefore, hwritten⟩ := (writeDocuments_succ hcount).mp hreached
    obtain ⟨hfrequencies, hgrown⟩ := ih (Nat.le_of_succ_le hcount) hbefore
    have hterm := h.writeDocuments (Nat.le_of_succ_le hcount) hbefore
    obtain ⟨hcounts, hnext⟩ := writeDocument_grows hwritten hterm.positionDeltas hfrequencies
    refine ⟨hcounts, Nat.le_trans hnext ?_⟩
    rw [Nat.mul_succ, ← Nat.add_assoc]
    exact Nat.add_le_add_right hgrown _

/-- Documents of so many blocks of occurrences each. -/
def repeatedTerm (blocks documents : Nat) : List Posting :=
  (List.range documents).map fun number => repeated blocks (Int32.ofNat number)

theorem length_repeatedTerm (blocks documents : Nat) :
    (repeatedTerm blocks documents).length = documents := by
  rw [repeatedTerm, List.length_map, List.length_range]

/-- After so many documents of the term, `.pos` has grown by two bytes for each block. -/
theorem Idle.writeRepeatedTerm {blocks documents : Nat} (h : Idle shape writer)
    (hcounted : Counted writer.startTerm length 0 0) (hblocks : 0 < blocks)
    (hfrequency : blockSize * blocks < 2 ^ 31) (hdocuments : documents < 2 ^ 31)
    (hcount : count ≤ documents) :
    ∃ reached, writer.writeDocuments ((repeatedTerm blocks documents).take count) = .ok reached ∧
      reached.positionDeltas = [] ∧ (0 < count → reached.lastDocument = Int32.ofNat (count - 1)) ∧
      Counted reached (length + 2 * blocks * count) (blockSize * blocks * count)
        ((blockSize * blocks * count : Nat) : Int) := by
  have htoInt : ∀ number, number < 2 ^ 31 → (Int32.ofNat number).toInt = number := by
    intro number hnumber
    exact Int32.toInt_ofNat_of_lt hnumber
  induction count with
  | zero => exact ⟨writer.startTerm, rfl, h.positionDeltas, nofun, hcounted⟩
  | succ count ih =>
    obtain ⟨before, hbefore, hempty, hlast, hcountedBefore⟩ := ih (Nat.le_of_succ_le hcount)
    have hlength : count + 1 ≤ (repeatedTerm blocks documents).length := by
      rwa [length_repeatedTerm]
    have hterm := h.writeDocuments (Nat.le_of_succ_le hlength) hbefore
    have hposting : (repeatedTerm blocks documents).get ⟨count, hlength⟩ =
        repeated blocks (Int32.ofNat count) := by
      simp only [repeatedTerm, List.get_eq_getElem, List.getElem_map, List.getElem_range]
    have hsmall : count < 2 ^ 31 := by omega
    have hfollows : 0 < count → 0 < Int32.ofNat count - before.lastDocument := by
      intro hpos
      rw [hlast hpos, Int32.lt_iff_toInt_lt, Int32.toInt_sub, htoInt _ hsmall,
        htoInt _ (by omega)]
      have hone : (count : Int) - ((count - 1 : Nat) : Int) = 1 := by omega
      rw [hone]
      decide
    have hoccurs : 1 ≤ Int32.ofNat (blockSize * blocks) := by
      rw [Int32.le_iff_toInt_le, htoInt _ hfrequency]
      exact Int.ofNat_le.mpr (Nat.mul_pos blockSize_pos hblocks)
    obtain ⟨next, hnext, hemptyNext, hcountedNext⟩ := hcountedBefore.writeDocument hterm hempty
      (Int32.le_iff_toInt_le.mpr (by rw [htoInt _ hsmall]; exact Int.natCast_nonneg count))
      hfollows hoccurs
    have hwritten : writer.writeDocuments ((repeatedTerm blocks documents).take (count + 1)) =
        .ok next := (writeDocuments_succ hlength).mpr ⟨before, hbefore, hposting ▸ hnext⟩
    have hdocument := (hterm.writeDocument hnext fun hmod => by
      rw [blockBoundary, Nat.mul_div_cancel' (Nat.dvd_of_mod_eq_zero hmod), pointAfter, hwritten]
      rfl).2.2.2
    refine ⟨next, hwritten, hemptyNext, fun _ => hdocument, ?_⟩
    rw [htoInt _ hfrequency, Nat.add_assoc] at hcountedNext
    exact_mod_cast hcountedNext

/-- The documents of the term belong to a segment of as many. -/
theorem repeatedTerm_lt {blocks documents : Nat} (hdocuments : documents < 2 ^ 31) :
    ∀ posting ∈ repeatedTerm blocks documents, posting.document < Int32.ofNat documents := by
  intro posting hposting
  obtain ⟨number, hnumber, rfl⟩ := List.mem_map.mp hposting
  have hlt := List.mem_range.mp hnumber
  have hnumberInt := Int32.toInt_ofNat_of_lt (n := number) (by omega)
  have hdocumentsInt := Int32.toInt_ofNat_of_lt (n := documents) hdocuments
  refine Int32.lt_iff_toInt_lt.mpr ?_
  rw [show (repeated blocks (Int32.ofNat number)).document = Int32.ofNat number from rfl,
    hnumberInt, hdocumentsInt]
  exact Int.ofNat_lt.mpr hlt

/-- A segment of so many documents with positions, at a field with positions. -/
theorem exists_writer_positions (documentCount : Int32) : ∃ writer output,
    Written ⟨documentCount, true, false⟩ writer ∧ writer.frequencies = [] ∧
      Counted writer.startTerm output 0 0 := by
  obtain ⟨document, hdocument⟩ : ∃ document,
      writeHeader "Lucene41PostingsWriterDoc" 1 = .ok document :=
    (@exists_writeHeader "Lucene41PostingsWriterDoc" 1 (by decide) (by decide)).imp fun _ h => h.1
  obtain ⟨position, hposition⟩ : ∃ position,
      writeHeader "Lucene41PostingsWriterPos" 1 = .ok position :=
    (@exists_writeHeader "Lucene41PostingsWriterPos" 1 (by decide) (by decide)).imp fun _ h => h.1
  obtain ⟨payload, hpayload⟩ : ∃ payload,
      writeHeader "Lucene41PostingsWriterPay" 1 = .ok payload :=
    (@exists_writeHeader "Lucene41PostingsWriterPay" 1 (by decide) (by decide)).imp fun _ h => h.1
  let opened : PostingsWriter :=
    { documentOutput := document ++ formatTable
      positionOutput := some position
      payloadOutput := none
      skip := SkipWriter.new documentCount }
  have hopened : PostingsWriter.new ⟨documentCount, true, false⟩ true false = .ok opened := by
    rw [PostingsWriter.new, if_neg (not_not_intro rfl), if_neg (not_not_intro rfl),
      if_neg (fun h => Bool.false_ne_true h.1), hdocument, ok_bind_eq, hposition, ok_bind_eq,
      hpayload, ok_bind_eq]
    rfl
  exact ⟨_, position.length, .field (.opened hopened)
    (rfl : opened.setField .documentsAndFrequenciesAndPositions = .ok (2, _)), rfl,
    ⟨rfl, ⟨position, rfl, rfl⟩, rfl, rfl⟩⟩

theorem writeSkip_ok (writer : SkipWriter) (output : Bytes) :
    ∃ written, writer.writeSkip output = .ok written := by
  rw [SkipWriter.writeSkip, writeLevels_eq, ok_bind_eq]
  exact ⟨_, rfl⟩

theorem finishTerm_ok
    (h : Counted writer length positions positions) (hdocuments : writer.documentCount ≠ 0) :
    ∃ finished, writer.finishTerm = .ok finished := by
  obtain ⟨output, houtput, _⟩ := h.positionOutput
  have hpositions : ∀ documentOutput, ∃ finished,
      PostingsWriter.finishPositions { writer with documentOutput } positions = .ok finished := by
    intro documentOutput
    rw [PostingsWriter.finishPositions]
    dsimp only
    rw [h.options, if_neg (by decide), h.positionCount, if_neg (not_not_intro rfl), houtput]
    exact ⟨_, rfl⟩
  have htotal : (if writer.options.hasFrequencies then writer.frequencyTotal else -1) =
      (positions : Int) := by
    rw [h.options, h.frequencyTotal]
    rfl
  rw [PostingsWriter.finishTerm, if_neg hdocuments]
  dsimp only
  rw [htotal]
  obtain ⟨⟨offset, positioned⟩, hpositioned⟩ := hpositions
    (if writer.documentCount = 1 then writer.documentOutput
      else writer.documentOutput ++ writer.documentTails)
  rw [hpositioned, ok_bind_eq]
  dsimp only
  split
  · obtain ⟨written, hwritten⟩ := writeSkip_ok positioned.skip positioned.documentOutput
    rw [hwritten, ok_bind_eq]
    exact ⟨_, rfl⟩
  · exact ⟨_, rfl⟩

/-! ## The skip list of a term -/

/-- Points recorded one after the other on a level, the term's start before the first of them,
are less than `2 ^ 31` bytes apart in every file. -/
def PointersFit (documentFrequency : Nat) (points : Nat → SkipPoint) : Prop :=
  ∀ level index, index < entryCount documentFrequency level →
    let previous := points (skipMultiplier ^ level * index)
    let next := points (skipMultiplier ^ level * (index + 1))
    next.documentPointer - previous.documentPointer ≤ maximumI32 ∧
      next.positionPointer - previous.positionPointer ≤ maximumI32 ∧
      next.payloadPointer - previous.payloadPointer ≤ maximumI32

/-- Where the postings of a term start. -/
def TermMetadata.startPoint (metadata : TermMetadata) (options : IndexOptions) : SkipPoint :=
  SkipPoint.recordedBy options
    ⟨0, metadata.documentStart, metadata.positionStart, metadata.payloadStart, 0⟩

/-- A term has skip data exactly if it has more documents than a block, and the reader finds the
ends of its blocks there. -/
def HasSkipList (writer : PostingsWriter) (postings : List Posting) (metadata : TermMetadata)
    (next : PostingsWriter) : Prop :=
  (metadata.skipOffset.isSome = true ↔ blockSize < postings.length) ∧
    ∀ offset, metadata.skipOffset = some offset → ∃ levels,
      readSkipList writer.options.hasPositions writer.options.hasOffsets
          metadata.documentFrequency (metadata.startPoint writer.options)
          (next.documentOutput.drop (metadata.documentStart + offset)) = some levels ∧
        SkipShape postings.length (blockBoundary writer postings) levels

section

variable (h : Idle shape writer)
  (hreached : writer.writeDocuments (postings.take postings.length) = .ok reached)
include h hreached

/-- A term of documents of its segment has no more of them than the segment. -/
theorem Idle.count_le (hdocuments : ∀ posting ∈ postings, posting.document < shape.documentCount)
    (hpos : 0 < postings.length) : (postings.length : Int) ≤ shape.documentCount.toInt := by
  have hterm := h.writeDocuments (Nat.le_refl _) hreached
  obtain ⟨count, hcount⟩ := Nat.exists_eq_succ_of_ne_zero (Nat.pos_iff_ne_zero.mp hpos)
  have hlt : count < postings.length := hcount ▸ Nat.lt_succ_self count
  have hlast := hreached
  rw [hcount] at hlast
  obtain ⟨before, hbefore, hwritten⟩ := (writeDocuments_succ hlt).mp hlast
  obtain ⟨_, _, _, hdocument⟩ :=
    (h.writeDocuments (Nat.le_of_lt hlt) hbefore).writeDocument hwritten fun hmod => by
      rw [blockBoundary, Nat.mul_div_cancel' (Nat.dvd_of_mod_eq_zero hmod), pointAfter, hlast]
      rfl
  have hinside := Int32.lt_iff_toInt_lt.mp (hdocuments _ (List.get_mem postings ⟨count, hlt⟩))
  have hcounted := hterm.counted
  rw [hdocument] at hcounted
  omega

/-- The ends of two blocks are near where their pointers are. -/
theorem Idle.near
    {earlier later : Nat} (hle : earlier ≤ later) (hlater : blockSize * later ≤ postings.length)
    (hfit : (blockBoundary writer postings later).documentPointer -
          (blockBoundary writer postings earlier).documentPointer ≤ maximumI32 ∧
        (blockBoundary writer postings later).positionPointer -
          (blockBoundary writer postings earlier).positionPointer ≤ maximumI32 ∧
        (blockBoundary writer postings later).payloadPointer -
          (blockBoundary writer postings earlier).payloadPointer ≤ maximumI32) :
    (blockBoundary writer postings earlier).Near (blockBoundary writer postings later) := by
  obtain ⟨last, hlast, _, _⟩ := h.between hlater (Nat.le_refl _) hreached
  obtain ⟨first, hfirst, hframe, hdocument⟩ :=
    h.between (Nat.mul_le_mul_left blockSize hle) hlater hlast
  have hinFirst := h.writeDocuments (Nat.le_trans (Nat.mul_le_mul_left blockSize hle) hlater) hfirst
  have hinLast := h.writeDocuments hlater hlast
  have hearlier : blockBoundary writer postings earlier = first.here.recordedBy writer.options := by
    rw [blockBoundary, pointAfter, hfirst]
  have hafter : blockBoundary writer postings later = last.here.recordedBy writer.options := by
    rw [blockBoundary, pointAfter, hlast]
  have hlow := hinFirst.lastDocument
  have hhigh := last.lastDocument.toInt_lt
  have hroom := hinLast.positionDeltas
  rw [hearlier, hafter] at hfit ⊢
  refine ⟨⟨hdocument, ?_⟩, ⟨Int.ofNat_le.mpr hframe.documents, hfit.1⟩, ⟨?_, hfit.2.1⟩,
    ⟨?_, hfit.2.2⟩, ?_⟩
  · simp only [SkipPoint.recordedBy, SkipPoint.recorded, PostingsWriter.here, maximumI32]
    omega
  · simp only [SkipPoint.recordedBy, SkipPoint.recorded, PostingsWriter.here]
    split
    · exact Int.ofNat_le.mpr hframe.positions
    · exact Int.le_refl 0
  · simp only [SkipPoint.recordedBy, SkipPoint.recorded, PostingsWriter.here]
    split
    · exact Int.ofNat_le.mpr hframe.payloads
    · exact Int.le_refl 0
  · simp only [SkipPoint.recordedBy, SkipPoint.recorded, PostingsWriter.here, maximumI32]
    simp only [blockSize] at hroom
    split <;> omega

end

/-- The skip list of every term whose pointers fit: it is there exactly for more documents than
a block, and has the levels that the reader computes, with the ends of the blocks and the links
between them. -/
theorem writeTerm_hasSkipList {shape : SegmentShape} {writer next : PostingsWriter}
    {postings : List Posting} {metadata : TermMetadata} (hwritten : Written shape writer)
    (hterm : writer.writeTerm postings = .ok (metadata, next))
    (hdocuments : ∀ posting ∈ postings, posting.document < shape.documentCount)
    (hfit : PointersFit postings.length (blockBoundary writer postings)) :
    HasSkipList writer postings metadata next := by
  have hidle := hwritten.idle
  obtain ⟨reached, hreached, hfinished⟩ := Except.bind_ok_iff.mp hterm
  have hend := finishTerm_spec hfinished
  have hall : writer.writeDocuments (postings.take postings.length) = .ok reached := by
    rw [List.take_length]
    exact hreached
  have hinside := hidle.writeDocuments (Nat.le_refl _) hall
  have hcount := hinside.documentCount
  have hfrequency : metadata.documentFrequency = postings.length :=
    hend.documentFrequency.trans hcount
  cases Nat.lt_or_ge blockSize postings.length with
  | inr hshort =>
    have hnone := hend.shortTerm (hcount ▸ hshort)
    refine ⟨iff_of_false ?_ (Nat.not_lt.mpr hshort), fun offset hoffset => ?_⟩
    · rw [hnone]
      nofun
    · rw [hnone] at hoffset
      cases hoffset
  | inl hlong =>
    obtain ⟨tails, pointer, hskip, hoffset⟩ := hend.longTerm (hcount ▸ hlong)
    refine ⟨iff_of_true ?_ hlong, fun offset hsome => ?_⟩
    · rw [hoffset]
      rfl
    have hrecorded : ∀ number, (blockBoundary writer postings number).recorded
        reached.skip.hasPositions reached.skip.hasOffsets =
          blockBoundary writer postings number := by
      intro number
      rw [hinside.hasPositions, hinside.hasOffsets, hinside.frame.options]
      exact SkipPoint.recorded_recorded _
    have hnear : ∀ level index, index < entryCount postings.length level →
        (blockBoundary writer postings (skipMultiplier ^ level * index)).Near
          (blockBoundary writer postings (skipMultiplier ^ level * (index + 1))) := by
      intro level index hindex
      refine hidle.near hall (Nat.mul_le_mul_left _ (Nat.le_succ index)) ?_
        (hfit level index hindex)
      have hblocks : skipMultiplier ^ level * (index + 1) ≤ (postings.length - 1) / blockSize :=
        Nat.le_trans (Nat.mul_le_mul_left _ hindex) (Nat.mul_div_le _ _)
      have hdocuments := Nat.mul_le_of_le_div _ _ _ hblocks
      rw [Nat.mul_comm]
      omega
    obtain ⟨list, hlist, hread⟩ := hinside.skip.reads hinside.levelCount hlong
      (hidle.count_le hall hdocuments (Nat.zero_lt_of_lt hlong)) hrecorded hnear
      (reached.documentOutput ++ tails)
    rw [hskip, Except.ok.injEq, Prod.mk.injEq] at hlist
    obtain ⟨rfl, houtput⟩ := hlist
    rw [hoffset, Option.some.injEq] at hsome
    have hstart : reached.documentStart ≤ (reached.documentOutput ++ tails).length := by
      rw [hinside.frame.documentStart, List.length_append]
      exact Nat.le_trans hinside.frame.documents (Nat.le_add_right _ _)
    have hbytes : next.documentOutput.drop (metadata.documentStart + offset) = list := by
      rw [hend.documentStart, ← hsome, Nat.add_sub_cancel' hstart, houtput, List.drop_left]
    have hmetadata : metadata.startPoint writer.options = blockBoundary writer postings 0 := by
      rw [TermMetadata.startPoint, hend.documentStart, hend.positionStart, hend.payloadStart,
        hinside.frame.documentStart, hinside.frame.positionStart, hinside.frame.payloadStart]
      exact hidle.startPoint.symm
    have hflags : reached.skip.hasPositions = writer.options.hasPositions ∧
        reached.skip.hasOffsets = writer.options.hasOffsets := by
      rw [hinside.hasPositions, hinside.hasOffsets, hinside.frame.options]
      exact ⟨rfl, rfl⟩
    rw [hflags.1, hflags.2] at hread
    rw [hbytes, hfrequency, hmetadata]
    exact ⟨_, hread, skipShape_skipEntry hlong⟩

/-- A term of 1025 documents: nine skip entries on two levels. -/
theorem writeTerm_hasSkipList_long : ∃ writer metadata next,
    Written ⟨1025, true, false⟩ writer ∧
    writer.writeTerm (repeatedTerm 1 1025) = .ok (metadata, next) ∧
    metadata.skipOffset.isSome = true ∧ readerLevels 1025 = 2 ∧
    HasSkipList writer (repeatedTerm 1 1025) metadata next := by
  obtain ⟨writer, length, hwritten, hfrequencies, hcounted⟩ := exists_writer_positions 1025
  have hidle := hwritten.idle
  have hwrite := fun count => @Idle.writeRepeatedTerm writer _ count length 1 1025 hidle hcounted
    (by decide) (by decide) (by decide)
  have hlength := length_repeatedTerm 1 1025
  obtain ⟨reached, hreached, _, _, hcountedReached⟩ := hwrite 1025 (Nat.le_refl _)
  have hterm := hidle.writeDocuments (Nat.le_of_eq hlength.symm) hreached
  obtain ⟨⟨metadata, next⟩, hfinished⟩ := finishTerm_ok hcountedReached (by
    rw [hterm.documentCount]
    decide)
  have htake : (repeatedTerm 1 1025).take 1025 = repeatedTerm 1 1025 :=
    List.take_of_length_le (Nat.le_of_eq hlength)
  rw [htake] at hreached
  have hok : writer.writeTerm (repeatedTerm 1 1025) = .ok (metadata, next) :=
    Except.bind_ok_iff.mpr ⟨reached, hreached, hfinished⟩
  -- no file grows by more than 2050 bytes for a document
  have hpoint : ∀ block, blockSize * block ≤ 1025 →
      writer.documentOutput.length ≤
          (blockBoundary writer (repeatedTerm 1 1025) block).documentPointer ∧
        (blockBoundary writer (repeatedTerm 1 1025) block).documentPointer ≤
          writer.documentOutput.length + 2050 * 1025 ∧
        length ≤ (blockBoundary writer (repeatedTerm 1 1025) block).positionPointer ∧
        (blockBoundary writer (repeatedTerm 1 1025) block).positionPointer ≤ length + 2050 ∧
        (blockBoundary writer (repeatedTerm 1 1025) block).payloadPointer = 0 := by
    intro block hblock
    obtain ⟨first, hfirst, _, _, hcountedFirst⟩ := hwrite (blockSize * block) hblock
    have hinside := hidle.writeDocuments (hlength.symm ▸ hblock) hfirst
    have hgrown := (hidle.writeDocuments_grow hfrequencies (hlength.symm ▸ hblock) hfirst).2
    have hframe := hinside.frame.documents
    have hoptions : writer.options = .documentsAndFrequenciesAndPositions := hcounted.options
    obtain ⟨output, houtput, hsize⟩ := hcountedFirst.positionOutput
    rw [PostingsWriter.startTerm] at hframe
    rw [blockBoundary, pointAfter, hfirst, hoptions]
    simp only [SkipPoint.recordedBy, SkipPoint.recorded, PostingsWriter.here, houtput,
      pointerOr_some, hsize, IndexOptions.hasPositions, IndexOptions.hasOffsets, if_true]
    refine ⟨Int.ofNat_le.mpr hframe, ?_, ?_, ?_, rfl⟩ <;> omega
  have hlist := writeTerm_hasSkipList hwritten hok (repeatedTerm_lt (by decide)) (by
    intro level index hindex
    rw [hlength] at hindex
    have hblocks : skipMultiplier ^ level * (index + 1) ≤ (1025 - 1) / blockSize :=
      Nat.le_trans (Nat.mul_le_mul_left _ hindex) (Nat.mul_div_le _ _)
    have hlater := hpoint (skipMultiplier ^ level * (index + 1))
      (Nat.le_trans (Nat.mul_le_mul_left _ hblocks) (by decide))
    have hearlier := hpoint (skipMultiplier ^ level * index)
      (Nat.le_trans (Nat.mul_le_mul_left _ (Nat.le_trans
        (Nat.mul_le_mul_left _ (Nat.le_succ _)) hblocks)) (by decide))
    simp only [maximumI32]
    omega)
  exact ⟨writer, metadata, next, hwritten, hok,
    hlist.1.mpr (by rw [hlength]; decide), by decide, hlist⟩

/-! ## A term whose pointers do not fit -/

/-- A term of so many documents, each of `2 ^ 30` occurrences at its first position. -/
def farTerm : List Posting := repeatedTerm (2 ^ 23) (blockSize + 1)

theorem length_farTerm : farTerm.length = blockSize + 1 := length_repeatedTerm _ _

/-- The shape of a segment of so many documents with positions. -/
def farShape : SegmentShape := ⟨129, true, false⟩

/-- What a reader takes the end of the first block for, of a list with one entry. -/
theorem readSkipList_positionPointer {start next : SkipPoint}
    {levels : List (List (SkipLevels.Entry SkipPoint))}
    (hread : readSkipList true false (blockSize + 1) start (pointDifference true false start next) =
      some levels) (hshape : SkipShape (blockSize + 1) points levels) :
    (points 1).positionPointer = start.positionPointer +
      (next.positionPointer - start.positionPointer).bmod (2 ^ 32) := by
  have hlevels : readerLevels (blockSize + 1) = 1 := by decide
  have hcount : entryCount (blockSize + 1) 0 = 1 := by decide
  rw [readSkipList, hlevels] at hread
  obtain ⟨bodies, hbodies, hread⟩ := Option.bind_eq_some_iff.mp hread
  cases hbodies
  rw [List.zipIdx_cons, List.zipIdx_nil, List.mapM_cons, List.mapM_nil] at hread
  obtain ⟨entries, hentries, hread⟩ := Option.bind_eq_some_iff.mp hread
  cases hread
  rw [hcount, SkipLevels.readEntries] at hentries
  obtain ⟨⟨point, behind⟩, hpoint, hentries⟩ := Option.bind_eq_some_iff.mp hentries
  obtain ⟨⟨child, rest⟩, _, hentries⟩ := Option.bind_eq_some_iff.mp hentries
  obtain ⟨others, _, hentries⟩ := Option.bind_eq_some_iff.mp hentries
  have hrecorded := hshape.recorded 0 entries rfl
  cases hentries
  rw [hcount] at hrecorded
  have hfirst : point = points 1 := (List.cons.inj hrecorded).1
  rw [← List.append_nil (pointDifference true false start next)] at hpoint
  rw [← hfirst]
  exact readPoint_positionPointer hpoint

/-- The pointer of `.pos` that the skip list of the term gives for its first block is not where
the block ends, which is `2 ^ 31` bytes from the term's start. -/
theorem farTerm_not_hasSkipList : ∃ writer next metadata, Written farShape writer ∧
    writer.writeTerm farTerm = .ok (metadata, next) ∧
    (∀ posting ∈ farTerm, posting.document < farShape.documentCount) ∧
    ¬ HasSkipList writer farTerm metadata next := by
  obtain ⟨writer, length, hwritten, _, hcounted⟩ := exists_writer_positions 129
  have hidle := hwritten.idle
  have hoptions : writer.options = .documentsAndFrequenciesAndPositions := hcounted.options
  have hwrite := fun count => @Idle.writeRepeatedTerm writer _ count length (2 ^ 23)
    (blockSize + 1) hidle hcounted (by decide) (by decide) (by decide)
  obtain ⟨reached, hreached, _, _, hcountedReached⟩ := hwrite (blockSize + 1) (Nat.le_refl _)
  rw [← farTerm] at hreached
  have hterm := hidle.writeDocuments (Nat.le_of_eq length_farTerm.symm) hreached
  obtain ⟨⟨metadata, next⟩, hfinished⟩ := finishTerm_ok hcountedReached (by
    rw [hterm.documentCount]
    decide)
  have hend := finishTerm_spec hfinished
  refine ⟨writer, next, metadata, hwritten, ?_, repeatedTerm_lt (by decide), fun hlist => ?_⟩
  · rw [List.take_of_length_le (Nat.le_of_eq length_farTerm)] at hreached
    exact Except.bind_ok_iff.mpr ⟨reached, hreached, hfinished⟩
  · obtain ⟨tails, pointer, hskip, hoffset⟩ := hend.longTerm (by
      rw [hterm.documentCount]
      exact Nat.lt_succ_self blockSize)
    obtain ⟨levels, hread, hshape⟩ := hlist.2 _ hoffset
    -- The list is one entry of one level: the end of the first block.
    have hlevelCount : reached.skip.levelCount = 1 := hterm.levelCount.trans (by decide +kernel)
    have hbuffers := hterm.skip.buffers
    have hblocks : (blockSize + 1 - 1) / blockSize = 1 := by decide
    rw [hlevelCount, hblocks] at hbuffers
    obtain ⟨level, hlevels, hbuffer⟩ := List.map_eq_singleton_iff.mp hbuffers
    rw [SkipWriter.writeSkip, hlevels, List.tail_cons, List.reverse_nil, List.foldlM_nil] at hskip
    obtain ⟨hpointer, houtputs⟩ := Prod.mk.injEq .. ▸ Except.ok.inj hskip
    have hstart : reached.documentStart ≤ pointer := by
      rw [← hpointer, hterm.frame.documentStart, List.length_append]
      exact Nat.le_trans hterm.frame.documents (Nat.le_add_right _ _)
    have hbytes : next.documentOutput.drop
        (metadata.documentStart + (pointer - reached.documentStart)) = level.buffer := by
      rw [hend.documentStart, Nat.add_sub_cancel' hstart, ← houtputs, ← hpointer, List.drop_left]
      rfl
    have hfrequency : metadata.documentFrequency = blockSize + 1 := by
      rw [hend.documentFrequency, hterm.documentCount]
    have hmetadata : metadata.startPoint writer.options = blockBoundary writer farTerm 0 := by
      rw [TermMetadata.startPoint, hend.documentStart, hend.positionStart, hend.payloadStart,
        hterm.frame.documentStart, hterm.frame.positionStart, hterm.frame.payloadStart]
      exact hidle.startPoint.symm
    have hflags : reached.skip.hasPositions = true ∧ reached.skip.hasOffsets = false := by
      rw [hterm.hasPositions, hterm.hasOffsets, hcountedReached.options]
      exact ⟨rfl, rfl⟩
    have hentry : level.buffer = pointDifference true false (blockBoundary writer farTerm 0)
        (blockBoundary writer farTerm 1) := by
      rw [hbuffer, hflags.1, hflags.2]
      exact List.append_nil _
    rw [hbytes, hentry, hfrequency, hmetadata, hoptions] at hread
    rw [length_farTerm] at hshape
    have hpointers := readSkipList_positionPointer hread hshape
    obtain ⟨first, hfirst, _, _, hcountedFirst⟩ := hwrite blockSize (Nat.le_succ blockSize)
    have hposition : ∀ {reached length positions frequencies}, Counted reached length positions
        frequencies → (reached.here.recordedBy writer.options).positionPointer = length := by
      intro reached length positions frequencies hreached
      obtain ⟨bytes, hfile, hlength⟩ := hreached.positionOutput
      rw [hoptions]
      simp only [SkipPoint.recordedBy, SkipPoint.recorded, PostingsWriter.here, hfile,
        pointerOr_some, hlength]
      rfl
    have hzero : (blockBoundary writer farTerm 0).positionPointer = length :=
      hposition hcounted
    have hone : (blockBoundary writer farTerm 1).positionPointer =
        ((length + 2 * 2 ^ 23 * blockSize : Nat) : Int) := by
      rw [blockBoundary, pointAfter, Nat.mul_one, farTerm, hfirst]
      exact hposition hcountedFirst
    have hgap : ((length + 2 * 2 ^ 23 * blockSize : Nat) : Int) - length = 2 ^ 31 := by
      simp only [blockSize]
      omega
    have hwrapped : (2 ^ 31 : Int).bmod (2 ^ 32) = -2 ^ 31 := by decide
    rw [hzero, hone, hgap, hwrapped] at hpointers
    simp only [blockSize] at hpointers
    omega

end Postings

end Froe
