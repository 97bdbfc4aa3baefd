import Froe.Lib.Except
import Froe.Lib.SkipLevels
import Froe.Lucene.DataOutput

/-!
# The skip list of a term

`SkipWriter` in `codec/postings.rs` buffers a point for every filled block of documents.  A
point climbs one level for every time that eight divides the number of its block, and on each
level it is written as its difference from the level's previous point.  The buffers are written
out with the highest level first.

`readSkipList` is what Lucene's reader makes of the bytes: it computes the number of levels from
the document frequency, and follows a link of one level into the level below.
-/

namespace Froe

open List (append_assoc append_nil length_append mem_map)
open Option (bind_eq_bind bind_some)
open SkipLevels (child level_succ)

namespace Postings

open CodecOutput

/-- `Lucene41PostingsFormat.BLOCK_SIZE`. -/
def blockSize : Nat := 128

/-- `Lucene41PostingsFormat.maxSkipLevels`. -/
def maximumSkipLevels : Nat := 10

/-- `MultiLevelSkipListWriter`'s multiplier. -/
def skipMultiplier : Nat := 8

/-- The state at the end of a filled document block. -/
structure SkipPoint where
  document : Int := 0
  documentPointer : Int := 0
  positionPointer : Int := 0
  payloadPointer : Int := 0
  positionBufferUpto : Int := 0
deriving DecidableEq, Repr

/-- One level: its bytes, and what its next difference is taken against. -/
structure SkipLevel where
  buffer : Bytes := []
  lastDocument : Int := 0
  lastDocumentPointer : Int := 0
  lastPositionPointer : Int := 0
  lastPayloadPointer : Int := 0

/-- `SkipWriter`, with a record for each level. -/
structure SkipWriter where
  levelCount : Nat
  hasPositions : Bool
  hasOffsets : Bool
  levels : List SkipLevel

/-! ## The writer -/

/-- How often a number can be divided by the multiplier before it is smaller. -/
def levelsAbove (remaining : Nat) : Nat :=
  if skipMultiplier ≤ remaining then levelsAbove (remaining / skipMultiplier) + 1 else 0
termination_by remaining
decreasing_by
  rename_i h
  exact Nat.div_lt_self (Nat.lt_of_lt_of_le (by decide) h) (by decide)

/-- `SkipWriter::level_count`, from the segment's number of documents. -/
def skipLevelCount (documentCount : Int32) : Nat :=
  if documentCount.toInt ≤ blockSize then 1
  else min (1 + levelsAbove (documentCount.toInt.toNat / blockSize)) maximumSkipLevels

/-- A writer with empty levels. -/
def SkipWriter.new (documentCount : Int32) : SkipWriter :=
  let levelCount := skipLevelCount documentCount
  { levelCount, hasPositions := false, hasOffsets := false
    levels := List.replicate levelCount {} }

def SkipWriter.setField (writer : SkipWriter) (hasPositions hasOffsets : Bool) : SkipWriter :=
  { writer with hasPositions, hasOffsets }

/-- `resetSkip`: every level starts over where the term starts. -/
def SkipWriter.reset (writer : SkipWriter)
    (documentPointer positionPointer payloadPointer : Int) : SkipWriter :=
  { writer with
    levels := writer.levels.map fun level =>
      { buffer := []
        lastDocument := 0
        lastDocumentPointer := documentPointer
        lastPositionPointer :=
          if writer.hasPositions then positionPointer else level.lastPositionPointer
        lastPayloadPointer :=
          if writer.hasPositions && writer.hasOffsets then payloadPointer
          else level.lastPayloadPointer } }

/-- `writeSkipData`: the pointers' differences are cut off to 32 bits. -/
def SkipLevel.writeSkipData (hasPositions hasOffsets : Bool) (level : SkipLevel)
    (point : SkipPoint) : SkipLevel :=
  let documentDelta := point.document - level.lastDocument
  let documentPointerDelta := point.documentPointer - level.lastDocumentPointer
  let positionPointerDelta := point.positionPointer - level.lastPositionPointer
  let payloadPointerDelta := point.payloadPointer - level.lastPayloadPointer
  { buffer := level.buffer ++
      (writeVint documentDelta ++ (writeVint documentPointerDelta ++
        if hasPositions then
          writeVint positionPointerDelta ++ (writeVint point.positionBufferUpto ++
            if hasOffsets then writeVint payloadPointerDelta else [])
        else []))
    lastDocument := point.document
    lastDocumentPointer := point.documentPointer
    lastPositionPointer :=
      if hasPositions then point.positionPointer else level.lastPositionPointer
    lastPayloadPointer :=
      if hasPositions && hasOffsets then point.payloadPointer else level.lastPayloadPointer }

/-- How many levels a point climbs: `room` are left above. -/
def climb : Nat → Nat → Nat
  | 0, _ => 0
  | room + 1, remaining =>
    if remaining % skipMultiplier = 0 then climb room (remaining / skipMultiplier) + 1 else 0

/-- The offset just past the entry of the level below, for every level but the lowest. -/
def SkipLevel.writeChild (number childPointer : Nat) (level : SkipLevel) :
    Except Error SkipLevel :=
  if number ≠ 0 then do
    let link ← writeVlong childPointer
    return { level with buffer := level.buffer ++ link }
  else return level

/-- The loop of `buffer_skip` over the levels from `number` on: a level above the lowest records
where the entry below it ends. -/
def bufferLevels (hasPositions hasOffsets : Bool) (point : SkipPoint) :
    Nat → Nat → Nat → List SkipLevel → Except Error (List SkipLevel)
  | 0, _, _, levels => .ok levels
  | _ + 1, _, _, [] => .ok []
  | count + 1, number, childPointer, level :: above => do
    let level := level.writeSkipData hasPositions hasOffsets point
    let newChildPointer := level.buffer.length
    let level ← level.writeChild number childPointer
    let above ← bufferLevels hasPositions hasOffsets point count (number + 1) newChildPointer above
    return level :: above

/-- `bufferSkip`: how high a point climbs is how many times eight divides the block number. -/
def SkipWriter.bufferSkip (writer : SkipWriter) (documentCount : Nat) (point : SkipPoint) :
    Except Error SkipWriter := do
  let levels := 1 + climb (writer.levelCount - 1) (documentCount / blockSize)
  let levels ← bufferLevels writer.hasPositions writer.hasOffsets point levels 0 0 writer.levels
  return { writer with levels }

/-- A level above the lowest in the file: its length comes first, and an empty one is left out. -/
def writeLevel (output : Bytes) (level : SkipLevel) : Except Error Bytes :=
  if 0 < level.buffer.length then do
    let length ← writeVlong level.buffer.length
    return output ++ length ++ level.buffer
  else return output

/-- `writeSkip`: highest level first, the lowest without its length. -/
def SkipWriter.writeSkip (writer : SkipWriter) (output : Bytes) : Except Error (Nat × Bytes) := do
  let pointer := output.length
  let output ← writer.levels.tail.reverse.foldlM writeLevel output
  return (pointer, output ++ (writer.levels.headD {}).buffer)

/-! ## The reader -/

/-- The levels that a reader expects. -/
def readerLevels (documentFrequency : Nat) : Nat :=
  min maximumSkipLevels (1 + Nat.log skipMultiplier ((documentFrequency - 1) / blockSize))

/-- The bytes of the levels, lowest first: the lowest has no length. -/
def readBodies : Nat → Bytes → Option (List Bytes)
  | 0, bytes => some [bytes]
  | level + 1, bytes => do
    let (length, rest) ← CodecInput.readVlong bytes
    let (body, rest) ← CodecInput.readBytes length rest
    let below ← readBodies level rest
    return below ++ [body]

/-- `readSkipData`: a difference is a signed integer, added to what the level held before. -/
def readPoint (hasPositions hasOffsets : Bool) (previous : SkipPoint) (bytes : Bytes) :
    Option (SkipPoint × Bytes) := do
  let (document, bytes) ← CodecInput.readVint bytes
  let (documentPointer, bytes) ← CodecInput.readVint bytes
  let point := { previous with
    document := previous.document + document
    documentPointer := previous.documentPointer + documentPointer }
  if hasPositions then
    let (positionPointer, bytes) ← CodecInput.readVint bytes
    let (positionBufferUpto, bytes) ← CodecInput.readVint bytes
    let point := { point with
      positionPointer := previous.positionPointer + positionPointer
      positionBufferUpto }
    if hasOffsets then
      let (payloadPointer, bytes) ← CodecInput.readVint bytes
      return ({ point with payloadPointer := previous.payloadPointer + payloadPointer }, bytes)
    else return (point, bytes)
  else return (point, bytes)

/-- The number of entries on a level, of which the reader reads no more. -/
def entryCount (documentFrequency level : Nat) : Nat :=
  (documentFrequency - 1) / blockSize / skipMultiplier ^ level

/-- A term's skip list: the entries of each level, lowest level first. -/
def readSkipList (hasPositions hasOffsets : Bool) (documentFrequency : Nat) (start : SkipPoint)
    (bytes : Bytes) : Option (List (List (SkipLevels.Entry SkipPoint))) := do
  let bodies ← readBodies (readerLevels documentFrequency - 1) bytes
  bodies.zipIdx.mapM fun body =>
    SkipLevels.readEntries (readPoint hasPositions hasOffsets) CodecInput.readVlong (body.2 != 0)
      (entryCount documentFrequency body.2) 0 start body.1

/-! ## What a level records -/

variable {hasPositions hasOffsets : Bool} {points : Nat → SkipPoint}

/-- The part of a point that a field records. -/
def SkipPoint.recorded (hasPositions hasOffsets : Bool) (point : SkipPoint) : SkipPoint :=
  { document := point.document
    documentPointer := point.documentPointer
    positionPointer := if hasPositions then point.positionPointer else 0
    payloadPointer := if hasPositions && hasOffsets then point.payloadPointer else 0
    positionBufferUpto := if hasPositions then point.positionBufferUpto else 0 }

/-- A skip point as its distance from the one before. -/
def pointDifference (hasPositions hasOffsets : Bool) (previous next : SkipPoint) : Bytes :=
  writeVint (next.document - previous.document) ++
    (writeVint (next.documentPointer - previous.documentPointer) ++
      if hasPositions then
        writeVint (next.positionPointer - previous.positionPointer) ++
          (writeVint next.positionBufferUpto ++
            if hasOffsets then writeVint (next.payloadPointer - previous.payloadPointer) else [])
      else [])

/-- The bytes of the first entries of a level. -/
abbrev levelBytes (hasPositions hasOffsets : Bool) (points : Nat → SkipPoint)
    (level count : Nat) : Bytes :=
  SkipLevels.level skipMultiplier (pointDifference hasPositions hasOffsets)
    (fun target => writeVlongSigned target) points level count

abbrev levelEnds (hasPositions hasOffsets : Bool) (points : Nat → SkipPoint)
    (level index : Nat) : Nat :=
  SkipLevels.ends skipMultiplier (pointDifference hasPositions hasOffsets)
    (fun target => writeVlongSigned target) points level index

/-- The level's differences are taken against a point. -/
structure SkipLevel.After (hasPositions hasOffsets : Bool) (level : SkipLevel)
    (point : SkipPoint) : Prop where
  document : level.lastDocument = point.document
  documentPointer : level.lastDocumentPointer = point.documentPointer
  positionPointer : hasPositions = true → level.lastPositionPointer = point.positionPointer
  payloadPointer : hasPositions = true → hasOffsets = true →
    level.lastPayloadPointer = point.payloadPointer

/-- A level after so many points: every so manieth is recorded, and the last of them is what
the next one is compared with. -/
structure SkipLevel.Holds (hasPositions hasOffsets : Bool) (points : Nat → SkipPoint)
    (number count : Nat) (level : SkipLevel) : Prop where
  buffer : level.buffer =
    levelBytes hasPositions hasOffsets points number (count / skipMultiplier ^ number)
  last : level.After hasPositions hasOffsets
    (points (skipMultiplier ^ number * (count / skipMultiplier ^ number)))

/-- The entry that a level gains is the difference of the points. -/
theorem writeSkipData_spec {level : SkipLevel} {previous point : SkipPoint}
    (hlast : level.After hasPositions hasOffsets previous) :
    (level.writeSkipData hasPositions hasOffsets point).buffer =
        level.buffer ++ pointDifference hasPositions hasOffsets previous
          (point.recorded hasPositions hasOffsets) ∧
      (level.writeSkipData hasPositions hasOffsets point).After hasPositions hasOffsets
        (point.recorded hasPositions hasOffsets) := by
  have hdocument := hlast.document
  have hdocumentPointer := hlast.documentPointer
  have hpositionPointer := hlast.positionPointer
  have hpayloadPointer := hlast.payloadPointer
  cases hasPositions with
  | false =>
    constructor
    · rw [SkipLevel.writeSkipData, hdocument, hdocumentPointer]
      rfl
    · exact ⟨rfl, rfl, nofun, nofun⟩
  | true =>
    have hpositions := hpositionPointer rfl
    cases hasOffsets with
    | false =>
      constructor
      · rw [SkipLevel.writeSkipData, hdocument, hdocumentPointer, hpositions]
        rfl
      · exact ⟨rfl, rfl, fun _ => rfl, nofun⟩
    | true =>
      have hpayload := hpayloadPointer rfl rfl
      constructor
      · rw [SkipLevel.writeSkipData, hdocument, hdocumentPointer, hpositions, hpayload]
        rfl
      · exact ⟨rfl, rfl, fun _ => rfl, fun _ _ => rfl⟩

theorem SkipLevel.writeChild_zero (childPointer : Nat) (level : SkipLevel) :
    level.writeChild 0 childPointer = .ok level := rfl

theorem SkipLevel.writeChild_succ (number childPointer : Nat) (level : SkipLevel) :
    level.writeChild (number + 1) childPointer =
      .ok { level with buffer := level.buffer ++ writeVlongSigned childPointer } := by
  rw [SkipLevel.writeChild, if_pos (Nat.succ_ne_zero number),
    writeVlong_of_nonneg (Int.natCast_nonneg childPointer)]
  rfl

variable {count documentFrequency level : Nat} {writer : SkipWriter} {documentCount : Int32}
  {previous : SkipPoint}

/-- A point that does not reach a level leaves it as it is. -/
theorem SkipLevel.Holds.next_of_not_dvd {number : Nat} {level : SkipLevel}
    (h : level.Holds hasPositions hasOffsets points number count)
    (hnot : ¬ skipMultiplier ^ number ∣ count + 1) :
    level.Holds hasPositions hasOffsets points number (count + 1) := by
  have hcount := SkipLevels.count_of_not_dvd hnot
  exact ⟨by rw [hcount]; exact h.buffer, by rw [hcount]; exact h.last⟩

/-- The pointer that a level hands to the one above: where its new entry ends. -/
def Leads (hasPositions hasOffsets : Bool) (points : Nat → SkipPoint) (count childPointer : Nat) :
    Nat → Prop
  | 0 => True
  | number + 1 => childPointer =
      levelEnds hasPositions hasOffsets points number (count / skipMultiplier ^ number)

/-- A point that reaches a level becomes its next entry, linked to the entry below. -/
theorem SkipLevel.Holds.next_of_dvd {number childPointer : Nat} {level : SkipLevel}
    {point : SkipPoint} (h : level.Holds hasPositions hasOffsets points number count)
    (hdvd : skipMultiplier ^ number ∣ count + 1)
    (hpoint : point.recorded hasPositions hasOffsets = points (count + 1))
    (hchild : Leads hasPositions hasOffsets points count childPointer number) :
    ∃ written, (level.writeSkipData hasPositions hasOffsets point).writeChild number
        childPointer = .ok written ∧
      written.Holds hasPositions hasOffsets points number (count + 1) ∧
      Leads hasPositions hasOffsets points count
        (level.writeSkipData hasPositions hasOffsets point).buffer.length (number + 1) := by
  have hcount := SkipLevels.count_of_dvd hdvd
  have hnumber := SkipLevels.point_of_dvd hdvd
  obtain ⟨hbuffer, hlast⟩ := @writeSkipData_spec hasPositions hasOffsets level _ point h.last
  have hdifference : pointDifference hasPositions hasOffsets
      (points (skipMultiplier ^ number * (count / skipMultiplier ^ number)))
      (point.recorded hasPositions hasOffsets) =
      SkipLevels.difference skipMultiplier (pointDifference hasPositions hasOffsets) points number
        (count / skipMultiplier ^ number) := by
    rw [SkipLevels.difference, hnumber, hpoint]
  rw [hdifference, h.buffer] at hbuffer
  rw [hpoint, ← hnumber] at hlast
  have hleads : Leads hasPositions hasOffsets points count
      (level.writeSkipData hasPositions hasOffsets point).buffer.length (number + 1) := by
    rw [hbuffer]
    rfl
  cases number with
  | zero =>
    refine ⟨_, SkipLevel.writeChild_zero .., ⟨?_, ?_⟩, hleads⟩
    · rw [hbuffer, hcount]
      exact (append_nil _).symm.trans (level_succ ..).symm
    · rw [hcount]
      exact hlast
  | succ number =>
    have hlink : SkipLevels.linked skipMultiplier (pointDifference hasPositions hasOffsets)
        (fun target => writeVlongSigned target) points (number + 1)
        (count / skipMultiplier ^ (number + 1)) = writeVlongSigned childPointer := by
      rw [show childPointer = _ from hchild, levelEnds,
        ← SkipLevels.below_of_dvd (by decide) hdvd]
      rfl
    refine ⟨_, SkipLevel.writeChild_succ .., ⟨?_, ?_⟩, hleads⟩
    · rw [hcount, levelBytes, level_succ, hlink]
      exact congrArg (· ++ writeVlongSigned childPointer) hbuffer
    · rw [hcount]
      exact ⟨hlast.document, hlast.documentPointer, hlast.positionPointer, hlast.payloadPointer⟩

/-- The loop over the levels: those whose step divides the number of the point gain an entry. -/
theorem bufferLevels_spec {count steps number above childPointer : Nat} {levels : List SkipLevel}
    {point : SkipPoint} (hlevels : List.Forall₂ (fun number level =>
      SkipLevel.Holds hasPositions hasOffsets points number count level)
      (List.range' number above) levels)
    (hsteps : steps ≤ above)
    (hdvd : ∀ l, number ≤ l → l < number + steps → skipMultiplier ^ l ∣ count + 1)
    (hnot : ∀ l, number + steps ≤ l → l < number + above → ¬ skipMultiplier ^ l ∣ count + 1)
    (hpoint : point.recorded hasPositions hasOffsets = points (count + 1))
    (hchild : Leads hasPositions hasOffsets points count childPointer number) :
    ∃ written, bufferLevels hasPositions hasOffsets point steps number childPointer levels =
        .ok written ∧
      List.Forall₂ (fun number level =>
        SkipLevel.Holds hasPositions hasOffsets points number (count + 1) level)
        (List.range' number above) written := by
  induction steps generalizing number above childPointer levels with
  | zero =>
    refine ⟨levels, rfl, ?_⟩
    refine List.forall₂_iff_get.mpr ⟨(List.forall₂_iff_get.mp hlevels).1, fun index hl hr => ?_⟩
    have hholds := (List.forall₂_iff_get.mp hlevels).2 index hl hr
    have hindex : index < above := by simpa using hl
    refine hholds.next_of_not_dvd ?_
    rw [List.get_eq_getElem, List.getElem_range', Nat.one_mul]
    exact hnot (number + index) (Nat.le_add_right number index) (Nat.add_lt_add_left hindex number)
  | succ steps ih =>
    cases above with
    | zero => exact absurd hsteps (Nat.not_succ_le_zero steps)
    | succ above =>
      rw [List.range'_succ] at hlevels ⊢
      cases hlevels with
      | @cons _ level _ rest hlevel hrest =>
        obtain ⟨entered, hentered, hholds, hleads⟩ := hlevel.next_of_dvd
          (hdvd number (Nat.le_refl _) (by omega)) hpoint hchild
        obtain ⟨written, hwritten, hall⟩ := ih hrest (Nat.le_of_succ_le_succ hsteps)
          (fun l hl hlast => hdvd l (by omega) (by omega))
          (fun l hl hlast => hnot l (by omega) (by omega)) hleads
        refine ⟨entered :: written, ?_, .cons hholds hall⟩
        rw [bufferLevels]
        refine Except.bind_ok_iff.mpr ⟨entered, hentered, ?_⟩
        exact Except.bind_ok_iff.mpr ⟨written, hwritten, rfl⟩

/-! ## How high a point climbs -/

theorem climb_le (room remaining : Nat) : climb room remaining ≤ room := by
  induction room generalizing remaining with
  | zero => exact Nat.le_refl 0
  | succ room ih =>
    rw [climb]
    split
    · exact Nat.succ_le_succ (ih _)
    · exact Nat.zero_le _

theorem dvd_of_le_climb {room remaining l : Nat} (hl : l ≤ climb room remaining) :
    skipMultiplier ^ l ∣ remaining := by
  induction room generalizing remaining l with
  | zero =>
    rw [Nat.le_zero.mp hl]
    exact Nat.one_dvd remaining
  | succ room ih =>
    cases l with
    | zero => exact Nat.one_dvd remaining
    | succ l =>
      rw [climb] at hl
      split at hl
      next hmod =>
        obtain ⟨quotient, rfl⟩ := Nat.dvd_of_mod_eq_zero hmod
        rw [Nat.mul_div_cancel_left _ (by decide)] at hl
        rw [pow_succ, Nat.mul_comm]
        exact Nat.mul_dvd_mul_left skipMultiplier (ih (Nat.le_of_succ_le_succ hl))
      next => exact absurd hl (Nat.not_succ_le_zero l)

theorem not_dvd_of_climb_lt {room remaining l : Nat} (hl : climb room remaining < l)
    (hroom : l ≤ room) : ¬ skipMultiplier ^ l ∣ remaining := by
  induction room generalizing remaining l with
  | zero => exact absurd (Nat.lt_of_lt_of_le hl hroom) (Nat.not_lt_zero _)
  | succ room ih =>
    cases l with
    | zero => exact absurd hl (Nat.not_lt_zero _)
    | succ l =>
      intro hdvd
      have hone : skipMultiplier ∣ remaining := (Dvd.intro_left _ (pow_succ ..).symm).trans hdvd
      rw [climb, if_pos (Nat.mod_eq_zero_of_dvd hone)] at hl
      refine ih (Nat.lt_of_succ_lt_succ hl) (Nat.le_of_succ_le_succ hroom) ?_
      rw [pow_succ] at hdvd
      exact (Nat.dvd_div_iff_mul_dvd hone).mpr (by rwa [Nat.mul_comm])

/-! ## What the writer holds -/

/-- All levels of a writer after so many points. -/
def SkipWriter.Holds (points : Nat → SkipPoint) (count : Nat) (writer : SkipWriter) : Prop :=
  List.Forall₂ (fun number level =>
      SkipLevel.Holds writer.hasPositions writer.hasOffsets points number count level)
    (List.range writer.levelCount) writer.levels

/-- A reset writer holds no entries, and compares with the start of the term. -/
theorem SkipWriter.reset_holds {points : Nat → SkipPoint}
    {documentPointer positionPointer payloadPointer : Int}
    (hlength : writer.levels.length = writer.levelCount)
    (hstart : points 0 = SkipPoint.recorded writer.hasPositions writer.hasOffsets
      ⟨0, documentPointer, positionPointer, payloadPointer, 0⟩) :
    (writer.reset documentPointer positionPointer payloadPointer).Holds points 0 := by
  refine List.forall₂_iff_get.mpr ⟨?_, fun index hl hr => ?_⟩
  · rw [SkipWriter.reset, List.length_range, List.length_map, hlength]
  · rw [List.get_eq_getElem, List.get_eq_getElem, List.getElem_range]
    simp only [SkipWriter.reset, List.getElem_map]
    refine ⟨?_, ?_⟩
    · rw [Nat.zero_div, levelBytes, SkipLevels.level_zero]
    · rw [Nat.zero_div, Nat.mul_zero, hstart]
      refine ⟨rfl, rfl, fun hpositions => ?_, fun hpositions hoffsets => ?_⟩
      · simp only [SkipPoint.recorded, if_pos hpositions]
      · simp only [SkipPoint.recorded, hpositions, hoffsets, Bool.and_self, if_true]

/-- Buffering the point of the next block. -/
theorem SkipWriter.Holds.bufferSkip {points : Nat → SkipPoint} {point : SkipPoint} (h : writer.Holds points count)
    (hlevels : 0 < writer.levelCount)
    (hpoint : point.recorded writer.hasPositions writer.hasOffsets = points (count + 1)) :
    ∃ levels, writer.bufferSkip (blockSize * (count + 1)) point = .ok { writer with levels } ∧
      SkipWriter.Holds points (count + 1) { writer with levels } := by
  have hblock : blockSize * (count + 1) / blockSize = count + 1 :=
    Nat.mul_div_cancel_left _ (by decide)
  have hroom := climb_le (writer.levelCount - 1) (count + 1)
  rw [SkipWriter.Holds, List.range_eq_range'] at h
  obtain ⟨levels, hwritten, hall⟩ := @bufferLevels_spec writer.hasPositions writer.hasOffsets
    points count (1 + climb (writer.levelCount - 1) (count + 1)) 0 writer.levelCount 0
    writer.levels point h (by omega)
    (fun l _ hl => @dvd_of_le_climb (writer.levelCount - 1) (count + 1) l (by omega))
    (fun l hl hlast =>
      @not_dvd_of_climb_lt (writer.levelCount - 1) (count + 1) l (by omega) (by omega))
    hpoint trivial
  refine ⟨levels, ?_, ?_⟩
  · rw [SkipWriter.bufferSkip, hblock]
    exact Except.bind_ok_iff.mpr ⟨levels, hwritten, rfl⟩
  · rw [SkipWriter.Holds, List.range_eq_range']
    exact hall

/-! ## The reader's number of levels -/

theorem levelsAbove_eq (remaining : Nat) : levelsAbove remaining = Nat.log skipMultiplier remaining := by
  induction remaining using Nat.strongRecOn with
  | ind remaining ih =>
    rw [levelsAbove]
    split
    next hle =>
      have hpos : 0 < remaining := Nat.lt_of_lt_of_le (by decide) hle
      rw [ih _ (Nat.div_lt_self hpos (by decide)), Nat.log_of_one_lt_of_le (by decide) hle]
    next hlt => exact (Nat.log_of_lt (Nat.not_le.mp hlt)).symm

section

variable (hskip : blockSize < documentFrequency)
include hskip

/-- The writer has a buffer for every level that the reader looks for. -/
theorem readerLevels_le (hdocuments : (documentFrequency : Int) ≤ documentCount.toInt) :
    readerLevels documentFrequency ≤ skipLevelCount documentCount := by
  have hcount : documentFrequency ≤ documentCount.toInt.toNat := by omega
  have hblocks : (documentFrequency - 1) / blockSize ≤ documentCount.toInt.toNat / blockSize :=
    Nat.div_le_div_right (by omega)
  have hlog := Nat.log_mono_right (b := skipMultiplier) hblocks
  rw [skipLevelCount, if_neg (by omega), levelsAbove_eq, readerLevels]
  omega

/-- A level the reader does not look for is empty, and the others are not. -/
theorem entryCount_pos
    (hlevel : level < readerLevels documentFrequency) : 0 < entryCount documentFrequency level := by
  have hblocks : (documentFrequency - 1) / blockSize ≠ 0 :=
    Nat.pos_iff_ne_zero.mp (Nat.div_pos (Nat.le_sub_one_of_lt hskip) (by decide))
  refine (SkipLevels.nonempty_iff (by decide) hblocks).mpr ?_
  rw [readerLevels] at hlevel
  omega

theorem entryCount_eq_zero
    (hlevel : readerLevels documentFrequency ≤ level) (hmaximum : level < maximumSkipLevels) :
    entryCount documentFrequency level = 0 := by
  have hblocks : (documentFrequency - 1) / blockSize ≠ 0 :=
    Nat.pos_iff_ne_zero.mp (Nat.div_pos (Nat.le_sub_one_of_lt hskip) (by decide))
  refine Nat.eq_zero_of_not_pos fun hpos => ?_
  have hlog := (SkipLevels.nonempty_iff (by decide) hblocks).mp hpos
  rw [readerLevels] at hlevel
  omega

end

/-! ## Reading the levels -/

/-- A level as the file has it. -/
def framed (body : Bytes) : Bytes :=
  if 0 < body.length then writeVlongSigned body.length ++ body else []

theorem writeLevel_eq (output : Bytes) (level : SkipLevel) :
    writeLevel output level = .ok (output ++ framed level.buffer) := by
  rw [writeLevel, framed]
  split
  · rw [writeVlong_of_nonneg (Int.natCast_nonneg _), Except.ok_bind_eq, append_assoc]
    rfl
  · rw [append_nil]
    rfl

theorem writeLevels_eq (levels : List SkipLevel) (output : Bytes) :
    levels.foldlM writeLevel output =
      .ok (output ++ levels.flatMap fun level => framed level.buffer) := by
  induction levels generalizing output with
  | nil => exact congrArg Except.ok (append_nil output).symm
  | cons level levels ih =>
    rw [List.foldlM_cons, writeLevel_eq, Except.ok_bind_eq, ih, List.flatMap_cons,
      append_assoc]

/-- The levels that are not empty are read back, highest first. -/
theorem readBodies_framed {bodies : List Bytes} (lowest : Bytes)
    (hnonempty : ∀ body ∈ bodies, 0 < body.length)
    (hlength : ∀ body ∈ bodies, body.length < 2 ^ 63) :
    readBodies bodies.length (bodies.reverse.flatMap framed ++ lowest) =
      some (lowest :: bodies) := by
  induction bodies using List.reverseRecOn with
  | nil => rfl
  | append_singleton bodies top ih =>
    have htop : top ∈ bodies ++ [top] := List.mem_append_right _ (List.mem_singleton_self top)
    have hbelow := ih (fun body hbody => hnonempty body (List.mem_append_left _ hbody))
      fun body hbody => hlength body (List.mem_append_left _ hbody)
    have hbytes : (bodies ++ [top]).reverse.flatMap framed ++ lowest =
        writeVlongSigned top.length ++ (top ++ (bodies.reverse.flatMap framed ++ lowest)) := by
      rw [List.reverse_append, List.flatMap_append, List.reverse_singleton,
        List.flatMap_singleton, framed, if_pos (hnonempty top htop)]
      simp only [append_assoc]
    rw [hbytes, length_append, List.length_singleton, readBodies,
      CodecInput.readVlong_writeVlongSigned (hlength top htop), bind_eq_bind,
      bind_some]
    dsimp only
    rw [CodecInput.readBytes_append, bind_eq_bind, bind_some]
    dsimp only
    rw [hbelow]
    rfl

/-! ## Reading a point -/

/-- Two points whose difference fits a signed number of 32 bits, in the document and in every
file. -/
structure SkipPoint.Near (previous next : SkipPoint) : Prop where
  document : previous.document ≤ next.document ∧
    next.document - previous.document ≤ maximumI32
  documentPointer : previous.documentPointer ≤ next.documentPointer ∧
    next.documentPointer - previous.documentPointer ≤ maximumI32
  positionPointer : previous.positionPointer ≤ next.positionPointer ∧
    next.positionPointer - previous.positionPointer ≤ maximumI32
  payloadPointer : previous.payloadPointer ≤ next.payloadPointer ∧
    next.payloadPointer - previous.payloadPointer ≤ maximumI32
  positionBufferUpto : 0 ≤ next.positionBufferUpto ∧ next.positionBufferUpto ≤ maximumI32

theorem readVint_of_nonneg {value : Int} (hlow : 0 ≤ value) (hhigh : value ≤ maximumI32)
    (rest : Bytes) : CodecInput.readVint (writeVint value ++ rest) = some (value, rest) := by
  obtain ⟨number, rfl⟩ := Int.eq_ofNat_of_zero_le hlow
  exact CodecInput.readVint_writeVint (Int.ofNat_le.mp hhigh) rest

theorem SkipPoint.recorded_recorded (point : SkipPoint) :
    (point.recorded hasPositions hasOffsets).recorded hasPositions hasOffsets =
      point.recorded hasPositions hasOffsets := by
  cases hasPositions with
  | false => rfl
  | true => cases hasOffsets <;> rfl

/-- The reader finds the next point from the one before it. -/
theorem readPoint_pointDifference {next : SkipPoint} (hnear : previous.Near next)
    (hprevious : previous.recorded hasPositions hasOffsets = previous)
    (hnext : next.recorded hasPositions hasOffsets = next) (rest : Bytes) :
    readPoint hasPositions hasOffsets previous
        (pointDifference hasPositions hasOffsets previous next ++ rest) = some (next, rest) := by
  have hdocument := readVint_of_nonneg (Int.sub_nonneg.mpr hnear.document.1) hnear.document.2
  have hdocumentPointer := readVint_of_nonneg (Int.sub_nonneg.mpr hnear.documentPointer.1)
    hnear.documentPointer.2
  have hpositionPointer := readVint_of_nonneg (Int.sub_nonneg.mpr hnear.positionPointer.1)
    hnear.positionPointer.2
  have hpayloadPointer := readVint_of_nonneg (Int.sub_nonneg.mpr hnear.payloadPointer.1)
    hnear.payloadPointer.2
  have hupto := readVint_of_nonneg hnear.positionBufferUpto.1 hnear.positionBufferUpto.2
  cases previous with
  | mk document documentPointer positionPointer payloadPointer upto =>
  cases next with
  | mk nextDocument nextDocumentPointer nextPositionPointer nextPayloadPointer nextUpto =>
  simp only [SkipPoint.recorded, SkipPoint.mk.injEq, true_and] at hprevious hnext
  cases hasPositions with
  | false =>
    simp only [Bool.false_eq_true, if_false, Bool.false_and] at hprevious hnext
    simp only [pointDifference, readPoint, append_assoc, hdocument, hdocumentPointer,
      Bool.false_eq_true, if_false, bind_eq_bind, bind_some, List.nil_append,
      Option.pure_def, Option.some.injEq, Prod.mk.injEq, SkipPoint.mk.injEq, and_true]
    omega
  | true =>
    cases hasOffsets with
    | false =>
      simp only [Bool.and_false, Bool.false_eq_true, if_false, if_true] at hprevious hnext
      simp only [pointDifference, readPoint, append_assoc, hdocument, hdocumentPointer,
        hpositionPointer, hupto, Bool.false_eq_true, if_false, if_true, bind_eq_bind,
        bind_some, List.nil_append, Option.pure_def, Option.some.injEq, Prod.mk.injEq,
        SkipPoint.mk.injEq, and_true]
      omega
    | true =>
      simp only [pointDifference, readPoint, append_assoc, hdocument, hdocumentPointer,
        hpositionPointer, hupto, hpayloadPointer, if_true, bind_eq_bind,
        bind_some, Option.pure_def, Option.some.injEq, Prod.mk.injEq,
        SkipPoint.mk.injEq, and_true]
      omega

/-- Any difference is read as the signed number of its low 32 bits. -/
theorem readVint_writeVint_bmod (value : Int) (rest : Bytes) :
    CodecInput.readVint (writeVint value ++ rest) = some (value.bmod (2 ^ 32), rest) := by
  have hlow := Int.emod_nonneg value (b := 2 ^ 32) (by decide)
  have hhigh := Int.emod_lt_of_pos value (b := 2 ^ 32) (by decide)
  have hread := @Varint.read_groups 4 (value % 2 ^ 32).toNat (by omega) rest
  rw [CodecInput.readVint, writeVint, hread, bind_some, Int.bmod]
  dsimp only
  split
  · rw [if_pos (by omega), Int.toNat_of_nonneg hlow]
    rfl
  · rw [if_pos (by omega), if_neg (by omega), Int.toNat_of_nonneg hlow]
    rfl

/-- The reader's next point is off in a file where the difference does not fit. -/
theorem readPoint_positionPointer {next found : SkipPoint} {rest rest' : Bytes}
    (h : readPoint true false previous (pointDifference true false previous next ++ rest) =
      some (found, rest')) :
    found.positionPointer = previous.positionPointer +
      (next.positionPointer - previous.positionPointer).bmod (2 ^ 32) := by
  simp only [pointDifference, readPoint, append_assoc, readVint_writeVint_bmod,
    Bool.false_eq_true, if_false, if_true, bind_eq_bind, bind_some,
    Option.pure_def, Option.some.injEq, Prod.mk.injEq] at h
  rw [← h.1]

/-! ## Reading the whole list -/

theorem length_pointDifference_le (hasPositions hasOffsets : Bool) (previous next : SkipPoint) :
    (pointDifference hasPositions hasOffsets previous next).length ≤ 25 := by
  have hdocument := length_writeVint_le (next.document - previous.document)
  have hdocumentPointer := length_writeVint_le (next.documentPointer - previous.documentPointer)
  have hpositionPointer := length_writeVint_le (next.positionPointer - previous.positionPointer)
  have hupto := length_writeVint_le next.positionBufferUpto
  have hpayloadPointer := length_writeVint_le (next.payloadPointer - previous.payloadPointer)
  rw [pointDifference]
  cases hasPositions with
  | false =>
    simp only [Bool.false_eq_true, if_false, append_nil, length_append]
    omega
  | true =>
    cases hasOffsets with
    | false =>
      simp only [Bool.false_eq_true, if_false, if_true, append_nil, length_append]
      omega
    | true =>
      simp only [if_true, length_append]
      omega

theorem pointDifference_ne_nil (hasPositions hasOffsets : Bool) (previous next : SkipPoint) :
    pointDifference hasPositions hasOffsets previous next ≠ [] := by
  rw [pointDifference]
  exact List.append_ne_nil_of_left_ne_nil (Varint.groups_ne_nil 4 _) _

theorem length_levelBytes_le (hasPositions hasOffsets : Bool) (points : Nat → SkipPoint)
    (level count : Nat) :
    (levelBytes hasPositions hasOffsets points level count).length ≤ 34 * count := by
  refine SkipLevels.length_level_le _ _ _ _ level count fun index _ => ?_
  have hdifference := length_pointDifference_le hasPositions hasOffsets
    (points (skipMultiplier ^ level * index))
    (points (skipMultiplier ^ level * (index + 1)))
  rw [SkipLevels.entry, length_append, SkipLevels.linked]
  rw [SkipLevels.difference]
  cases child skipMultiplier (pointDifference hasPositions hasOffsets)
    (fun target => writeVlongSigned target) points level index with
  | none => exact Nat.le_trans hdifference (by decide)
  | some target =>
    have hlink := length_writeVlongSigned_le target
    simp only [Option.map_some, Option.getD_some]
    omega

theorem levelBytes_length_pos (hcount : 0 < count) :
    0 < (levelBytes hasPositions hasOffsets points level count).length := by
  cases count with
  | zero => exact absurd hcount (Nat.lt_irrefl 0)
  | succ count =>
    have hdifference := List.length_pos_of_ne_nil (pointDifference_ne_nil hasPositions hasOffsets
      (points (skipMultiplier ^ level * count)) (points (skipMultiplier ^ level * (count + 1))))
    rw [levelBytes, level_succ, length_append, length_append,
      SkipLevels.difference]
    omega

/-- What the reader finds on a level. -/
abbrev skipEntry (hasPositions hasOffsets : Bool) (points : Nat → SkipPoint)
    (level index : Nat) : SkipLevels.Entry SkipPoint :=
  SkipLevels.entryAt skipMultiplier (pointDifference hasPositions hasOffsets)
    (fun target => writeVlongSigned target) points level index

/-- A level of near points is read back. -/
theorem readEntries_levelBytes (hcount : skipMultiplier * count < 2 ^ 32)
    (hrecorded : ∀ number, (points number).recorded hasPositions hasOffsets = points number)
    (hnear : ∀ index < count, (points (skipMultiplier ^ level * index)).Near
      (points (skipMultiplier ^ level * (index + 1)))) :
    SkipLevels.readEntries (readPoint hasPositions hasOffsets) CodecInput.readVlong (level != 0)
        count 0 (points 0) (levelBytes hasPositions hasOffsets points level count) =
      some ((List.range count).map (skipEntry hasPositions hasOffsets points level)) := by
  refine SkipLevels.readEntries_level level count (fun index hindex rest => ?_)
    fun index hindex target htarget rest => ?_
  · exact readPoint_pointDifference (hnear index hindex) (hrecorded _) (hrecorded _) rest
  · refine CodecInput.readVlong_writeVlongSigned ?_ rest
    cases level with
    | zero => exact absurd htarget nofun
    | succ level =>
      have hlevel := length_levelBytes_le hasPositions hasOffsets points level
        (SkipLevels.below skipMultiplier index)
      have hdifference := length_pointDifference_le hasPositions hasOffsets
        (points (skipMultiplier ^ level * SkipLevels.below skipMultiplier index))
        (points (skipMultiplier ^ level * (SkipLevels.below skipMultiplier index + 1)))
      have hindexBelow : SkipLevels.below skipMultiplier index ≤ skipMultiplier * count := by
        simp only [SkipLevels.below, skipMultiplier] at hindex ⊢
        omega
      rw [child, Option.some.injEq, SkipLevels.ends_eq, SkipLevels.difference] at htarget
      rw [levelBytes] at hlevel
      omega

theorem mapM_map {α β γ : Type} {f : β → Option γ} {g : α → β} {h : α → γ} {list : List α}
    (hall : ∀ x ∈ list, f (g x) = some (h x)) : (list.map g).mapM f = some (list.map h) := by
  induction list with
  | nil => rfl
  | cons x list ih =>
    rw [List.map_cons, List.mapM_cons, hall x List.mem_cons_self,
      ih fun y hy => hall y (List.mem_cons_of_mem x hy)]
    rfl

/-- The buffers of a writer, level by level. -/
theorem SkipWriter.Holds.buffers {points : Nat → SkipPoint} (h : writer.Holds points count) :
    writer.levels.map SkipLevel.buffer = (List.range writer.levelCount).map fun level =>
      levelBytes writer.hasPositions writer.hasOffsets points level
        (count / skipMultiplier ^ level) := by
  rw [← List.forall₂_eq_eq_eq, List.forall₂_map_left_iff, List.forall₂_map_right_iff]
  exact List.Forall₂.imp (fun _ _ hlevel => hlevel.buffer) h.flip

/-- The levels above the lowest that the reader looks for, and the empty ones above them. -/
theorem range_levels {levelCount levels : Nat} (hpos : 0 < levels) (hle : levels ≤ levelCount) :
    List.range levelCount =
      0 :: (List.range' 1 (levels - 1) ++ List.range' levels (levelCount - levels)) := by
  have hlower : List.range' 1 (levels - 1) ++ List.range' levels (levelCount - levels) =
      List.range' 1 (levelCount - 1) := by
    have happend := List.range'_append_1 (s := 1) (m := levels - 1) (n := levelCount - levels)
    rwa [Nat.add_sub_cancel' hpos, show levels - 1 + (levelCount - levels) = levelCount - 1 by
      omega] at happend
  rw [hlower, List.range_eq_range', ← Nat.sub_add_cancel (Nat.lt_of_lt_of_le hpos hle),
    List.range'_succ]
  rfl

/-- What a writer that holds the points of a term writes out, and the reader finds again. -/
theorem SkipWriter.Holds.reads {points : Nat → SkipPoint}
    (h : writer.Holds points ((documentFrequency - 1) / blockSize))
    (hlevels : writer.levelCount = skipLevelCount documentCount)
    (hskip : blockSize < documentFrequency)
    (hdocuments : (documentFrequency : Int) ≤ documentCount.toInt)
    (hrecorded : ∀ number, (points number).recorded writer.hasPositions writer.hasOffsets =
      points number)
    (hnear : ∀ level index, index < entryCount documentFrequency level →
      (points (skipMultiplier ^ level * index)).Near
        (points (skipMultiplier ^ level * (index + 1)))) (output : Bytes) :
    ∃ list, writer.writeSkip output = .ok (output.length, output ++ list) ∧
      readSkipList writer.hasPositions writer.hasOffsets documentFrequency (points 0) list =
        some ((List.range (readerLevels documentFrequency)).map fun level =>
          (List.range (entryCount documentFrequency level)).map
            (skipEntry writer.hasPositions writer.hasOffsets points level)) := by
  let body := fun level => levelBytes writer.hasPositions writer.hasOffsets points level
    (entryCount documentFrequency level)
  have hcountLt : ∀ level, skipMultiplier * entryCount documentFrequency level < 2 ^ 32 := by
    intro level
    have hfrequency := documentCount.toInt_lt
    have hblocks : (documentFrequency - 1) / blockSize < 2 ^ 25 :=
      (Nat.div_lt_iff_lt_mul (by decide)).mpr (by simp only [blockSize]; omega)
    have hcount := Nat.div_le_self ((documentFrequency - 1) / blockSize) (skipMultiplier ^ level)
    simp only [entryCount, skipMultiplier] at hcount ⊢
    omega
  have hlength : ∀ level, (body level).length < 2 ^ 63 := by
    intro level
    have hle := length_levelBytes_le writer.hasPositions writer.hasOffsets points level
      (entryCount documentFrequency level)
    have hlt := hcountLt level
    simp only [skipMultiplier] at hlt
    simp only [body]
    omega
  have hpos : 0 < readerLevels documentFrequency := by
    simp only [readerLevels, maximumSkipLevels]
    omega
  have hle : readerLevels documentFrequency ≤ writer.levelCount := by
    rw [hlevels]
    exact readerLevels_le hskip hdocuments
  have hmaximum : writer.levelCount ≤ maximumSkipLevels := by
    rw [hlevels, skipLevelCount]
    split
    · decide
    · exact Nat.min_le_right _ _
  let upper := (List.range' 1 (readerLevels documentFrequency - 1)).map body
  have hbuffers : writer.levels.map SkipLevel.buffer =
      body 0 :: ((List.range' 1 (readerLevels documentFrequency - 1)).map body ++
        (List.range' (readerLevels documentFrequency)
          (writer.levelCount - readerLevels documentFrequency)).map body) := by
    rw [h.buffers, range_levels hpos hle, List.map_cons, List.map_append]
    rfl
  -- The levels that the reader does not look for are not in the file.
  have hempty : ((List.range' (readerLevels documentFrequency)
      (writer.levelCount - readerLevels documentFrequency)).map body).reverse.flatMap framed =
      [] := by
    refine List.flatMap_eq_nil_iff.mpr fun bytes hbytes => ?_
    obtain ⟨level, hlevel, rfl⟩ := mem_map.mp (List.mem_reverse.mp hbytes)
    obtain ⟨hlow, hhigh⟩ := List.mem_range'_1.mp hlevel
    have hnone := entryCount_eq_zero hskip hlow (by omega)
    simp only [body, hnone, levelBytes, SkipLevels.level_zero]
    rfl
  have hread : readBodies upper.length (upper.reverse.flatMap framed ++ body 0) =
      some (body 0 :: upper) := by
    refine readBodies_framed (body 0) (fun bytes hbytes => ?_) fun bytes hbytes => ?_
    · obtain ⟨level, hlevel, rfl⟩ := mem_map.mp hbytes
      have hlast := (List.mem_range'_1.mp hlevel).2
      exact levelBytes_length_pos (entryCount_pos hskip (by omega))
    · obtain ⟨level, hlevel, rfl⟩ := mem_map.mp hbytes
      exact hlength level
  have hall : body 0 :: upper = (List.range (readerLevels documentFrequency)).map body := by
    have hrange := range_levels hpos (Nat.le_refl (readerLevels documentFrequency))
    rw [hrange, Nat.sub_self, List.map_cons, List.range'_zero, append_nil]
  refine ⟨upper.reverse.flatMap framed ++ body 0, ?_, ?_⟩
  · cases hwriter : writer.levels with
    | nil =>
      rw [hwriter] at hbuffers
      cases hbuffers
    | cons lowest above =>
      rw [hwriter, List.map_cons, List.cons.injEq] at hbuffers
      obtain ⟨hlowest, habove⟩ := hbuffers
      have hframes : above.reverse.flatMap (fun level => framed level.buffer) =
          upper.reverse.flatMap framed := by
        rw [← List.flatMap_map, List.map_reverse, habove, List.reverse_append,
          List.flatMap_append, hempty, List.nil_append]
      rw [SkipWriter.writeSkip, hwriter, List.tail_cons, writeLevels_eq, Except.ok_bind_eq,
        hframes, List.headD_cons, hlowest, append_assoc]
      rfl
  · have hupper : readerLevels documentFrequency - 1 = upper.length := by
      rw [List.length_map, List.length_range']
    have hindexed : ((List.range (readerLevels documentFrequency)).map body).zipIdx =
        (List.range (readerLevels documentFrequency)).map fun level => (body level, level) := by
      refine List.ext_getElem (by simp) fun index hl hr => ?_
      simp
    rw [readSkipList, hupper, hread, bind_eq_bind, bind_some, hall, hindexed]
    refine mapM_map fun level _ => ?_
    exact readEntries_levelBytes (hcountLt level) hrecorded (hnear level)

/-! ## The shape of a skip list -/

/-- The levels of a skip list whose level `l` has every `8 ^ l`-th point, each entry linked to
the entry of its point on the level below. -/
structure SkipShape (documentFrequency : Nat) (points : Nat → SkipPoint)
    (levels : List (List (SkipLevels.Entry SkipPoint))) : Prop where
  levelCount : levels.length = readerLevels documentFrequency
  nonempty : ∀ entries ∈ levels, entries ≠ []
  recorded : ∀ level entries, levels[level]? = some entries →
    entries.map SkipLevels.Entry.point =
      (List.range (entryCount documentFrequency level)).map fun index =>
        points (skipMultiplier ^ level * (index + 1))
  lowest : ∀ entries, levels[0]? = some entries → ∀ entry ∈ entries, entry.child = none
  linked : ∀ level lower upper, levels[level]? = some lower → levels[level + 1]? = some upper →
    ∀ index entry, upper[index]? = some entry →
      ∃ below, lower[SkipLevels.below skipMultiplier index]? = some below ∧
        below.point = entry.point ∧ entry.child = some below.ends

theorem entryCount_succ (documentFrequency level : Nat) :
    entryCount documentFrequency (level + 1) =
      entryCount documentFrequency level / skipMultiplier := by
  rw [entryCount, entryCount, pow_succ, Nat.div_div_eq_div_mul _ (skipMultiplier ^ level)]

/-- The levels that the writer's list is read as have the shape. -/
theorem skipShape_skipEntry (hskip : blockSize < documentFrequency) :
    SkipShape documentFrequency points
      ((List.range (readerLevels documentFrequency)).map fun level =>
        (List.range (entryCount documentFrequency level)).map
          (skipEntry hasPositions hasOffsets points level)) := by
  have hlevel : ∀ level entries,
      ((List.range (readerLevels documentFrequency)).map fun level =>
        (List.range (entryCount documentFrequency level)).map
          (skipEntry hasPositions hasOffsets points level))[level]? = some entries →
      entries = (List.range (entryCount documentFrequency level)).map
        (skipEntry hasPositions hasOffsets points level) := by
    intro level entries hentries
    obtain ⟨number, hnumber, rfl⟩ := Option.map_eq_some_iff.mp (List.getElem?_map ▸ hentries)
    obtain ⟨hlt, heq⟩ := List.getElem?_eq_some_iff.mp hnumber
    rw [List.getElem_range] at heq
    rw [heq]
  refine ⟨?_, fun entries hentries => ?_, fun level entries hentries => ?_,
    fun entries hentries entry hentry => ?_,
    fun level lower upper hlower hupper index entry hentry => ?_⟩
  · rw [List.length_map, List.length_range]
  · obtain ⟨level, hmem, rfl⟩ := mem_map.mp hentries
    have hpos := entryCount_pos hskip (List.mem_range.mp hmem)
    refine List.ne_nil_of_length_pos ?_
    rwa [List.length_map, List.length_range]
  · rw [hlevel level entries hentries, List.map_map]
    rfl
  · rw [hlevel 0 entries hentries] at hentry
    obtain ⟨index, _, rfl⟩ := mem_map.mp hentry
    rfl
  · rw [hlevel (level + 1) upper hupper] at hentry
    obtain ⟨number, hnumber, rfl⟩ := Option.map_eq_some_iff.mp (List.getElem?_map ▸ hentry)
    obtain ⟨hlt, heq⟩ := List.getElem?_eq_some_iff.mp hnumber
    rw [List.getElem_range] at heq
    subst heq
    rw [List.length_range, entryCount_succ] at hlt
    have hbelow : SkipLevels.below skipMultiplier index < entryCount documentFrequency level := by
      simp only [SkipLevels.below, skipMultiplier] at hlt ⊢
      omega
    refine ⟨skipEntry hasPositions hasOffsets points level (SkipLevels.below skipMultiplier index),
      ?_, ?_, rfl⟩
    · rw [hlevel level lower hlower, List.getElem?_map, List.getElem?_range hbelow]
      rfl
    · exact congrArg points (SkipLevels.point_below skipMultiplier (by decide) level index)

end Postings

end Froe
