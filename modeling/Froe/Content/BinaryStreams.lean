import Froe.Content.BinaryEqual

/-!
# Binary streams

An opened stream has a position, which reads advance and seeks set, and keeps the
block that it resolved last.  The kept block changes nothing (`readChunk_spec`): a
stream reads what `BinaryStream` reads.  Over a binary whose content can be read, every
sequence of seeks and reads yields slices of the content (`streams_read_slices`).
-/

namespace Froe

open Except (bind_ok_iff)

/-! ## Opened streams -/

/-- Where a seek goes. -/
inductive SeekFrom where
  | start (offset : UInt64)
  | fromEnd (offset : Int64)
  | current (offset : Int64)

def SeekFrom.absolute (length position : Nat) : SeekFrom → Int
  | .start offset => offset.toNat
  | .fromEnd offset => length + offset.toInt
  | .current offset => position + offset.toInt

/-- A reader over an inline binary, with the block that it resolved last. -/
structure OpenedStream where
  stream : BinaryStream
  resolvedBlock : Option (Nat × RecordIdentifier)

namespace OpenedStream

variable (provider : SegmentProvider)

/-- A stream without a block in memory. -/
def opened (stream : BinaryStream) : OpenedStream := ⟨stream, none⟩

/-- The position behind some bytes that were read. -/
def advance (opened : OpenedStream) (count : Nat) : OpenedStream :=
  { opened with stream := opened.stream.skip count }

/-- The block with an index, which is kept. -/
def resolveBlockIdentifier (opened : OpenedStream) (listIdentifier : RecordIdentifier)
    (blockCount blockIndex : Nat) : Result RecordIdentifier × OpenedStream :=
  let resolve :=
    match uncountedListEntry provider listIdentifier blockCount blockIndex with
    | .ok identifier => (.ok identifier, { opened with resolvedBlock := some (blockIndex, identifier) })
    | .error error => (.error error, opened)
  match opened.resolvedBlock with
  | some (resolvedIndex, identifier) =>
    if resolvedIndex = blockIndex then (.ok identifier, opened) else resolve
  | none => resolve

/-- Reads bytes of a record and goes on behind them. -/
def readRecord (opened : OpenedStream) (record : RecordIdentifier) (offset length : Nat) :
    Result Bytes × OpenedStream :=
  let read : Result Bytes := do
    let view ← provider record.segment
    view.readBytes record.recordNumber offset length
  match read with
  | .ok bytes => (.ok bytes, opened.advance bytes.length)
  | .error error => (.error error, opened)

/-- Reads at most this many bytes. -/
def readChunk (opened : OpenedStream) (capacity : Nat) : Result Bytes × OpenedStream :=
  let position := opened.stream.position
  if capacity = 0 ∨ position = opened.stream.length then (.ok [], opened)
  else
    let maximumRead := min (opened.stream.length - position) capacity
    match opened.stream.source with
    | .direct recordIdentifier contentOffset =>
      opened.readRecord provider recordIdentifier (contentOffset + position) maximumRead
    | .blocks listIdentifier blockCount =>
      let blockOffset := position % blockSize
      match opened.resolveBlockIdentifier provider listIdentifier blockCount
          (position / blockSize) with
      | (.ok block, opened) =>
        opened.readRecord provider block blockOffset (min maximumRead (blockSize - blockOffset))
      | (.error error, opened) => (.error error, opened)

/-- The position of a seek.  A position before the start or past the end is refused. -/
def seekPosition (opened : OpenedStream) (position : SeekFrom) : Result Nat :=
  let absolute := position.absolute opened.stream.length opened.stream.position
  if absolute < 0 ∨ 2 ^ 64 ≤ absolute then
    .error (.inputOutput "seeking to a negative position in a binary value")
  else if opened.stream.length < absolute.toNat then
    .error (.inputOutput s!"seeking to {absolute.toNat} in a binary value of {opened.stream.length} bytes")
  else .ok absolute.toNat

/-- Seeks, unless the position is outside. -/
def seek (opened : OpenedStream) (position : SeekFrom) : Result Nat × OpenedStream :=
  match opened.seekPosition position with
  | .ok position =>
    (.ok position, { opened with stream := { opened.stream with position := position } })
  | .error error => (.error error, opened)

/-! ## Sequences of calls -/

/-- A call on a stream. -/
inductive Call where
  | seek (position : SeekFrom)
  | readChunk (capacity : Nat)

/-- What a call returns. -/
inductive Outcome where
  | sought (result : Result Nat)
  | read (result : Result Bytes)

/-- One call of a stream. -/
def call (opened : OpenedStream) : Call → Outcome × OpenedStream
  | .seek position =>
    let (result, opened) := opened.seek position
    (.sought result, opened)
  | .readChunk capacity =>
    let (result, opened) := opened.readChunk provider capacity
    (.read result, opened)

/-- Makes calls one after another. -/
def run (opened : OpenedStream) : List Call → List Outcome × OpenedStream
  | [] => ([], opened)
  | call :: calls =>
    let (outcome, opened) := opened.call provider call
    let (outcomes, opened) := opened.run calls
    (outcome :: outcomes, opened)

/-! ## The block that is kept -/

variable {provider}

/-- The kept block is the one that its index resolves to. -/
def Coherent (provider : SegmentProvider) (opened : OpenedStream) : Prop :=
  ∀ listIdentifier blockCount, opened.stream.source = .blocks listIdentifier blockCount →
    ∀ index identifier, opened.resolvedBlock = some (index, identifier) →
      uncountedListEntry provider listIdentifier blockCount index = .ok identifier

theorem coherent_opened (stream : BinaryStream) : (opened stream).Coherent provider := nofun

variable {opened : OpenedStream}

theorem resolve_spec (h : opened.Coherent provider)
    {listIdentifier : RecordIdentifier} {blockCount : Nat}
    (hsource : opened.stream.source = .blocks listIdentifier blockCount) (index : Nat) :
    ∃ after : OpenedStream,
      opened.resolveBlockIdentifier provider listIdentifier blockCount index =
        (uncountedListEntry provider listIdentifier blockCount index, after) ∧
      after.stream = opened.stream ∧ after.Coherent provider := by
  have hanew : ∃ after : OpenedStream,
      (match uncountedListEntry provider listIdentifier blockCount index with
        | .ok identifier =>
          (.ok identifier, { opened with resolvedBlock := some (index, identifier) })
        | .error error => (.error error, opened)) =
        (uncountedListEntry provider listIdentifier blockCount index, after) ∧
      after.stream = opened.stream ∧ after.Coherent provider := by
    cases hentry : uncountedListEntry provider listIdentifier blockCount index with
    | error error => exact ⟨opened, rfl, rfl, h⟩
    | ok identifier =>
      refine ⟨_, rfl, rfl, fun list count hlist i found hfound => ?_⟩
      obtain ⟨rfl, rfl⟩ := BinaryStreamSource.blocks.inj (hsource.symm.trans hlist)
      obtain ⟨rfl, rfl⟩ := Prod.mk.inj (Option.some.inj hfound)
      exact hentry
  rw [resolveBlockIdentifier]
  cases hkept : opened.resolvedBlock with
  | none => exact hanew
  | some kept =>
    obtain ⟨keptIndex, identifier⟩ := kept
    dsimp only
    split
    · rename_i hindex
      subst hindex
      rw [h _ _ hsource _ _ hkept]
      exact ⟨opened, rfl, rfl, h⟩
    · exact hanew

def behind (stream : BinaryStream) : Result Bytes → BinaryStream
  | .ok bytes => stream.skip bytes.length
  | .error _ => stream

section

variable (h : opened.Coherent provider)
include h

theorem readRecord_spec (record : RecordIdentifier) (offset length : Nat) :
    ∃ after : OpenedStream,
      opened.readRecord provider record offset length =
        ((do
          let view ← provider record.segment
          view.readBytes record.recordNumber offset length), after) ∧
      after.stream = behind opened.stream (do
        let view ← provider record.segment
        view.readBytes record.recordNumber offset length) ∧
      after.Coherent provider := by
  rw [readRecord]
  cases (do
    let view ← provider record.segment
    view.readBytes record.recordNumber offset length : Result Bytes) with
  | error error => exact ⟨opened, rfl, rfl, h⟩
  | ok bytes => exact ⟨_, rfl, rfl, h⟩

/-- A read returns what the stream reads without a kept block. -/
theorem readChunk_spec (capacity : Nat) :
    ∃ after : OpenedStream,
      opened.readChunk provider capacity = (opened.stream.readChunk provider capacity, after) ∧
      after.stream = behind opened.stream (opened.stream.readChunk provider capacity) ∧
      after.Coherent provider := by
  rw [readChunk, BinaryStream.readChunk]
  dsimp only
  split
  · exact ⟨opened, rfl, rfl, h⟩
  · cases hsource : opened.stream.source with
    | direct record contentOffset => exact readRecord_spec h record _ _
    | blocks listIdentifier blockCount =>
      obtain ⟨resolved, hresolved, hstream, hcoherent⟩ :=
        resolve_spec h hsource (opened.stream.position / blockSize)
      dsimp only
      rw [hresolved]
      cases uncountedListEntry provider listIdentifier blockCount
        (opened.stream.position / blockSize) with
      | error error => exact ⟨resolved, rfl, hstream, hcoherent⟩
      | ok block =>
        rw [← hstream]
        exact readRecord_spec hcoherent block _ _

/-- A failed read leaves the position. -/
theorem position_of_failed {capacity : Nat}
    {error : Error} (hfailed : (opened.readChunk provider capacity).1 = .error error) :
    (opened.readChunk provider capacity).2.stream = opened.stream := by
  obtain ⟨after, hread, hstream, -⟩ := readChunk_spec h capacity
  rw [hread] at hfailed ⊢
  dsimp only at hfailed ⊢
  rw [hstream, hfailed]
  rfl

end

end OpenedStream

/-! ## What a stream covers -/

namespace SegmentView

variable {view : SegmentView} {recordNumber : UInt32} {offset length : Nat} {bytes : Bytes}

theorem readBytes_iff :
    view.readBytes recordNumber offset length = .ok bytes ↔
      ∃ position, view.recordPosition recordNumber = .ok position ∧
        position + offset + length ≤ view.bytes.length ∧
        bytes = view.bytes.slice (position + offset) length := by
  rw [readBytes, bind_ok_iff]
  refine exists_congr fun position => and_congr_right fun _ => ?_
  constructor
  · intro h
    split at h
    · rename_i found hfound
      obtain rfl := Except.ok.inj h
      rw [Bytes.range?] at hfound
      split at hfound
      · rename_i hrange
        rw [Nat.add_sub_cancel_left] at hfound
        exact ⟨hrange.2, (Option.some.inj hfound).symm⟩
      · cases hfound
    · cases h
  · rintro ⟨hrange, rfl⟩
    rw [Bytes.range?_of_le hrange]

theorem readBytes_part (h : view.readBytes recordNumber offset length = .ok bytes) {start count : Nat}
    (hpart : start + count ≤ length) :
    view.readBytes recordNumber (offset + start) count = .ok (bytes.slice start count) := by
  obtain ⟨position, hposition, hrange, rfl⟩ := readBytes_iff.mp h
  refine readBytes_iff.mpr ⟨position, hposition, by omega, ?_⟩
  rw [Bytes.slice_slice hpart, Nat.add_assoc]

/-- Two reads, one behind the other, are one. -/
theorem readBytes_join {more : Nat}
    {rest : Bytes} (h : view.readBytes recordNumber offset length = .ok bytes)
    (hrest : view.readBytes recordNumber (offset + length) more = .ok rest) :
    view.readBytes recordNumber offset (length + more) = .ok (bytes ++ rest) := by
  obtain ⟨position, hposition, hrange, rfl⟩ := readBytes_iff.mp h
  obtain ⟨position', hposition', hrange', rfl⟩ := readBytes_iff.mp hrest
  cases hposition.symm.trans hposition'
  refine readBytes_iff.mpr ⟨position, hposition, by omega, ?_⟩
  rw [Bytes.slice, Bytes.slice, Bytes.slice, List.take_add, List.drop_drop, ← Nat.add_assoc]

end SegmentView

namespace BinaryStream

variable {provider : SegmentProvider}

/-- Reads from a position of a value.  A read of blocks is in one block. -/
def readRange (provider : SegmentProvider) (source : BinaryStreamSource) (position length : Nat) :
    Result Bytes :=
  match source with
  | .direct recordIdentifier contentOffset => do
    let view ← provider recordIdentifier.segment
    view.readBytes recordIdentifier.recordNumber (contentOffset + position) length
  | .blocks listIdentifier blockCount => do
    let block ← uncountedListEntry provider listIdentifier blockCount (position / blockSize)
    let view ← provider block.segment
    view.readBytes block.recordNumber (position % blockSize) length

/-- Whether a range is in one piece of a value. -/
def OnePiece : BinaryStreamSource → Nat → Nat → Prop
  | .direct .., _, _ => True
  | .blocks .., position, length => position % blockSize + length ≤ blockSize

/-- The number of bytes that a read returns. -/
def chunkLength (stream : BinaryStream) (capacity : Nat) : Nat :=
  match stream.source with
  | .direct .. => min (stream.length - stream.position) capacity
  | .blocks .. => min (min (stream.length - stream.position) capacity)
      (blockSize - stream.position % blockSize)

variable {stream : BinaryStream} {source : BinaryStreamSource} {position length : Nat}
  {bytes : Bytes} {identifier : RecordIdentifier}

theorem readChunk_eq {capacity : Nat} (hcapacity : capacity ≠ 0)
    (hbefore : stream.position ≠ stream.length) :
    stream.readChunk provider capacity =
      readRange provider stream.source stream.position (stream.chunkLength capacity) := by
  have hgo : ¬ (capacity = 0 ∨ stream.position = stream.length) := by
    rintro (h | h)
    · exact hcapacity h
    · exact hbefore h
  rw [readChunk, if_neg hgo, readRange.eq_def, chunkLength]
  cases stream.source with
  | direct => rfl
  | blocks => rfl

theorem chunkLength_bounds (stream : BinaryStream) (capacity : Nat) :
    stream.chunkLength capacity ≤ stream.length - stream.position ∧
      stream.chunkLength capacity ≤ capacity ∧
      (0 < capacity → stream.position < stream.length → 0 < stream.chunkLength capacity) := by
  have hoffset : stream.position % blockSize < blockSize := Nat.mod_lt _ (by decide)
  rw [chunkLength]
  cases stream.source with
  | direct =>
    dsimp only
    omega
  | blocks =>
    dsimp only
    omega

theorem onePiece_chunk (stream : BinaryStream) (capacity : Nat) :
    OnePiece stream.source stream.position (stream.chunkLength capacity) := by
  have hoffset : stream.position % blockSize < blockSize := Nat.mod_lt _ (by decide)
  rw [chunkLength]
  cases stream.source with
  | direct => trivial
  | blocks =>
    rw [OnePiece]
    dsimp only
    omega

theorem readRange_part (h : readRange provider source position length = .ok bytes)
    (hpiece : OnePiece source position length) {start count : Nat} (hcount : 0 < count)
    (hpart : start + count ≤ length) :
    readRange provider source (position + start) count = .ok (bytes.slice start count) := by
  cases source with
  | direct record contentOffset =>
    obtain ⟨view, hview, hread⟩ := bind_ok_iff.mp h
    refine bind_ok_iff.mpr ⟨view, hview, ?_⟩
    rw [← Nat.add_assoc]
    exact SegmentView.readBytes_part hread hpart
  | blocks list blockCount =>
    have hpiece : position % blockSize + length ≤ blockSize := hpiece
    obtain ⟨block, hblock, h⟩ := bind_ok_iff.mp h
    obtain ⟨view, hview, hread⟩ := bind_ok_iff.mp h
    have hsize : blockSize = 4096 := rfl
    have hindex : (position + start) / blockSize = position / blockSize := by
      rw [hsize] at hpiece ⊢
      omega
    have hoffset : (position + start) % blockSize = position % blockSize + start := by
      rw [hsize] at hpiece ⊢
      omega
    rw [readRange, hindex, hoffset]
    exact bind_ok_iff.mpr ⟨block, hblock, bind_ok_iff.mpr
      ⟨view, hview, SegmentView.readBytes_part hread hpart⟩⟩

theorem length_readRange
    (h : readRange provider source position length = .ok bytes) : bytes.length = length := by
  cases source with
  | direct =>
    obtain ⟨view, -, hread⟩ := bind_ok_iff.mp h
    exact length_readBytes hread
  | blocks =>
    obtain ⟨block, -, h⟩ := bind_ok_iff.mp h
    obtain ⟨view, -, hread⟩ := bind_ok_iff.mp h
    exact length_readBytes hread

theorem readRange_join {record : RecordIdentifier} {contentOffset more : Nat} {rest : Bytes}
    (h : readRange provider (.direct record contentOffset) position length = .ok bytes)
    (hrest : readRange provider (.direct record contentOffset) (position + length) more = .ok rest) :
    readRange provider (.direct record contentOffset) position (length + more) =
      .ok (bytes ++ rest) := by
  obtain ⟨view, hview, hread⟩ := bind_ok_iff.mp h
  obtain ⟨view', hview', hreadRest⟩ := bind_ok_iff.mp hrest
  cases hview.symm.trans hview'
  rw [← Nat.add_assoc] at hreadRest
  exact bind_ok_iff.mpr ⟨view, hview, SegmentView.readBytes_join hread hreadRest⟩

theorem slice_append_straddle {first second : Bytes} {start : Nat}
    (hstart : start ≤ first.length) (hend : first.length ≤ start + length) :
    (first ++ second).slice start length =
      first.slice start (first.length - start) ++
        second.slice 0 (length - (first.length - start)) := by
  have hlength : (first.drop start).length = first.length - start := List.length_drop
  rw [Bytes.slice, Bytes.slice, Bytes.slice, List.drop_append_of_le_length hstart, List.take_append,
    hlength, List.drop_zero, List.take_of_length_le (by omega), ← hlength, List.take_length]

theorem readChunks_covers {rounds : Nat} {content : Bytes}
    (hrounds : stream.length - stream.position < rounds) (hinside : stream.position ≤ stream.length)
    (h : stream.readChunks provider rounds = .ok content) :
    content.length = stream.length - stream.position ∧
      ∀ position length, stream.position ≤ position → 0 < length →
        position + length ≤ stream.length → OnePiece stream.source position length →
        readRange provider stream.source position length =
          .ok (content.slice (position - stream.position) length) := by
  induction rounds generalizing stream content with
  | zero => omega
  | succ rounds ih =>
    obtain ⟨chunk, hchunk, hcases⟩ := readChunks_cases hrounds h
    obtain ⟨hbound, hbyte⟩ := chunk_inside hinside hchunk
    obtain ⟨hempty, rfl⟩ | ⟨hne, rest, rounds', hrounds', hrest, rfl⟩ := hcases
    · have hend : stream.position = stream.length := by
        by_contra hbefore
        have := hbyte hbefore
        omega
      refine ⟨by rw [List.length_nil]; omega, fun position length hle hpos hrange => ?_⟩
      omega
    · obtain rfl : rounds = rounds' := Nat.succ.inj hrounds'
      have hbefore : stream.position ≠ stream.length := by omega
      obtain ⟨hlength, hcover⟩ := ih (by simp only [skip]; omega) hbound hrest
      simp only [skip] at hlength hcover
      rw [readChunk_eq (by decide) hbefore] at hchunk
      have hchunkLength : chunk.length = stream.chunkLength 8192 := length_readRange hchunk
      refine ⟨by rw [List.length_append, hlength]; omega, fun position length hle hpos hrange hpiece => ?_⟩
      obtain ⟨start, rfl⟩ : ∃ start, position = stream.position + start :=
        ⟨_, (Nat.add_sub_cancel' hle).symm⟩
      rw [Nat.add_sub_cancel_left]
      rcases Nat.lt_or_ge start chunk.length with hin | hout
      · rcases Nat.lt_or_ge chunk.length (start + length) with hstraddle | hin'
        · obtain ⟨inside, hinside⟩ : ∃ inside, inside = chunk.length - start := ⟨_, rfl⟩
          obtain ⟨outside, rfl⟩ : ∃ outside, length = inside + outside :=
            ⟨_, (Nat.add_sub_cancel' (by omega)).symm⟩
          have hfirst : readRange provider stream.source (stream.position + start) inside =
              .ok (chunk.slice start inside) :=
            readRange_part hchunk (onePiece_chunk _ _) (by omega) (by omega)
          rw [slice_append_straddle hin.le (by omega), ← hinside, Nat.add_sub_cancel_left]
          cases hsource : stream.source with
          | direct record contentOffset =>
            rw [hsource] at hfirst hcover
            refine readRange_join hfirst ?_
            have hnext := hcover (stream.position + chunk.length) outside le_rfl (by omega)
              (by omega) trivial
            rw [Nat.sub_self] at hnext
            rwa [Nat.add_assoc, hinside, Nat.add_sub_cancel' hin.le]
          | blocks list blockCount =>
            -- a chunk of blocks that ends before the value ends where its block ends
            rw [hsource] at hpiece
            rw [chunkLength, hsource] at hchunkLength
            have hsize : blockSize = 4096 := rfl
            simp only [OnePiece, hsize] at hpiece hchunkLength
            omega
        · rw [Bytes.slice_append_left hin']
          exact readRange_part hchunk (onePiece_chunk _ _) hpos (hchunkLength ▸ hin')
      · rw [Bytes.slice_append_right hout, hcover _ _ (by omega) hpos hrange hpiece,
          Nat.add_sub_add_left]

/-- A stream from which every piece of a content can be read. -/
structure Covers (provider : SegmentProvider) (stream : BinaryStream) (content : Bytes) : Prop where
  length : content.length = stream.length
  pieces : ∀ position length, 0 < length → position + length ≤ stream.length →
    OnePiece stream.source position length →
    readRange provider stream.source position length = .ok (content.slice position length)

/-- A stream is opened at its start.  Its length is a 64-bit number, and says whether it is over
blocks. -/
theorem readBinaryStream_spec
    (h : readBinaryStream provider identifier = .ok stream) :
    stream.position = 0 ∧ stream.length < 2 ^ 64 ∧
      match stream.source with
      | .direct .. => stream.length < mediumValueLimit
      | .blocks .. => mediumValueLimit ≤ stream.length := by
  have hmedium : mediumValueLimit = 16512 := by decide
  obtain ⟨view, -, h⟩ := bind_ok_iff.mp h
  obtain ⟨head, -, h⟩ := bind_ok_iff.mp h
  split at h
  · cases h
    have := head.toNat_lt
    exact ⟨rfl, by dsimp only; omega, by dsimp only; omega⟩
  · split at h
    · obtain ⟨stored, -, h⟩ := bind_ok_iff.mp h
      cases h
      have hmask : (stored &&& 0x3FFF).toNat < 2 ^ 14 := by
        rw [UInt16.toNat_and]
        exact Nat.and_lt_two_pow _ (by decide)
      have hsmall : smallValueLimit = 128 := rfl
      exact ⟨rfl, by dsimp only; omega, by dsimp only; omega⟩
    · split at h
      · obtain ⟨stored, -, h⟩ := bind_ok_iff.mp h
        rw [openBlockStream] at h
        split at h
        · cases h
        · obtain ⟨list, -, h⟩ := bind_ok_iff.mp h
          cases h
          have hmask : (stored &&& 0x1FFFFFFFFFFFFFFF).toNat < 2 ^ 61 := by
            rw [UInt64.toNat_and]
            exact Nat.and_lt_two_pow _ (by decide)
          exact ⟨rfl, by dsimp only; omega, Nat.le_add_left _ _⟩
      · split at h
        · obtain ⟨stored, -, h⟩ := bind_ok_iff.mp h
          obtain ⟨bytes, -, h⟩ := bind_ok_iff.mp h
          cases h
        · split at h
          · obtain ⟨string, -, h⟩ := bind_ok_iff.mp h
            cases h
          · cases h

theorem exists_stream {content : Bytes} (h : readBinaryContent provider identifier = .ok content) :
    ∃ stream, readBinaryStream provider identifier = .ok stream ∧
      stream.readChunks provider (stream.length + 1) = .ok content ∧
      Covers provider stream content := by
  obtain ⟨stream, hstream, hchunks⟩ : ∃ stream, readBinaryStream provider identifier = .ok stream ∧
      stream.readChunks provider (stream.length + 1) = .ok content := by
    rw [readBinaryContent] at h
    split at h
    · rename_i stream hstream
      exact ⟨stream, hstream, h⟩
    · obtain ⟨value, -, h⟩ := bind_ok_iff.mp h
      split at h
      · cases h
      · cases h
    · cases h
  obtain ⟨hposition, -⟩ := readBinaryStream_spec hstream
  obtain ⟨hlength, hcover⟩ := readChunks_covers (by omega) (by omega) hchunks
  refine ⟨stream, hstream, hchunks, by omega, fun position length hpos hrange hpiece => ?_⟩
  have hread := hcover position length (by omega) hpos hrange hpiece
  rwa [hposition, Nat.sub_zero] at hread

end BinaryStream

/-! ## Slices -/

namespace OpenedStream

variable {provider : SegmentProvider}

/-- What a call on a stream over some content returns at a position, and the position behind it. -/
def SliceStep (content : Bytes) (position : Nat) : Call → Outcome → Nat → Prop
  | .seek target, .sought (.ok found), next =>
    found = target.absolute content.length position ∧ found ≤ content.length ∧ next = found
  | .seek target, .sought (.error _), next =>
    ¬ (0 ≤ target.absolute content.length position ∧
      target.absolute content.length position ≤ content.length) ∧ next = position
  | .readChunk capacity, .read (.ok bytes), next =>
    bytes = content.slice position bytes.length ∧ bytes.length ≤ capacity ∧
      next = position + bytes.length ∧ next ≤ content.length ∧
      (bytes = [] → capacity = 0 ∨ position = content.length)
  | _, _, _ => False

/-- What a sequence of calls returns. -/
def SliceRun (content : Bytes) (position : Nat) : List Call → List Outcome → Prop
  | [], [] => position ≤ content.length
  | call :: calls, outcome :: outcomes =>
    ∃ next, SliceStep content position call outcome next ∧
      SliceRun content next calls outcomes
  | _, _ => False

/-- What holds of a stream between calls. -/
structure Sound (provider : SegmentProvider) (opened : OpenedStream) : Prop where
  coherent : opened.Coherent provider
  bounded : opened.stream.length < 2 ^ 64
  inside : opened.stream.position ≤ opened.stream.length

variable {opened : OpenedStream} {stream : BinaryStream}

theorem seekPosition_spec (hbounded : opened.stream.length < 2 ^ 64)
    (target : SeekFrom) :
    match opened.seekPosition target with
    | .ok found => found = target.absolute opened.stream.length opened.stream.position ∧
        found ≤ opened.stream.length
    | .error _ => ¬ (0 ≤ target.absolute opened.stream.length opened.stream.position ∧
        target.absolute opened.stream.length opened.stream.position ≤ opened.stream.length) := by
  rw [seekPosition]
  generalize target.absolute opened.stream.length opened.stream.position = absolute
  by_cases hrange : absolute < 0 ∨ 2 ^ 64 ≤ absolute
  · rw [if_pos hrange]
    dsimp only
    omega
  · rw [if_neg hrange]
    by_cases hpast : opened.stream.length < absolute.toNat
    · rw [if_pos hpast]
      dsimp only
      omega
    · rw [if_neg hpast]
      dsimp only
      omega

/-- A seek returns the position that it asks for, or changes nothing. -/
theorem seek_step (h : opened.Sound provider) (target : SeekFrom) :
    ∃ after : OpenedStream,
      opened.seek target = (opened.seekPosition target, after) ∧ after.Sound provider ∧
      after.stream.source = opened.stream.source ∧ after.stream.length = opened.stream.length ∧
      ∀ content : Bytes, content.length = opened.stream.length →
        SliceStep content opened.stream.position (.seek target)
          (.sought (opened.seekPosition target)) after.stream.position := by
  have hspec := seekPosition_spec h.bounded target
  rw [seek]
  cases hposition : opened.seekPosition target with
  | error error =>
    rw [hposition] at hspec
    refine ⟨opened, rfl, h, rfl, rfl, fun content hlength => ?_⟩
    rw [SliceStep, hlength]
    exact ⟨hspec, rfl⟩
  | ok found =>
    rw [hposition] at hspec
    refine ⟨_, rfl, ⟨h.coherent, h.bounded, hspec.2⟩, rfl, rfl, fun content hlength => ?_⟩
    rw [SliceStep, hlength]
    exact ⟨hspec.1, hspec.2, rfl⟩

/-- What a read returns is inside the value and fits the buffer, and is empty at the end only. -/
theorem length_read (hinside : stream.position ≤ stream.length)
    {capacity : Nat} {bytes : Bytes} (hread : stream.readChunk provider capacity = .ok bytes) :
    stream.position + bytes.length ≤ stream.length ∧ bytes.length ≤ capacity ∧
      (bytes = [] → capacity = 0 ∨ stream.position = stream.length) := by
  by_cases hend : capacity = 0 ∨ stream.position = stream.length
  · rw [BinaryStream.readChunk, if_pos hend] at hread
    cases hread
    exact ⟨hinside, Nat.zero_le _, fun _ => hend⟩
  · obtain ⟨hcapacity, hbefore⟩ := not_or.mp hend
    rw [BinaryStream.readChunk_eq hcapacity hbefore] at hread
    have hlength := BinaryStream.length_readRange hread
    have hbounds := stream.chunkLength_bounds capacity
    refine ⟨by omega, by omega, ?_⟩
    rintro rfl
    rw [List.length_nil] at hlength
    omega

theorem readChunk_of_covers {content : Bytes}
    (h : stream.Covers provider content) (hinside : stream.position ≤ stream.length)
    (capacity : Nat) :
    ∃ bytes, stream.readChunk provider capacity = .ok bytes ∧
      bytes = content.slice stream.position bytes.length := by
  by_cases hend : capacity = 0 ∨ stream.position = stream.length
  · refine ⟨[], ?_, rfl⟩
    rw [BinaryStream.readChunk, if_pos hend]
    rfl
  · obtain ⟨hcapacity, hbefore⟩ := not_or.mp hend
    have hbounds := stream.chunkLength_bounds capacity
    have hread := h.pieces stream.position (stream.chunkLength capacity) (by omega) (by omega)
      (stream.onePiece_chunk capacity)
    refine ⟨_, (BinaryStream.readChunk_eq hcapacity hbefore).trans hread, ?_⟩
    rw [BinaryStream.length_readRange hread]

/-- A read returns a slice and goes on behind it, or fails and changes nothing. -/
theorem readChunk_step (h : opened.Sound provider) (capacity : Nat) :
    ∃ after : OpenedStream,
      opened.readChunk provider capacity = (opened.stream.readChunk provider capacity, after) ∧
      after.Sound provider ∧ after.stream.source = opened.stream.source ∧
      after.stream.length = opened.stream.length ∧
      ∀ content, opened.stream.Covers provider content →
        SliceStep content opened.stream.position (.readChunk capacity)
          (.read (opened.stream.readChunk provider capacity)) after.stream.position := by
  obtain ⟨after, hread, hstream, hcoherent⟩ := readChunk_spec h.coherent capacity
  refine ⟨after, hread, ?_⟩
  cases hresult : opened.stream.readChunk provider capacity with
  | error error =>
    rw [hresult] at hstream
    have hstream : after.stream = opened.stream := hstream
    refine ⟨⟨hcoherent, hstream ▸ h.bounded, hstream ▸ h.inside⟩, by rw [hstream], by rw [hstream],
      fun content hcovers => ?_⟩
    obtain ⟨bytes, hbytes, -⟩ := readChunk_of_covers hcovers h.inside capacity
    rw [hresult] at hbytes
    cases hbytes
  | ok bytes =>
    rw [hresult] at hstream
    have hstream : after.stream = opened.stream.skip bytes.length := hstream
    obtain ⟨hlength, hcapacity, hempty⟩ := length_read h.inside hresult
    refine ⟨⟨hcoherent, ?_, ?_⟩, by rw [hstream]; rfl, by rw [hstream]; rfl,
      fun content hcovers => ?_⟩
    · rw [hstream]
      exact h.bounded
    · rw [hstream]
      exact hlength
    · obtain ⟨bytes', hbytes', hslice⟩ := readChunk_of_covers hcovers h.inside capacity
      obtain rfl := Except.ok.inj (hresult.symm.trans hbytes')
      rw [hstream, SliceStep, hcovers.length]
      exact ⟨hslice, hcapacity, rfl, hlength, hempty⟩

/-! ## Runs -/

theorem covers_of_same {after : BinaryStream} {content : Bytes}
    (h : stream.Covers provider content) (hsource : after.source = stream.source)
    (hlength : after.length = stream.length) : after.Covers provider content := by
  refine ⟨h.length.trans hlength.symm, ?_⟩
  rw [hsource, hlength]
  exact h.pieces

theorem call_step (h : opened.Sound provider) (made : Call) :
    ∃ outcome after, opened.call provider made = (outcome, after) ∧ after.Sound provider ∧
      after.stream.source = opened.stream.source ∧ after.stream.length = opened.stream.length ∧
      ∀ content, opened.stream.Covers provider content →
        SliceStep content opened.stream.position made outcome after.stream.position := by
  cases made with
  | seek target =>
    obtain ⟨after, hseek, hsound, hsource, hlength, hstep⟩ := seek_step h target
    refine ⟨.sought (opened.seekPosition target), after, ?_, hsound, hsource, hlength,
      fun content hcovers => hstep content hcovers.length⟩
    rw [call, hseek]
  | readChunk capacity =>
    obtain ⟨after, hread, hsound, hsource, hlength, hstep⟩ := readChunk_step h capacity
    refine ⟨.read (opened.stream.readChunk provider capacity), after, ?_, hsound, hsource, hlength,
      hstep⟩
    rw [call, hread]

/-- What every sequence of calls preserves. -/
theorem sound_run (h : opened.Sound provider) (calls : List Call) :
    (opened.run provider calls).2.Sound provider := by
  induction calls generalizing opened with
  | nil => exact h
  | cons made calls ih =>
    obtain ⟨outcome, after, hcall, hsound, -⟩ := call_step h made
    rw [run, hcall]
    exact ih hsound

/-- A sequence of calls over a content returns slices of it. -/
theorem sliceRun {opened : OpenedStream} (h : opened.Sound provider) {content : Bytes}
    (hcovers : opened.stream.Covers provider content) (calls : List Call) :
    SliceRun content opened.stream.position calls (opened.run provider calls).1 := by
  induction calls generalizing opened with
  | nil =>
    change opened.stream.position ≤ content.length
    rw [hcovers.length]
    exact h.inside
  | cons made calls ih =>
    obtain ⟨outcome, after, hcall, hsound, hsource, hlength, hstep⟩ := call_step h made
    rw [run, hcall]
    exact ⟨_, hstep content hcovers, ih hsound (covers_of_same hcovers hsource hlength)⟩

end OpenedStream

/-! ## Whole binaries -/

variable {provider : SegmentProvider}

theorem sound_opened {identifier : RecordIdentifier} {stream : BinaryStream}
    (h : readBinaryStream provider identifier = .ok stream) :
    (OpenedStream.opened stream).Sound provider := by
  obtain ⟨hposition, hbounded, -⟩ := BinaryStream.readBinaryStream_spec h
  refine ⟨OpenedStream.coherent_opened stream, hbounded, ?_⟩
  change stream.position ≤ stream.length
  omega

/-- Two binaries whose contents can be read are compared by their contents. -/
theorem inlineBinaryContentsEqual_iff {first second : RecordIdentifier}
    {firstContent secondContent : Bytes}
    (hfirst : readBinaryContent provider first = .ok firstContent)
    (hsecond : readBinaryContent provider second = .ok secondContent) {length : Nat}
    (hlength : length = firstContent.length ∨ length = secondContent.length) :
    inlineBinaryContentsEqual provider first second length = .ok true ↔
      firstContent = secondContent := by
  obtain ⟨stream, hstream, hchunks, hcovers⟩ := BinaryStream.exists_stream hfirst
  obtain ⟨stream', hstream', hchunks', hcovers'⟩ := BinaryStream.exists_stream hsecond
  rw [inlineBinaryContentsEqual]
  by_cases hsame : first = second
  · obtain rfl := Except.ok.inj (hfirst.symm.trans (hsame ▸ hsecond))
    rw [if_pos hsame]
    exact iff_of_true rfl rfl
  · rw [if_neg hsame, hstream, hstream', Except.ok_bind_eq, Except.ok_bind_eq]
    by_cases hdeclared : stream.length ≠ length ∨ stream'.length ≠ length
    · rw [if_pos hdeclared]
      refine iff_of_false (by rintro ⟨⟩) ?_
      rintro rfl
      rw [← hcovers.length, ← hcovers'.length] at hdeclared
      omega
    · obtain ⟨hone, htwo⟩ := not_or.mp hdeclared
      have hone := not_not.mp hone
      have htwo := not_not.mp htwo
      obtain ⟨hposition, -, hsource⟩ := BinaryStream.readBinaryStream_spec hstream
      obtain ⟨hposition', -, hsource'⟩ := BinaryStream.readBinaryStream_spec hstream'
      have habreast : BinaryStream.Abreast stream stream' := by
        refine ⟨hone.trans htwo.symm, hposition.trans hposition'.symm, by omega, ?_⟩
        revert hsource hsource'
        cases stream.source with
        | direct => cases stream'.source with
          | direct => exact fun _ _ => trivial
          | blocks => exact fun h h' => absurd h (by dsimp only at h'; omega)
        | blocks => cases stream'.source with
          | direct => exact fun h h' => absurd h' (by dsimp only at h; omega)
          | blocks => exact fun _ _ => trivial
      rw [if_neg hdeclared, BinaryStream.contentsEqual_spec habreast (by omega) (by omega)
        (by omega) hchunks hchunks']
      constructor
      · intro h
        exact of_decide_eq_true (Except.ok.inj h)
      · rintro rfl
        rw [decide_eq_true rfl]

/-- Over a binary whose content can be read, every sequence of seeks and reads yields slices of
the content.  In every state of a stream the position is inside and a failed read leaves it, and
two binaries compare as equal exactly when their contents are. -/
theorem streams_read_slices (provider : SegmentProvider) :
    (∀ identifier content, readBinaryContent provider identifier = .ok content →
      ∃ stream, readBinaryStream provider identifier = .ok stream ∧
        stream.length = content.length ∧
        ∀ calls, OpenedStream.SliceRun content 0 calls
          ((OpenedStream.opened stream).run provider calls).1) ∧
    (∀ identifier stream, readBinaryStream provider identifier = .ok stream → ∀ calls,
      let reached := ((OpenedStream.opened stream).run provider calls).2
      reached.stream.position ≤ reached.stream.length ∧
        ∀ capacity error, (reached.readChunk provider capacity).1 = .error error →
          (reached.readChunk provider capacity).2.stream.position = reached.stream.position) ∧
    ∀ first second firstContent secondContent,
      readBinaryContent provider first = .ok firstContent →
      readBinaryContent provider second = .ok secondContent →
      ∀ length, length = firstContent.length ∨ length = secondContent.length →
        (inlineBinaryContentsEqual provider first second length = .ok true ↔
          firstContent = secondContent) := by
  refine ⟨fun identifier content hcontent => ?_, fun identifier stream hstream calls => ?_,
    fun first second firstContent secondContent hfirst hsecond length hlength =>
      inlineBinaryContentsEqual_iff hfirst hsecond hlength⟩
  · obtain ⟨stream, hstream, -, hcovers⟩ := BinaryStream.exists_stream hcontent
    obtain ⟨hposition, -⟩ := BinaryStream.readBinaryStream_spec hstream
    refine ⟨stream, hstream, hcovers.length.symm, fun calls => ?_⟩
    have hrun := @OpenedStream.sliceRun _ _ (sound_opened hstream) content hcovers calls
    rwa [OpenedStream.opened, hposition] at hrun
  · have hsound := OpenedStream.sound_run (sound_opened hstream) calls
    refine ⟨hsound.inside, fun capacity error hfailed => ?_⟩
    rw [OpenedStream.position_of_failed hsound.coherent hfailed]

end Froe
