import Froe.Content.Binary

/-!
# Comparing inline binaries

Two inline binaries of one length are compared chunk by chunk, and blocks that they share
are skipped.  When both can be read the comparison is that of their contents
(`inlineBinaryContentsEqual_spec`).
-/

namespace Froe

open Except (bind_ok_iff ok_bind_eq)

namespace BinaryStream

def currentBlockIdentifier (provider : SegmentProvider) (stream : BinaryStream) :
    Result (Option RecordIdentifier) :=
  if stream.position = stream.length then .ok none
  else
    match stream.source with
    | .direct .. => .ok none
    | .blocks listIdentifier blockCount => do
      return some (← uncountedListEntry provider listIdentifier blockCount
        (stream.position / blockSize))

/-- What is left of the block at the position. -/
def blockRemaining (stream : BinaryStream) : Nat :=
  min (stream.length - stream.position) (blockSize - stream.position % blockSize)

def skip (stream : BinaryStream) (count : Nat) : BinaryStream :=
  { stream with position := stream.position + count }

/-- Compares what is left of two streams.  Every round but the last goes on by a byte, so that the
length bounds their number. -/
def contentsEqual (provider : SegmentProvider) : Nat → BinaryStream → BinaryStream → Result Bool
  | 0, _, _ => .ok true
  | rounds + 1, first, second => do
    let firstBlock ← first.currentBlockIdentifier provider
    let secondBlock ← second.currentBlockIdentifier provider
    if firstBlock.isSome ∧ firstBlock = secondBlock then
      let skipped := min first.blockRemaining second.blockRemaining
      contentsEqual provider rounds (first.skip skipped) (second.skip skipped)
    else
      let firstChunk ← first.readChunk provider 8192
      let secondChunk ← second.readChunk provider 8192
      if firstChunk ≠ secondChunk then return false
      else if firstChunk.length = 0 then return true
      else
        contentsEqual provider rounds (first.skip firstChunk.length)
          (second.skip secondChunk.length)

end BinaryStream

/-- Compares two inline binaries of a length. -/
def inlineBinaryContentsEqual (provider : SegmentProvider) (first second : RecordIdentifier)
    (expectedLength : Nat) : Result Bool :=
  if first = second then .ok true
  else do
    let firstStream ← readBinaryStream provider first
    let secondStream ← readBinaryStream provider second
    if firstStream.length ≠ expectedLength ∨ secondStream.length ≠ expectedLength then
      invalid s!"inline binary comparison expected {expectedLength} bytes, but records {first.display} and {second.display} declare {firstStream.length} and {secondStream.length} bytes"
    else BinaryStream.contentsEqual provider (expectedLength + 1) firstStream secondStream

variable {provider : SegmentProvider}

/-- Two streams read in chunks of one length. -/
structure BinaryStream.Abreast (first second : BinaryStream) : Prop where
  length : first.length = second.length
  position : first.position = second.position
  inside : first.position ≤ first.length
  source : match first.source, second.source with
    | .direct .., .direct .. => True
    | .blocks .., .blocks .. => True
    | _, _ => False

namespace BinaryStream

variable {first second stream : BinaryStream}

theorem Abreast.skip (h : Abreast first second) {count : Nat}
    (hcount : first.position + count ≤ first.length) :
    Abreast (first.skip count) (second.skip count) :=
  ⟨h.length, congrArg (· + count) h.position, hcount, h.source⟩

theorem Abreast.length_chunk (h : Abreast first second)
    {firstChunk secondChunk : Bytes} (hfirst : first.readChunk provider 8192 = .ok firstChunk)
    (hsecond : second.readChunk provider 8192 = .ok secondChunk) :
    firstChunk.length = secondChunk.length := by
  rw [length_readChunk hfirst, length_readChunk hsecond, h.position, h.length]
  have hsource := h.source
  revert hsource
  cases first.source with
  | direct => cases second.source with
    | direct => exact fun _ => rfl
    | blocks => exact False.elim
  | blocks => cases second.source with
    | direct => exact False.elim
    | blocks => exact fun _ => rfl

/-- A chunk before the end has a byte and is inside. -/
theorem chunk_inside {chunk : Bytes} (hinside : stream.position ≤ stream.length)
    (h : stream.readChunk provider 8192 = .ok chunk) :
    stream.position + chunk.length ≤ stream.length ∧
      (stream.position ≠ stream.length → 0 < chunk.length) := by
  have hblock : stream.position % blockSize < blockSize := Nat.mod_lt _ (by decide)
  rw [length_readChunk h]
  split
  · omega
  · split
    · omega
    · omega

/-- A round of reading: a chunk, and what is left behind it. -/
theorem readChunks_cases {rounds : Nat} {content : Bytes}
    (hrounds : stream.length - stream.position < rounds)
    (h : stream.readChunks provider rounds = .ok content) :
    ∃ chunk, stream.readChunk provider 8192 = .ok chunk ∧
      (chunk.length = 0 ∧ content = [] ∨ chunk.length ≠ 0 ∧ ∃ rest rounds',
        rounds = rounds' + 1 ∧ (stream.skip chunk.length).readChunks provider rounds' = .ok rest ∧
          content = chunk ++ rest) := by
  cases rounds with
  | zero => omega
  | succ rounds =>
    obtain ⟨chunk, hchunk, h⟩ := bind_ok_iff.mp h
    refine ⟨chunk, hchunk, ?_⟩
    split at h
    · rename_i hempty
      cases h
      exact .inl ⟨hempty, rfl⟩
    · rename_i hempty
      obtain ⟨rest, hrest, h⟩ := bind_ok_iff.mp h
      cases h
      exact .inr ⟨hempty, rest, rounds, rfl, hrest, rfl⟩

/-- The block at the position, and that the chunk is what is left of it. -/
theorem currentBlock_cases {chunk : Bytes} (hbefore : stream.position ≠ stream.length)
    (h : stream.readChunk provider 8192 = .ok chunk) :
    stream.currentBlockIdentifier provider = .ok none ∨
      ∃ block view, stream.currentBlockIdentifier provider = .ok (some block) ∧
        provider block.segment = .ok view ∧ view.readBytes block.recordNumber
          (stream.position % blockSize) stream.blockRemaining = .ok chunk := by
  rw [readChunk, if_neg (by simpa using hbefore)] at h
  rw [currentBlockIdentifier, if_neg hbefore]
  dsimp only at h
  cases hsource : stream.source with
  | direct recordIdentifier contentOffset => exact .inl rfl
  | blocks list count =>
    rw [hsource] at h
    obtain ⟨block, hblock, h⟩ := bind_ok_iff.mp h
    obtain ⟨view, hview, h⟩ := bind_ok_iff.mp h
    have hremaining : min (min (stream.length - stream.position) 8192)
        (blockSize - stream.position % blockSize) = stream.blockRemaining := by
      have : blockSize = 4096 := rfl
      rw [blockRemaining]
      omega
    rw [hremaining] at h
    exact .inr ⟨block, view, bind_ok_iff.mpr ⟨block, hblock, rfl⟩, hview, h⟩

/-- What is left of two streams is compared when both can be read. -/
theorem contentsEqual_spec {rounds firstRounds secondRounds : Nat}
    (h : Abreast first second) {firstContent secondContent : Bytes}
    (hrounds : first.length - first.position < rounds)
    (hfirstRounds : first.length - first.position < firstRounds)
    (hsecondRounds : second.length - second.position < secondRounds)
    (hfirst : first.readChunks provider firstRounds = .ok firstContent)
    (hsecond : second.readChunks provider secondRounds = .ok secondContent) :
    contentsEqual provider rounds first second = .ok (decide (firstContent = secondContent)) := by
  induction rounds generalizing first second firstContent secondContent firstRounds secondRounds with
  | zero => omega
  | succ rounds ih =>
    obtain ⟨firstChunk, hfirstChunk, hfirstCases⟩ := readChunks_cases hfirstRounds hfirst
    obtain ⟨secondChunk, hsecondChunk, hsecondCases⟩ := readChunks_cases hsecondRounds hsecond
    have hlength := h.length_chunk hfirstChunk hsecondChunk
    obtain ⟨hinside, hbyte⟩ := chunk_inside h.inside hfirstChunk
    by_cases hend : first.position = first.length
    · have hempty : firstChunk.length = 0 := by
        rw [length_readChunk hfirstChunk, if_pos hend]
      have hnone : ∀ stream : BinaryStream, stream.position = stream.length →
          stream.currentBlockIdentifier provider = .ok none := fun _ h => if_pos h
      obtain rfl := List.eq_nil_of_length_eq_zero hempty
      obtain rfl := List.eq_nil_of_length_eq_zero (hlength ▸ hempty)
      obtain ⟨-, rfl⟩ | ⟨hne, -⟩ := hfirstCases
      · obtain ⟨-, rfl⟩ | ⟨hne, -⟩ := hsecondCases
        · rw [contentsEqual, hnone first hend, hnone second (by rw [← h.position, hend, h.length])]
          simp only [ok_bind_eq, hfirstChunk, hsecondChunk]
          rfl
        · exact absurd rfl hne
      · exact absurd rfl hne
    · have hpositive := hbyte hend
      obtain ⟨hempty, -⟩ | ⟨-, firstRest, firstRounds', rfl, hfirstRest, rfl⟩ := hfirstCases
      · omega
      obtain ⟨hempty, -⟩ | ⟨-, secondRest, secondRounds', rfl, hsecondRest, rfl⟩ := hsecondCases
      · omega
      have hskip := h.skip hinside
      have hnext : contentsEqual provider rounds (first.skip firstChunk.length)
          (second.skip firstChunk.length) = .ok (decide (firstRest = secondRest)) := by
        rw [← hlength] at hsecondRest
        refine ih hskip ?_ ?_ ?_ hfirstRest hsecondRest
        · simp only [skip]
          omega
        · simp only [skip]
          omega
        · have := h.length
          have := h.position
          simp only [skip]
          omega
      have hread : (if firstChunk ≠ secondChunk then pure false
          else if firstChunk.length = 0 then pure true
          else contentsEqual provider rounds (first.skip firstChunk.length)
            (second.skip secondChunk.length) : Result Bool) =
          .ok (decide (firstChunk ++ firstRest = secondChunk ++ secondRest)) := by
        by_cases heq : firstChunk = secondChunk
        · rw [if_neg (not_not.mpr heq), if_neg (by omega), ← hlength, hnext, heq]
          simp only [List.append_right_inj]
        · have hne : firstChunk ++ firstRest ≠ secondChunk ++ secondRest :=
            fun happend => heq (List.append_inj happend hlength).1
          rw [if_pos heq, decide_eq_false hne]
          rfl
      have hend' : second.position ≠ second.length := by
        rw [← h.position, ← h.length]
        exact hend
      have hremaining : first.blockRemaining = second.blockRemaining := by
        rw [blockRemaining, blockRemaining, h.position, h.length]
      rcases currentBlock_cases hend hfirstChunk with hfirstNone | ⟨block, view, hblock, hview, hbytes⟩
      · obtain ⟨secondBlock, hsecondBlock⟩ :
            ∃ secondBlock, second.currentBlockIdentifier provider = .ok secondBlock := by
          rcases currentBlock_cases hend' hsecondChunk with hnone | ⟨block, view, hblock, -⟩
          · exact ⟨none, hnone⟩
          · exact ⟨some block, hblock⟩
        rw [contentsEqual, hfirstNone, hsecondBlock]
        simp only [ok_bind_eq, hfirstChunk, hsecondChunk]
        rw [if_neg (by simp)]
        exact hread
      · rcases currentBlock_cases hend' hsecondChunk with
          hsecondNone | ⟨block', view', hblock', hview', hbytes'⟩
        · rw [contentsEqual, hblock, hsecondNone]
          simp only [ok_bind_eq, hfirstChunk, hsecondChunk]
          rw [if_neg (by simp)]
          exact hread
        · rw [contentsEqual, hblock, hblock']
          simp only [ok_bind_eq, hfirstChunk, hsecondChunk]
          by_cases hsame : block = block'
          · -- a shared block has the same bytes in both
            obtain rfl := hsame
            cases hview.symm.trans hview'
            rw [← h.position, ← hremaining] at hbytes'
            cases hbytes.symm.trans hbytes'
            have hskipped : min first.blockRemaining second.blockRemaining = firstChunk.length := by
              rw [← hremaining, Nat.min_self, length_readBytes hbytes]
            rw [if_pos ⟨rfl, rfl⟩, hskipped, hnext]
            simp only [List.append_right_inj]
          · rw [if_neg fun h => hsame (Option.some.inj h.2)]
            exact hread

end BinaryStream

/-! ## Values -/

variable {record recordIdentifier : RecordIdentifier} {length : Nat}

theorem recordIdentifier_of_inline
    (h : readBinaryValue provider record = .ok (.inline length recordIdentifier)) :
    recordIdentifier = record := by
  obtain ⟨view, -, h⟩ := bind_ok_iff.mp h
  obtain ⟨head, -, h⟩ := bind_ok_iff.mp h
  split at h
  · obtain ⟨read, -, h⟩ := bind_ok_iff.mp h
    cases h
    rfl
  · split at h
    · obtain ⟨stored, -, h⟩ := bind_ok_iff.mp h
      obtain ⟨bytes, -, h⟩ := bind_ok_iff.mp h
      cases h
    · split at h
      · obtain ⟨string, -, h⟩ := bind_ok_iff.mp h
        obtain ⟨text, -, h⟩ := bind_ok_iff.mp h
        cases h
      · cases h

/-- The stream of an inline binary.  Its length says whether it is over blocks. -/
theorem readBinaryStream_of_inline
    {content : Bytes} (hvalue : readBinaryValue provider record = .ok (.inline length recordIdentifier))
    (hcontent : readBinaryContent provider record = .ok content) :
    ∃ stream, readBinaryStream provider record = .ok stream ∧ stream.length = length ∧
      stream.position = 0 ∧
      stream.readChunks provider (length + 1) = .ok content ∧
      match stream.source with
      | .direct .. => length < mediumValueLimit
      | .blocks .. => mediumValueLimit ≤ length := by
  obtain ⟨view, hview, hvalue⟩ := bind_ok_iff.mp hvalue
  obtain ⟨head, hhead, hvalue⟩ := bind_ok_iff.mp hvalue
  obtain ⟨stream, hstream, hchunks⟩ : ∃ stream, readBinaryStream provider record = .ok stream ∧
      stream.readChunks provider (stream.length + 1) = .ok content := by
    rw [readBinaryContent] at hcontent
    split at hcontent
    · rename_i stream hstream
      exact ⟨stream, hstream, hcontent⟩
    · obtain ⟨value, -, hcontent⟩ := bind_ok_iff.mp hcontent
      split at hcontent
      · cases hcontent
      · cases hcontent
    · cases hcontent
  have hopen := hstream
  rw [readBinaryStream, hview, ok_bind_eq, hhead, ok_bind_eq] at hopen
  split at hvalue
  · obtain ⟨read, hread, hvalue⟩ := bind_ok_iff.mp hvalue
    cases hvalue
    rw [readValueLength, hview, ok_bind_eq, hhead, ok_bind_eq] at hread
    refine ⟨stream, hstream, ?_⟩
    split at hread
    · rename_i hsmall
      rw [if_pos hsmall] at hopen
      cases hread
      cases hopen
      have hlimit : mediumValueLimit = 16512 := by decide
      have := head.toNat_lt
      refine ⟨rfl, rfl, hchunks, ?_⟩
      dsimp only
      omega
    · rename_i hsmall
      rw [if_neg hsmall] at hopen
      split at hread
      · rename_i hmedium
        rw [if_pos hmedium] at hopen
        obtain ⟨stored, hstored, hread⟩ := bind_ok_iff.mp hread
        obtain ⟨stored', hstored', hopen⟩ := bind_ok_iff.mp hopen
        cases hstored.symm.trans hstored'
        cases hread
        cases hopen
        refine ⟨rfl, rfl, hchunks, ?_⟩
        have hmask : (stored &&& 0x3FFF).toNat < 2 ^ 14 := by
          rw [UInt16.toNat_and]
          exact Nat.and_lt_two_pow _ (by decide)
        dsimp only [smallValueLimit, mediumValueLimit]
        omega
      · rename_i hmedium
        rw [if_neg hmedium] at hopen
        split at hread
        · rename_i hlong
          rw [if_pos hlong] at hopen
          obtain ⟨stored, hstored, hread⟩ := bind_ok_iff.mp hread
          obtain ⟨stored', hstored', hopen⟩ := bind_ok_iff.mp hopen
          cases hstored.symm.trans hstored'
          cases hread
          rw [openBlockStream] at hopen
          split at hopen
          · cases hopen
          · obtain ⟨list, -, hopen⟩ := bind_ok_iff.mp hopen
            cases hopen
            exact ⟨rfl, rfl, hchunks, Nat.le_add_left _ _⟩
        · cases hread
  · split at hvalue
    · obtain ⟨stored, -, hvalue⟩ := bind_ok_iff.mp hvalue
      obtain ⟨bytes, -, hvalue⟩ := bind_ok_iff.mp hvalue
      cases hvalue
    · split at hvalue
      · obtain ⟨string, -, hvalue⟩ := bind_ok_iff.mp hvalue
        obtain ⟨text, -, hvalue⟩ := bind_ok_iff.mp hvalue
        cases hvalue
      · cases hvalue

/-- Two inline binaries of one length that can be read are compared by their contents. -/
theorem inlineBinaryContentsEqual_spec {first second first' second' : RecordIdentifier} {firstContent secondContent : Bytes}
    (hfirst : readBinaryValue provider first' = .ok (.inline length first))
    (hsecond : readBinaryValue provider second' = .ok (.inline length second))
    (hfirstContent : readBinaryContent provider first = .ok firstContent)
    (hsecondContent : readBinaryContent provider second = .ok secondContent) :
    inlineBinaryContentsEqual provider first second length =
      .ok (decide (firstContent = secondContent)) := by
  obtain rfl := recordIdentifier_of_inline hfirst
  obtain rfl := recordIdentifier_of_inline hsecond
  rw [inlineBinaryContentsEqual]
  split
  · rename_i hsame
    subst hsame
    cases hfirstContent.symm.trans hsecondContent
    rw [decide_eq_true rfl]
  · obtain ⟨stream, hstream, hlength, hposition, hchunks, hsource⟩ :=
      readBinaryStream_of_inline hfirst hfirstContent
    obtain ⟨stream', hstream', hlength', hposition', hchunks', hsource'⟩ :=
      readBinaryStream_of_inline hsecond hsecondContent
    have habreast : BinaryStream.Abreast stream stream' := by
      refine ⟨hlength.trans hlength'.symm, hposition.trans hposition'.symm, by omega, ?_⟩
      revert hsource hsource'
      cases stream.source with
      | direct => cases stream'.source with
        | direct => exact fun _ _ => trivial
        | blocks => exact fun h h' => absurd h (Nat.not_lt.mpr h')
      | blocks => cases stream'.source with
        | direct => exact fun h h' => absurd h' (Nat.not_lt.mpr h)
        | blocks => exact fun _ _ => trivial
    rw [hstream, hstream', ok_bind_eq, ok_bind_eq,
      if_neg (by rw [hlength, hlength']; simp)]
    exact BinaryStream.contentsEqual_spec habreast (by omega) (by omega) (by omega) hchunks hchunks'

end Froe
