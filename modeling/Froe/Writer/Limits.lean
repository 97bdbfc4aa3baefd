import Froe.Writer.Values

/-!
# What the readers refuse

A string of `i32::MAX` bytes, a binary of more blocks than a list has room for
and a list above the maximum are refused whatever the segments hold.  So no
record reads back as such a value, however it was written.
-/

namespace Froe

open Except (bind_ok_iff pure_ok_iff)

variable {provider : SegmentProvider} {record : RecordIdentifier}

/-! ## Strings -/

theorem length_decodeChars (rounds : Nat) (b : Bytes) :
    (Utf8.decodeChars rounds b).length ≤ rounds := by
  induction rounds generalizing b with
  | zero => exact Nat.le_refl _
  | succ rounds ih =>
    cases b with
    | nil => exact Nat.zero_le _
    | cons x b =>
      rw [Utf8.decodeChars, List.length_cons]
      exact Nat.succ_le_succ (ih _)

theorem length_flatMap_encode (l : List Char) :
    (l.flatMap String.utf8EncodeChar).length ≤ 4 * l.length := by
  induction l with
  | nil => exact Nat.le_refl _
  | cons c l ih =>
    have hchar : (String.utf8EncodeChar c).length ≤ 4 := by
      rw [String.length_utf8EncodeChar]
      exact Char.utf8Size_le_four c
    rw [List.flatMap_cons, List.length_append, List.length_cons]
    omega

/-- Replacement characters make a text at most four times as long. -/
theorem length_utf8_decodeLossy (b : Bytes) : (Utf8.decodeLossy b).utf8.length ≤ 4 * b.length := by
  unfold Utf8.decodeLossy
  split
  · simp only [String.utf8]
    omega
  · rw [Utf8.utf8_ofList]
    refine (length_flatMap_encode _).trans ?_
    have := length_decodeChars b.length b
    omega

variable {content : Bytes} {stream : BinaryStream}

theorem length_readBlocks {blocks : List RecordIdentifier} {remaining : Nat}
    (h : readBlocks provider blocks remaining = .ok content) : content.length ≤ remaining := by
  induction blocks generalizing remaining content with
  | nil =>
    cases h
    exact Nat.zero_le _
  | cons block blocks ih =>
    obtain ⟨view, -, h⟩ := bind_ok_iff.mp h
    obtain ⟨bytes, hbytes, h⟩ := bind_ok_iff.mp h
    obtain ⟨rest, hrest, h⟩ := bind_ok_iff.mp h
    obtain rfl := pure_ok_iff.mp h
    have hlength := length_readBytes hbytes
    have hle := ih hrest
    rw [List.length_append, hlength]
    omega

/-- A string that is read is decoded from fewer than `i32::MAX` bytes. -/
theorem length_readString {text : String} (h : readString provider record = .ok text) :
    text.utf8.length ≤ 4 * (2 ^ 31 - 2) := by
  obtain ⟨view, -, h⟩ := bind_ok_iff.mp h
  obtain ⟨head, -, h⟩ := bind_ok_iff.mp h
  have hdecoded : ∀ bytes : Bytes, bytes.length ≤ 2 ^ 31 - 2 →
      (Utf8.decodeLossy bytes).utf8.length ≤ 4 * (2 ^ 31 - 2) := fun bytes hle =>
    (length_utf8_decodeLossy bytes).trans (Nat.mul_le_mul_left 4 hle)
  split at h
  · obtain ⟨bytes, hbytes, h⟩ := bind_ok_iff.mp h
    obtain rfl := pure_ok_iff.mp h
    refine hdecoded bytes ?_
    rw [length_readBytes hbytes]
    have := head.toNat_lt
    omega
  split at h
  · obtain ⟨stored, -, h⟩ := bind_ok_iff.mp h
    obtain ⟨bytes, hbytes, h⟩ := bind_ok_iff.mp h
    obtain rfl := pure_ok_iff.mp h
    refine hdecoded bytes ?_
    rw [length_readBytes hbytes]
    have := (stored &&& 0x3FFF).toNat_lt
    unfold smallValueLimit
    omega
  split at h
  · cases h
  · obtain ⟨stored, -, h⟩ := bind_ok_iff.mp h
    dsimp only at h
    split at h
    · cases h
    · rename_i hshort
      obtain ⟨list, -, h⟩ := bind_ok_iff.mp h
      obtain ⟨bytes, hbytes, h⟩ := bind_ok_iff.mp h
      obtain rfl := pure_ok_iff.mp h
      obtain ⟨blocks, -, hblocks⟩ := bind_ok_iff.mp hbytes
      refine hdecoded bytes ?_
      have := length_readBlocks hblocks
      omega

/-- A value of `i32::MAX` bytes or more is no string. -/
theorem ValueAt.readString_long (h : ValueAt provider record content)
    (hlong : 2 ^ 31 - 1 ≤ content.length) (text : String) :
    Froe.readString provider record ≠ .ok text := by
  cases h with
  | small hsmall _ =>
    unfold smallValueLimit at hsmall
    omega
  | medium _ hhigh _ =>
    unfold mediumValueLimit at hhigh
    omega
  | long list blocks hlow hrecord hentries hblocks =>
    obtain ⟨view, hview, hholds⟩ := hrecord
    obtain ⟨x, head, bytes, hword, hfirst, h80, h40, h20, hstored, -⟩ :=
      longHeader_spec hlow (length_lt hentries)
    have hhead := SegmentView.Holds.readU8 (hfirst ▸ hholds)
    have hstoredWord := SegmentView.Holds.readU64 (hword ▸ hholds)
    intro hok
    simp only [Froe.readString, hview, hhead, Except.ok_bind_eq, if_neg h80, if_neg h40,
      hstoredWord, hstored] at hok
    rw [if_neg (fun h => h h20), if_pos hlong] at hok
    cases hok

/-! ## Binaries -/

theorem length_readChunks {rounds : Nat}
    (h : stream.readChunks provider rounds = .ok content) (hposition : stream.position ≤ stream.length) :
    content.length ≤ stream.length - stream.position := by
  induction rounds generalizing stream content with
  | zero =>
    cases h
    exact Nat.zero_le _
  | succ rounds ih =>
    obtain ⟨chunk, hchunk, h⟩ := bind_ok_iff.mp h
    split at h
    · obtain rfl := pure_ok_iff.mp h
      exact Nat.zero_le _
    · obtain ⟨rest, hrest, h⟩ := bind_ok_iff.mp h
      obtain rfl := pure_ok_iff.mp h
      have hle : chunk.length ≤ stream.length - stream.position := by
        unfold BinaryStream.readChunk at hchunk
        split at hchunk
        · cases hchunk
          exact Nat.zero_le _
        · dsimp only at hchunk
          split at hchunk
          · obtain ⟨view, -, hchunk⟩ := bind_ok_iff.mp hchunk
            rw [length_readBytes hchunk]
            exact Nat.min_le_left ..
          · obtain ⟨block, -, hchunk⟩ := bind_ok_iff.mp hchunk
            obtain ⟨view, -, hchunk⟩ := bind_ok_iff.mp hchunk
            rw [length_readBytes hchunk]
            exact (Nat.min_le_left ..).trans (Nat.min_le_left ..)
      have hrestLe := ih hrest (by dsimp only; omega)
      dsimp only at hrestLe
      rw [List.length_append]
      omega

/-- A binary stream is over no more blocks than a list has room for. -/
theorem length_readBinaryStream (h : readBinaryStream provider record = .ok stream) :
    stream.position = 0 ∧ stream.length ≤ maximumValueLength := by
  obtain ⟨view, -, h⟩ := bind_ok_iff.mp h
  obtain ⟨head, -, h⟩ := bind_ok_iff.mp h
  have hmaximum : 2 ^ 31 ≤ maximumValueLength := by decide
  split at h
  · obtain rfl := pure_ok_iff.mp h
    have := head.toNat_lt
    exact ⟨rfl, by dsimp only; omega⟩
  split at h
  · obtain ⟨stored, -, h⟩ := bind_ok_iff.mp h
    obtain rfl := pure_ok_iff.mp h
    have := (stored &&& 0x3FFF).toNat_lt
    exact ⟨rfl, by dsimp only [smallValueLimit]; omega⟩
  split at h
  · obtain ⟨stored, -, h⟩ := bind_ok_iff.mp h
    unfold openBlockStream at h
    dsimp only at h
    split at h
    · cases h
    · rename_i hblocks
      obtain ⟨list, -, h⟩ := bind_ok_iff.mp h
      obtain rfl := pure_ok_iff.mp h
      refine ⟨rfl, ?_⟩
      dsimp only
      unfold maximumValueLength
      unfold blockSize at *
      omega
  split at h
  · obtain ⟨stored, -, h⟩ := bind_ok_iff.mp h
    obtain ⟨bytes, -, h⟩ := bind_ok_iff.mp h
    cases h
  split at h
  · obtain ⟨string, -, h⟩ := bind_ok_iff.mp h
    cases h
  · cases h

/-- A binary that is read is no longer than the blocks of a list. -/
theorem length_readBinaryContent (h : readBinaryContent provider record = .ok content) :
    content.length ≤ maximumValueLength := by
  unfold readBinaryContent at h
  split at h
  · rename_i stream hstream
    obtain ⟨hposition, hlength⟩ := length_readBinaryStream hstream
    have := length_readChunks h (by omega)
    omega
  · obtain ⟨value, -, h⟩ := bind_ok_iff.mp h
    split at h
    · cases h
    · cases h
  · cases h

/-! ## Lists -/

theorem size_readCountedList {counted : CountedList}
    (h : readCountedList provider record = .ok counted) :
    counted.size.toNat ≤ maximumListSize := by
  obtain ⟨view, -, h⟩ := bind_ok_iff.mp h
  obtain ⟨size, -, h⟩ := bind_ok_iff.mp h
  split at h
  · rename_i hsize
    split at h
    · cases h
      exact hsize.2
    · obtain ⟨body, -, h⟩ := bind_ok_iff.mp h
      cases h
      exact hsize.2
  · cases h

end Froe
