import Froe.Content.Map
import Froe.Content.ListEntries
import Froe.Writer.Filled

/-!
# Records that a provider serves

`RecordAt` says that a provider serves a record with given fields, and from the
fields follows what the readers return: single words and identifiers here,
values in `ValueAt`.
-/

namespace Froe

open Except (ok_bind_eq)
open BinaryStream (readChunk readChunks)

/-! ## Fields of a view -/

namespace SegmentView

variable {view : SegmentView} {number : UInt32} {offset : Nat} {fields rest : List Field}

/-- Fields behind one another. -/
theorem holds_append {as bs : List Field} :
    view.Holds number offset (as ++ bs) ↔
      view.Holds number offset as ∧ view.Holds number (offset + fieldsLength as) bs := by
  induction as generalizing offset with
  | nil => simp [Holds, fieldsLength]
  | cons field as ih =>
    rw [List.cons_append, fieldsLength_cons]
    cases field with
    | raw bytes =>
      simp only [Holds, Field.length, ih, ← Nat.add_assoc]
      exact and_assoc.symm
    | identifier record =>
      simp only [Holds, Field.length, ih, ← Nat.add_assoc]
      exact and_assoc.symm

/-- Raw bytes read back. -/
theorem Holds.readAll {bytes : Bytes} (h : view.Holds number offset (.raw bytes :: rest)) :
    view.readBytes number offset bytes.length = .ok bytes := by
  have := h.1 0 bytes.length (by omega)
  rwa [Nat.add_zero, Bytes.slice_zero_length] at this

theorem Holds.readU8 {byte : UInt8} {bytes : Bytes}
    (h : view.Holds number offset (.raw (byte :: bytes) :: rest)) :
    view.readU8 number offset = .ok byte := by
  have := h.1 0 1 (by simp)
  rw [Nat.add_zero] at this
  rw [SegmentView.readU8, this]
  rfl

theorem Holds.readU16 {n : Nat} (hn : n < 2 ^ 16)
    (h : view.Holds number offset (.raw (Bytes.be 2 n) :: rest)) :
    view.readU16 number offset = .ok (UInt16.ofNat n) := by
  have := h.readAll
  rw [Bytes.length_be] at this
  rw [SegmentView.readU16, this, ok_bind_eq, SegmentBufferBuilder.u16At_be hn]
  rfl

theorem Holds.readU32 {x : UInt32} (h : view.Holds number offset (.raw (Bytes.be32 x) :: rest)) :
    view.readU32 number offset = .ok x := by
  have := h.readAll
  rw [Bytes.length_be32] at this
  rw [SegmentView.readU32, this, ok_bind_eq, SegmentBufferBuilder.u32At_be32]
  rfl

theorem Holds.readU64 {x : UInt64} (h : view.Holds number offset (.raw (Bytes.be64 x) :: rest)) :
    view.readU64 number offset = .ok x := by
  have := h.readAll
  rw [Bytes.length_be64] at this
  rw [SegmentView.readU64, this, ok_bind_eq,
    Bytes.u64At_of_slice (by simpa using Bytes.slice_zero_length (Bytes.be64 x))]
  rfl

theorem readRecordIdentifier_index (view : SegmentView) (number : UInt32) (offset index : Nat) :
    view.readRecordIdentifier number offset index =
      view.readRecordIdentifier number (offset + index * 6) 0 := by
  simp only [readRecordIdentifier, Nat.zero_mul, Nat.add_zero]

theorem fieldsLength_identifiers (records : List RecordIdentifier) :
    fieldsLength (records.map .identifier) = 6 * records.length := by
  induction records with
  | nil => rfl
  | cons record records ih =>
    rw [List.map_cons, fieldsLength_cons, ih, Field.length, List.length_cons]
    omega

/-- A run of identifiers is read by index. -/
theorem Holds.readIdentifiers {records : List RecordIdentifier}
    (h : view.Holds number offset (records.map .identifier ++ rest)) (i : Nat)
    (hi : i < records.length) : view.readRecordIdentifier number offset i = .ok records[i] := by
  induction records generalizing offset i with
  | nil => exact absurd hi (Nat.not_lt_zero i)
  | cons record records ih =>
    obtain ⟨hfirst, hrest⟩ := h
    cases i with
    | zero => exact hfirst
    | succ i =>
      have := ih hrest i (by simpa using hi)
      rw [readRecordIdentifier_index] at this ⊢
      rw [List.getElem_cons_succ, ← this, Nat.succ_mul, Nat.add_comm (i * 6) 6, Nat.add_assoc]

end SegmentView

/-! ## Records -/

/-- The provider serves a record that holds these fields. -/
def RecordAt (provider : SegmentProvider) (record : RecordIdentifier) (fields : List Field) :
    Prop :=
  ∃ view, provider record.segment = .ok view ∧ view.Holds record.recordNumber 0 fields

/-- The head of a long value. -/
def longHeader (length : Nat) : Bytes :=
  Bytes.be 8 ((length - mediumValueLimit) ||| (0b11 <<< 62))

/-- A provider serves a value: inline, or as a list of blocks. -/
inductive ValueAt (provider : SegmentProvider) (record : RecordIdentifier) (content : Bytes) :
    Prop where
  | small (hlength : content.length < smallValueLimit)
      (hrecord : RecordAt provider record [.raw [UInt8.ofNat content.length], .raw content])
  | medium (hlow : smallValueLimit ≤ content.length) (hhigh : content.length < mediumValueLimit)
      (hrecord : RecordAt provider record [.raw (mediumHeader content.length), .raw content])
  | long (list : RecordIdentifier) (blocks : List RecordIdentifier)
      (hlow : mediumValueLimit ≤ content.length)
      (hrecord : RecordAt provider record [.raw (longHeader content.length), .identifier list])
      (hentries : uncountedListEntries provider list
        ((content.length + blockSize - 1) / blockSize) = .ok blocks)
      (hblocks : readBlocks provider blocks content.length = .ok content)

/-! ## Headers -/

variable {length : Nat}

theorem smallHead (h : length < 128) :
    UInt8.ofNat length &&& 0x80 = 0 ∧ (UInt8.ofNat length).toNat = length := by
  have hall : ∀ n : Fin 128, UInt8.ofNat n &&& 0x80 = 0 ∧ (UInt8.ofNat n).toNat = n := by decide
  exact hall ⟨length, h⟩

theorem mediumHead {k : Nat} (h : k < 64) :
    UInt8.ofNat (128 + k) &&& 0x80 ≠ 0 ∧ UInt8.ofNat (128 + k) &&& 0x40 = 0 := by
  have hall : ∀ n : Fin 64, UInt8.ofNat (128 + n) &&& 0x80 ≠ 0 ∧
      UInt8.ofNat (128 + n) &&& 0x40 = 0 := by decide
  exact hall ⟨k, h⟩

theorem longHead {k : Nat} (h : k < 32) :
    UInt8.ofNat (192 + k) &&& 0x80 ≠ 0 ∧ UInt8.ofNat (192 + k) &&& 0x40 ≠ 0 ∧
      UInt8.ofNat (192 + k) &&& 0x20 = 0 := by
  have hall : ∀ n : Fin 32, UInt8.ofNat (192 + n) &&& 0x80 ≠ 0 ∧
      UInt8.ofNat (192 + n) &&& 0x40 ≠ 0 ∧ UInt8.ofNat (192 + n) &&& 0x20 = 0 := by decide
  exact hall ⟨k, h⟩

theorem be_succ (w n : Nat) :
    Bytes.be (w + 1) n = UInt8.ofNat (n / 256 ^ w) :: Bytes.be w n := rfl

/-- A medium header: its first byte and the word. -/
theorem mediumHeader_spec (hlow : smallValueLimit ≤ length) (hhigh : length < mediumValueLimit) :
    ∃ n head bytes, n < 2 ^ 16 ∧ mediumHeader length = Bytes.be 2 n ∧
      mediumHeader length = head :: bytes ∧ head &&& 0x80 ≠ 0 ∧ head &&& 0x40 = 0 ∧
      (UInt16.ofNat n &&& 0x3FFF).toNat + smallValueLimit = length := by
  unfold smallValueLimit mediumValueLimit at *
  have hor : (length - 128) ||| 0x8000 = 2 ^ 15 * 1 + (length - 128) := by
    rw [Nat.two_pow_add_eq_or_of_lt (show length - 128 < 2 ^ 15 by omega) 1, Nat.or_comm]
  obtain ⟨hset, hclear⟩ := mediumHead (show (length - 128) / 256 < 64 by omega)
  refine ⟨2 ^ 15 * 1 + (length - 128), UInt8.ofNat (128 + (length - 128) / 256),
    Bytes.be 1 (2 ^ 15 * 1 + (length - 128)), by omega, ?_, ?_, hset, hclear, ?_⟩
  · rw [mediumHeader, smallValueLimit, hor]
  · rw [mediumHeader, smallValueLimit, hor, be_succ]
    congr 2
    omega
  · have hmod : (UInt16.ofNat (2 ^ 15 * 1 + (length - 128)) &&& 0x3FFF).toNat =
        length - 128 := by
      rw [UInt16.toNat_and]
      have := Nat.and_two_pow_sub_one_eq_mod
        (UInt16.ofNat (2 ^ 15 * 1 + (length - 128))).toNat 14
      refine this.trans ?_
      rw [UInt16.toNat_ofNat']
      omega
    omega

/-- A long header: its first byte and the word. -/
theorem longHeader_spec (hlow : mediumValueLimit ≤ length) (hhigh : length < 2 ^ 61) :
    ∃ x head bytes, longHeader length = Bytes.be64 x ∧ longHeader length = head :: bytes ∧
      head &&& 0x80 ≠ 0 ∧ head &&& 0x40 ≠ 0 ∧ head &&& 0x20 = 0 ∧
      (x &&& 0x3FFFFFFFFFFFFFFF).toNat + mediumValueLimit = length ∧
      (x &&& 0x1FFFFFFFFFFFFFFF).toNat + mediumValueLimit = length := by
  obtain ⟨k, hk⟩ : ∃ k, k = length - mediumValueLimit := ⟨_, rfl⟩
  have hbound : k < 2 ^ 61 := by omega
  have hor : k ||| (0b11 <<< 62) = 2 ^ 62 * 3 + k := by
    rw [Nat.two_pow_add_eq_or_of_lt (show k < 2 ^ 62 by omega) 3, Nat.or_comm]
    rfl
  obtain ⟨h80, h40, h20⟩ := longHead (show k / 2 ^ 56 < 32 by omega)
  have hnat : (UInt64.ofNat (2 ^ 62 * 3 + k)).toNat = 2 ^ 62 * 3 + k := by
    rw [UInt64.toNat_ofNat']
    omega
  refine ⟨UInt64.ofNat (2 ^ 62 * 3 + k), UInt8.ofNat (192 + k / 2 ^ 56),
    Bytes.be 7 (2 ^ 62 * 3 + k), ?_, ?_, h80, h40, h20, ?_, ?_⟩
  · rw [longHeader, ← hk, hor, Bytes.be64, hnat]
  · rw [longHeader, ← hk, hor, be_succ]
    congr 2
    omega
  · have hmod : (UInt64.ofNat (2 ^ 62 * 3 + k) &&& 0x3FFFFFFFFFFFFFFF).toNat = k := by
      rw [UInt64.toNat_and, hnat]
      refine (Nat.and_two_pow_sub_one_eq_mod (2 ^ 62 * 3 + k) 62).trans ?_
      omega
    omega
  · have hmod : (UInt64.ofNat (2 ^ 62 * 3 + k) &&& 0x1FFFFFFFFFFFFFFF).toNat = k := by
      rw [UInt64.toNat_and, hnat]
      refine (Nat.and_two_pow_sub_one_eq_mod (2 ^ 62 * 3 + k) 61).trans ?_
      omega
    omega

/-! ## Reading a value -/

namespace ValueAt

variable {provider : SegmentProvider} {record : RecordIdentifier} {content : Bytes}

variable {list : RecordIdentifier} {blocks : List RecordIdentifier}

section

variable {length : Nat}
  (h : uncountedListEntries provider list ((length + blockSize - 1) / blockSize) = .ok blocks)
include h

theorem length_lt_of_entries :
    length ≤ maximumListSize * blockSize := by
  rw [uncountedListEntries] at h
  obtain ⟨_, hvalid, _⟩ := Except.bind_ok_iff.mp h
  unfold validateSize at hvalid
  split at hvalid
  · cases hvalid
  · rename_i hle
    unfold blockSize at *
    omega

/-- A length that a list of blocks can hold. -/
theorem length_lt :
    length < 2 ^ 61 := by
  have := length_lt_of_entries h
  unfold maximumListSize bucketCapacity blockSize at this
  omega

end

/-- A value below the limit of texts reads back as a text. -/
theorem readString (h : ValueAt provider record content) (hlength : content.length < 2 ^ 31 - 1) :
    readString provider record = .ok (Utf8.decodeLossy content) := by
  cases h with
  | small hsmall hrecord =>
    obtain ⟨view, hview, hholds⟩ := hrecord
    obtain ⟨hclear, hnat⟩ := smallHead hsmall
    have hhead := SegmentView.Holds.readU8 hholds
    have hbytes := SegmentView.Holds.readAll hholds.2
    simp only [Froe.readString, hview, hhead, ok_bind_eq, if_pos hclear, hnat]
    exact congrArg (· >>= _) hbytes
  | medium hlow hhigh hrecord =>
    obtain ⟨view, hview, hholds⟩ := hrecord
    obtain ⟨n, head, bytes, hn, hword, hfirst, hset, hclear, hstored⟩ :=
      mediumHeader_spec hlow hhigh
    have hhead := SegmentView.Holds.readU8 (hfirst ▸ hholds)
    have hstoredWord := SegmentView.Holds.readU16 hn (hword ▸ hholds)
    have hbytes := SegmentView.Holds.readAll hholds.2
    rw [hword, Bytes.length_be] at hbytes
    simp only [Froe.readString, hview, hhead, ok_bind_eq, if_neg hset, if_pos hclear,
      hstoredWord, hstored]
    exact congrArg (· >>= _) hbytes
  | long list blocks hlow hrecord hentries hblocks =>
    obtain ⟨view, hview, hholds⟩ := hrecord
    obtain ⟨x, head, bytes, hword, hfirst, h80, h40, h20, hstored, -⟩ :=
      longHeader_spec hlow (length_lt hentries)
    have hhead := SegmentView.Holds.readU8 (hfirst ▸ hholds)
    have hstoredWord := SegmentView.Holds.readU64 (hword ▸ hholds)
    have hlist := hholds.2.1
    rw [hword, Bytes.length_be64] at hlist
    simp only [Froe.readString, hview, hhead, ok_bind_eq, if_neg h80, if_neg h40,
      hstoredWord, hstored]
    rw [if_neg (fun h => h h20), if_neg (by omega)]
    have hlist : view.readRecordIdentifier record.recordNumber 8 0 = .ok list := hlist
    rw [hlist, ok_bind_eq, readBlockList, hentries, ok_bind_eq, hblocks,
      ok_bind_eq]
    rfl

end ValueAt

/-! ## Reading a binary -/

section

variable {provider : SegmentProvider} {record : RecordIdentifier}

theorem length_uncountedListEntries {list : RecordIdentifier} {count : Nat}
    {entries : List RecordIdentifier} (h : uncountedListEntries provider list count = .ok entries) :
    entries.length = count ∧ count ≤ maximumListSize ∧
      ∀ i (hi : i < entries.length), uncountedListEntry provider list count i = .ok entries[i] := by
  rw [uncountedListEntries] at h
  obtain ⟨_, hvalid, hcollect⟩ := Except.bind_ok_iff.mp h
  have hle : count ≤ maximumListSize := by
    unfold validateSize at hvalid
    split at hvalid
    · cases hvalid
    · omega
  rcases Nat.eq_zero_or_pos count with rfl | hpos
  · rw [collectEntries, if_pos rfl] at hcollect
    cases hcollect
    exact ⟨rfl, hle, fun i hi => absurd hi (Nat.not_lt_zero i)⟩
  · obtain ⟨hlength, hdescend⟩ := descendToEntry_of_collectEntries hpos hcollect
    refine ⟨hlength, hle, fun i hi => ?_⟩
    rw [uncountedListEntry, hvalid, ok_bind_eq, if_neg (by omega)]
    exact hdescend i hi

/-- The stream over a value record, chunk by chunk. -/
theorem readChunks_direct {view : SegmentView} {content : Bytes} {offset : Nat}
    (hview : provider record.segment = .ok view) (hread : ∀ start n, start + n ≤ content.length →
      view.readBytes record.recordNumber (offset + start) n = .ok (content.slice start n))
    {rounds position : Nat} (hposition : position ≤ content.length)
    (hrounds : content.length - position < rounds) :
    readChunks provider rounds ⟨.direct record offset, content.length, position⟩ =
      .ok (content.drop position) := by
  induction rounds generalizing position with
  | zero => omega
  | succ rounds ih =>
    rw [readChunks, readChunk]
    rcases Nat.eq_or_lt_of_le hposition with rfl | hlt
    · simp [List.drop_of_length_le]
      rfl
    · obtain ⟨n, hn⟩ : ∃ n, n = min (content.length - position) 8192 := ⟨_, rfl⟩
      have hslice := hread position n (by omega)
      have hlength : (content.slice position n).length = n :=
        Bytes.length_slice_of_le (by omega)
      dsimp only
      rw [if_neg (by omega)]
      simp only [hview, ok_bind_eq, ← hn, hslice, hlength]
      rw [if_neg (by omega), ih (by omega) (by omega), ok_bind_eq, Bytes.slice]
      have := List.take_append_drop n (content.drop position)
      rw [List.drop_drop] at this
      exact congrArg Except.ok this

theorem readChunks_blocks {list : RecordIdentifier} {blocks : List RecordIdentifier} {length : Nat}
    (hentries : uncountedListEntries provider list ((length + blockSize - 1) / blockSize) =
      .ok blocks) {rounds i : Nat} (hrounds : length - i * blockSize < rounds) :
    readChunks provider rounds
      ⟨.blocks list ((length + blockSize - 1) / blockSize), length, min (i * blockSize) length⟩ =
      readBlocks provider (blocks.drop i) (length - i * blockSize) := by
  obtain ⟨hcount, -, hentry⟩ := length_uncountedListEntries hentries
  induction rounds generalizing i with
  | zero => omega
  | succ rounds ih =>
    rw [readChunks, readChunk]
    rcases Nat.lt_or_ge (i * blockSize) length with hlt | hge
    · have hi : i < blocks.length := by
        rw [hcount]
        unfold blockSize at *
        omega
      have hmin : min (i * blockSize) length = i * blockSize := by omega
      have hpos : 0 < blockSize := by decide
      obtain ⟨n, hn⟩ : ∃ n, n = min (length - i * blockSize) blockSize := ⟨_, rfl⟩
      have hchunk : min (min (length - i * blockSize) 8192) (blockSize - 0) = n := by
        unfold blockSize at *
        omega
      dsimp only
      rw [if_neg (by omega), List.drop_eq_getElem_cons hi, readBlocks]
      simp only [hmin, Nat.mul_mod_left, Nat.mul_div_cancel _ hpos, hentry i hi,
        ok_bind_eq, hchunk, ← hn]
      cases hview : provider blocks[i].segment with
      | error e => rfl
      | ok view =>
        rw [ok_bind_eq, ok_bind_eq]
        cases hbytes : view.readBytes blocks[i].recordNumber 0 n with
        | error e => rfl
        | ok bytes =>
          have hlength := length_readBytes hbytes
          rw [ok_bind_eq, ok_bind_eq, hlength, if_neg (by omega)]
          have hnext : i * blockSize + n = min ((i + 1) * blockSize) length := by
            rw [Nat.succ_mul]
            omega
          have hremaining : length - i * blockSize - n = length - (i + 1) * blockSize := by
            rw [Nat.succ_mul]
            omega
          have hdrop : (i + 1) * blockSize = i * blockSize + blockSize := Nat.succ_mul ..
          simp only [hnext, hremaining]
          rw [ih (by omega)]
    · have hmin : min (i * blockSize) length = length := by omega
      have hdone : blocks.drop i = [] := by
        refine List.drop_of_length_le ?_
        rw [hcount]
        unfold blockSize at *
        omega
      rw [if_pos (.inr hmin), hdone, readBlocks]
      rfl

end

namespace ValueAt

variable {provider : SegmentProvider} {record : RecordIdentifier} {content : Bytes}

/-- A value reads back as a binary. -/
theorem readBinaryContent (h : ValueAt provider record content) :
    readBinaryContent provider record = .ok content := by
  cases h with
  | small hsmall hrecord =>
    obtain ⟨view, hview, hholds⟩ := hrecord
    obtain ⟨hclear, hnat⟩ := smallHead hsmall
    have hhead := SegmentView.Holds.readU8 hholds
    have hstream : readBinaryStream provider record =
        .ok ⟨.direct record 1, content.length, 0⟩ := by
      simp only [readBinaryStream, hview, hhead, ok_bind_eq, if_pos hclear, hnat]
      rfl
    rw [Froe.readBinaryContent, hstream]
    exact readChunks_direct hview hholds.2.1 (Nat.zero_le _) (Nat.lt_succ_of_le (Nat.sub_le _ _))
  | medium hlow hhigh hrecord =>
    obtain ⟨view, hview, hholds⟩ := hrecord
    obtain ⟨n, head, bytes, hn, hword, hfirst, hset, hclear, hstored⟩ :=
      mediumHeader_spec hlow hhigh
    have hhead := SegmentView.Holds.readU8 (hfirst ▸ hholds)
    have hstoredWord := SegmentView.Holds.readU16 hn (hword ▸ hholds)
    have hcontent := hholds.2.1
    rw [hword, Bytes.length_be] at hcontent
    have hstream : readBinaryStream provider record =
        .ok ⟨.direct record 2, content.length, 0⟩ := by
      simp only [readBinaryStream, hview, hhead, ok_bind_eq, if_neg hset, if_pos hclear,
        hstoredWord, hstored]
      rfl
    rw [Froe.readBinaryContent, hstream]
    exact readChunks_direct hview hcontent (Nat.zero_le _) (Nat.lt_succ_of_le (Nat.sub_le _ _))
  | long list blocks hlow hrecord hentries hblocks =>
    obtain ⟨view, hview, hholds⟩ := hrecord
    obtain ⟨x, head, bytes, hword, hfirst, h80, h40, h20, -, hstored⟩ :=
      longHeader_spec hlow (length_lt hentries)
    have hhead := SegmentView.Holds.readU8 (hfirst ▸ hholds)
    have hstoredWord := SegmentView.Holds.readU64 (hword ▸ hholds)
    have hlist := hholds.2.1
    rw [hword, Bytes.length_be64] at hlist
    have hlist : view.readRecordIdentifier record.recordNumber 8 0 = .ok list := hlist
    have hstream : readBinaryStream provider record =
        .ok ⟨.blocks list ((content.length + blockSize - 1) / blockSize), content.length, 0⟩ := by
      obtain ⟨-, hmaximum, -⟩ := length_uncountedListEntries hentries
      rw [readBinaryStream, hview, ok_bind_eq, hhead, ok_bind_eq, if_neg h80,
        if_neg h40, if_pos h20, hstoredWord, ok_bind_eq, hstored, openBlockStream,
        if_neg (not_lt.mpr hmaximum), hlist]
      rfl
    have hchunks := @readChunks_blocks _ _ _ _ hentries (content.length + 1) 0 (by
      rw [Nat.zero_mul]
      exact Nat.lt_succ_self _)
    rw [Nat.zero_mul, Nat.zero_min, List.drop_zero, Nat.sub_zero, hblocks] at hchunks
    rw [Froe.readBinaryContent, hstream]
    exact hchunks

end ValueAt

end Froe
