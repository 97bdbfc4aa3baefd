import Froe.Tar.RoundTrip

/-!
# The recovery scan over written archives

The scan finds segments without the index, from the headers of the entries.
What it collects lies inside the buffer, whatever the bytes are.  Over an
archive that a writer produced, cut off anywhere, it collects the rows the
writer holds for its index: every segment whose content is complete, and
nothing from the trailers behind them, although it walks into the entry of the
index.
-/

namespace Froe

open List (append_assoc length_append length_take)

open TarArchiveWriter
open Bytes (slice slice_take)

/-! ## Any buffer -/

/-- The range lies inside a buffer. -/
def DataRange.Inside (range : DataRange) (bytes : Bytes) : Prop :=
  range.start ≤ range.stop ∧ range.stop ≤ bytes.length

section Scan

variable {bytes : Bytes} {indexEntryName : String} {position skip : Nat}
  {entries entries' : List (SegmentIdentifier × DataRange)}

theorem mem_putRecovered {identifier : SegmentIdentifier} {data : DataRange}
    {entry : SegmentIdentifier × DataRange} (h : entry ∈ putRecovered entries identifier data) :
    entry ∈ entries ∨ entry = (identifier, data) := by
  unfold putRecovered at h
  split at h
  · obtain ⟨old, hold, heq⟩ := List.mem_map.mp h
    split at heq
    · exact Or.inr heq.symm
    · exact Or.inl (heq ▸ hold)
  · simpa using h

theorem dvd_skipPastData (size : Int) : 512 ∣ skipPastData size := by
  unfold skipPastData
  omega

theorem skipPastData_natCast (size : Nat) : skipPastData (size : Int) = blocks size := by
  have hdiv : ((size : Int) + 511).tdiv 512 = ((size + 511) / 512 : Nat) := by
    rw [Int.tdiv_eq_ediv_of_nonneg (by omega)]
    omega
  rw [skipPastData, hdiv, blocks]
  omega

/-- What one step of the scan can do: skip whole blocks, and collect at most the entry
whose header it read. -/
theorem recoverStep_cases
    (h : recoverStep bytes indexEntryName position entries = some (skip, entries')) :
    512 ∣ skip ∧ (entries' = entries ∨ ∃ header identifier checksum,
      TarEntryHeader.parse (bytes.slice position 512) = some header ∧
      parseSegmentEntryName header.name = some (identifier, checksum) ∧ 0 ≤ header.size ∧
      (position + 512 : Int) + header.size ≤ bytes.length ∧
      entries' = putRecovered entries identifier
        ⟨position + 512, position + 512 + header.size.toNat⟩) := by
  unfold recoverStep at h
  dsimp only at h
  split at h
  · split at h
    · cases h
    · cases h
      exact ⟨Nat.dvd_zero _, Or.inl rfl⟩
  · rename_i header hheader
    split at h
    · cases h
    · rename_i hlength
      split at h
      · rename_i identifier checksum hname
        split at h
        · rename_i hsize
          split at h
          · cases h
            exact ⟨dvd_skipPastData _, Or.inl rfl⟩
          · cases h
            refine ⟨dvd_skipPastData _, Or.inr ⟨header, identifier, checksum, hheader, hname,
              hsize.1, ?_, rfl⟩⟩
            push_cast at hlength
            omega
        · cases h
          exact ⟨Nat.dvd_zero _, Or.inl rfl⟩
      · split at h
        · cases h
          exact ⟨dvd_skipPastData _, Or.inl rfl⟩
        · cases h
          exact ⟨Nat.dvd_zero _, Or.inl rfl⟩

theorem recoverFrom_of_step (hposition : position + 512 ≤ bytes.length)
    (h : recoverStep bytes indexEntryName position entries = some (skip, entries')) :
    recoverFrom bytes indexEntryName position entries =
      recoverFrom bytes indexEntryName (position + 512 + skip) entries' := by
  rw [recoverFrom, if_pos hposition, h]

theorem recoverFrom_of_stop (h : position + 512 ≤ bytes.length →
      recoverStep bytes indexEntryName position entries = none) :
    recoverFrom bytes indexEntryName position entries = entries := by
  rw [recoverFrom]
  split
  · rename_i hposition
    rw [h hposition]
  · rfl

/-- The scan collects ranges inside the buffer only. -/
theorem recoverFrom_inside (hentries : ∀ entry ∈ entries, entry.2.Inside bytes) :
    ∀ entry ∈ recoverFrom bytes indexEntryName position entries, entry.2.Inside bytes := by
  fun_induction recoverFrom bytes indexEntryName position entries with
  | case1 position entries hposition hstep => exact hentries
  | case2 position entries hposition skip entries' hstep ih =>
    refine ih ?_
    obtain ⟨-, rfl | ⟨header, identifier, checksum, -, -, hsize, hlength, rfl⟩⟩ :=
      recoverStep_cases hstep
    · exact hentries
    · intro entry hentry
      rcases mem_putRecovered hentry with hold | rfl
      · exact hentries entry hold
      · exact ⟨Nat.le_add_right _ _, by dsimp only; omega⟩
  | case3 position entries hposition => exact hentries

theorem recoverFrom_length : entries.length ≤
    (recoverFrom bytes indexEntryName position entries).length := by
  fun_induction recoverFrom bytes indexEntryName position entries with
  | case1 position entries hposition hstep => exact le_rfl
  | case2 position entries hposition skip entries' hstep ih =>
    refine le_trans ?_ ih
    obtain ⟨-, rfl | ⟨header, identifier, checksum, -, -, -, -, rfl⟩⟩ := recoverStep_cases hstep
    · exact le_rfl
    · unfold putRecovered
      split <;> simp
  | case3 position entries hposition => exact le_rfl

/-- No block from `position` on reads as the header of a segment entry. -/
def Barren (bytes : Bytes) (position : Nat) : Prop :=
  ∀ j header, TarEntryHeader.parse (bytes.slice (position + 512 * j) 512) = some header →
    parseSegmentEntryName header.name = none

/-- Where no block reads as a segment entry, the scan collects nothing: it only ever moves
by whole blocks. -/
theorem recoverFrom_barren (hbarren : Barren bytes position) :
    recoverFrom bytes indexEntryName position entries = entries := by
  fun_induction recoverFrom bytes indexEntryName position entries with
  | case1 position entries hposition hstep => rfl
  | case2 position entries hposition skip entries' hstep ih =>
    obtain ⟨⟨m, rfl⟩, hcases⟩ := recoverStep_cases hstep
    have hlater : Barren bytes (position + 512 + 512 * m) := by
      intro j header hheader
      refine hbarren (1 + m + j) header ?_
      rw [show position + 512 * (1 + m + j) = position + 512 + 512 * m + 512 * j by ring]
      exact hheader
    obtain rfl | ⟨header, identifier, checksum, hheader, hname, -⟩ := hcases
    · exact ih hlater
    · rw [hbarren 0 header (by simpa using hheader)] at hname
      cases hname
  | case3 position entries hposition => rfl

end Scan

/-! ## Written segment entries -/

/-- What the scan collects for a row of the index. -/
def PendingIndexEntry.recovered (row : PendingIndexEntry) : SegmentIdentifier × DataRange :=
  (row.identifier, ⟨row.dataOffset.toNat, row.dataOffset.toNat + row.size.toNat⟩)

open PendingIndexEntry (recovered)

def collectRows (entries : List (SegmentIdentifier × DataRange)) (rows : List PendingIndexEntry) :
    List (SegmentIdentifier × DataRange) :=
  rows.foldl (fun entries row => putRecovered entries row.recovered.1 row.recovered.2) entries

theorem headerName_segmentEntryName (identifier : SegmentIdentifier) (checksum : UInt32) :
    headerName (segmentEntryName identifier checksum) =
      Utf8.ascii (segmentEntryName identifier checksum) := by
  have hutf8 := utf8_segmentEntryName identifier checksum
  have hlength : (Utf8.ascii (segmentEntryName identifier checksum)).utf8.length ≤ 100 := by
    rw [hutf8, length_segmentEntryName]
    omega
  have hzero : (0 : UInt8) ∉ (Utf8.ascii (segmentEntryName identifier checksum)).utf8 := by
    rw [hutf8]
    exact fun hmem => (segmentEntryName_chars hmem).2 rfl
  conv_lhs => rw [← hutf8]
  exact headerName_utf8 hlength hzero

section Written

variable {file before rest : Bytes} {write : SegmentWrite} {n : Nat} {indexEntryName : String}
  {entries : List (SegmentIdentifier × DataRange)}

theorem toNat_contentLength (hsize : write.content.length < 2 ^ 31) :
    (UInt64.ofNat write.content.length).toNat = write.content.length := by
  rw [UInt64.toNat_ofNat']
  omega

section

variable (hfile : file = before ++ write.entryBytes ++ rest)
include hfile

theorem parse_writtenHeader (hn : before.length + 512 ≤ n) (hsize : write.content.length < 2 ^ 31) :
    TarEntryHeader.parse (slice (file.take n) before.length 512) =
      some ⟨Utf8.ascii (segmentEntryName write.identifier (crc32 write.content)),
        write.content.length⟩ := by
  have hheader : file.slice before.length 512 = entryHeader write.seconds
      (segmentEntryName write.identifier (crc32 write.content))
      (UInt64.ofNat write.content.length) := by
    refine Bytes.slice_of_eq_append (c := write.content ++
      List.replicate (paddingSize write.content.length) 0 ++ rest) ?_ rfl (by simp)
    rw [hfile, SegmentWrite.entryBytes, segmentEntryBytes]
    simp only [append_assoc]
  have hparse := parse_entryHeader_name write.seconds
    (segmentEntryName write.identifier (crc32 write.content))
    (show (UInt64.ofNat write.content.length).toNat < 2 ^ 31 by
      rw [toNat_contentLength hsize]
      exact hsize)
  rw [slice_take hn, hheader, hparse, headerName_segmentEntryName, toNat_contentLength hsize]

theorem slice_writtenContent (hn : before.length + 512 + write.content.length ≤ n) :
    slice (file.take n) (before.length + 512) write.content.length = write.content := by
  rw [slice_take hn]
  refine Bytes.slice_of_eq_append (a := before ++ entryHeader write.seconds
      (segmentEntryName write.identifier (crc32 write.content))
      (UInt64.ofNat write.content.length))
    (c := List.replicate (paddingSize write.content.length) 0 ++ rest) ?_ (by simp) rfl
  rw [hfile, SegmentWrite.entryBytes, segmentEntryBytes]
  simp only [append_assoc]

theorem length_cut :
    before.length + (512 + blocks write.content.length) ≤ file.length := by
  rw [hfile, length_append, length_append, length_entryBytes]
  omega

/-- A complete entry is collected, and the scan goes on behind its padding. -/
theorem recoverFrom_written
    (hn : before.length + 512 + write.content.length ≤ n) (hsize : write.content.length < 2 ^ 31) :
    recoverFrom (file.take n) indexEntryName before.length entries =
      recoverFrom (file.take n) indexEntryName (before ++ write.entryBytes).length
        (putRecovered entries write.identifier
          ⟨before.length + 512, before.length + 512 + write.content.length⟩) := by
  have hlength := length_cut hfile
  have hblocks := le_blocks write.content.length
  have htake : (file.take n).length = min n file.length := length_take
  have hstep : recoverStep (file.take n) indexEntryName before.length entries =
      some (blocks write.content.length, putRecovered entries write.identifier
        ⟨before.length + 512, before.length + 512 + write.content.length⟩) := by
    have hheader := parse_writtenHeader hfile (show before.length + 512 ≤ n by omega) hsize
    rw [recoverStep]
    simp only [hheader, parseSegmentEntryName_segmentEntryName, Int.toNat_natCast,
      slice_writtenContent hfile hn, skipPastData_natCast]
    rw [if_neg (by omega), if_pos ⟨by omega, Or.inl rfl⟩, if_neg (by simp)]
  rw [recoverFrom_of_step (by omega) hstep, length_append, length_entryBytes, Nat.add_assoc]

/-- An entry that is cut off before the end of its content ends the scan. -/
theorem recoverFrom_torn
    (hn : n < before.length + 512 + write.content.length) (hsize : write.content.length < 2 ^ 31) :
    recoverFrom (file.take n) indexEntryName before.length entries = entries := by
  have htake : (file.take n).length = min n file.length := length_take
  refine recoverFrom_of_stop fun hposition => ?_
  have hheader := parse_writtenHeader hfile (show before.length + 512 ≤ n by omega) hsize
  rw [recoverStep]
  simp only [hheader]
  rw [if_pos (by push_cast; omega)]

end

end Written

variable {ws : List SegmentWrite} {header : TarEntryHeader} {writer : TarArchiveWriter}
  {offset : Nat} {fileName archiveFileName : String} {calls : List ArchiveCall}

/-- Over complete entries the scan collects one row after the other. -/
theorem recoverFrom_layout {file before rest : Bytes} {n : Nat} {indexEntryName : String} {entries : List (SegmentIdentifier × DataRange)}
    (hfile : file = before ++ bodyBytes ws ++ rest)
    (hlimit : (before ++ bodyBytes ws).length ≤ 2 ^ 31 - 1)
    (hcomplete : ∀ row ∈ layout before.length ws, row.recovered.2.stop ≤ n) :
    recoverFrom (file.take n) indexEntryName before.length entries =
      recoverFrom (file.take n) indexEntryName (before ++ bodyBytes ws).length
        (collectRows entries (layout before.length ws)) := by
  induction ws generalizing before entries with
  | nil => simp [bodyBytes, layout, collectRows]
  | cons write ws ih =>
    have hbody : bodyBytes (write :: ws) = write.entryBytes ++ bodyBytes ws := List.flatMap_cons
    have hlayout : layout before.length (write :: ws) =
        write.indexRow before.length :: layout (before ++ write.entryBytes).length ws := by
      rw [layout, length_append]
    rw [hbody, ← append_assoc] at hfile hlimit ⊢
    have hblocks := le_blocks write.content.length
    have hbound : before.length + 512 + write.content.length ≤ 2 ^ 31 - 1 := by
      rw [length_append, length_append, length_entryBytes] at hlimit
      omega
    have hrow : (write.indexRow before.length).recovered = (write.identifier,
        ⟨before.length + 512, before.length + 512 + write.content.length⟩) := by
      simp only [recovered, SegmentWrite.indexRow, UInt32.toNat_ofNat',
        tarBlockSize]
      rw [Nat.mod_eq_of_lt (by omega), Nat.mod_eq_of_lt (by omega)]
    rw [hlayout] at hcomplete ⊢
    have hfirst := hcomplete _ (List.mem_cons_self ..)
    rw [hrow] at hfirst
    rw [recoverFrom_written (by rw [hfile, append_assoc]) hfirst (by omega),
      ih hfile hlimit fun row hmem => hcomplete row (List.mem_cons_of_mem _ hmem)]
    rw [collectRows, collectRows, List.foldl_cons, hrow]

theorem collectRows_of_nodup {entries : List (SegmentIdentifier × DataRange)}
    {rows : List PendingIndexEntry}
    (h : (entries.map Prod.fst ++ rows.map PendingIndexEntry.identifier).Nodup) :
    collectRows entries rows = entries ++ rows.map recovered := by
  induction rows generalizing entries with
  | nil => simp [collectRows]
  | cons row rows ih =>
    have hnew : entries.lookup row.recovered.1 = none := by
      rw [List.lookup_eq_none_iff]
      intro entry hentry
      rw [bne_iff_ne]
      intro heq
      have hdisjoint := (List.nodup_append.mp h).2.2
      exact hdisjoint _ (List.mem_map_of_mem hentry) _ (List.mem_cons_self ..) heq.symm
    have hput : putRecovered entries row.recovered.1 row.recovered.2 = entries ++ [row.recovered] := by
      rw [putRecovered, hnew]
      rfl
    rw [collectRows, List.foldl_cons, hput, ← collectRows, ih]
    · simp
    · rw [List.map_append, append_assoc]
      exact h

/-! ## Blocks that are no segment entries -/

/-- A block whose name reads as that of a segment starts with the text of an identifier. -/
theorem block_of_segmentEntryName {block : Bytes}
    (hparse : TarEntryHeader.parse block = some header)
    (hname : parseSegmentEntryName header.name ≠ none) {i : Nat} (hi : i < 36) :
    ∃ x, block[i]? = some x ∧ 45 ≤ x.toNat := by
  unfold TarEntryHeader.parse at hparse
  split at hparse
  · cases hparse
  dsimp only at hparse
  split at hparse
  · cases hparse
  cases hparse
  dsimp only at hname
  obtain ⟨raw, hraw⟩ : ∃ raw, raw =
    (slice (block.take tarBlockSize) 0 100).takeWhile (· != 0) := ⟨_, rfl⟩
  rw [← hraw] at hname
  unfold parseSegmentEntryName at hname
  dsimp only at hname
  split at hname
  · exact absurd rfl hname
  rename_i hlength
  simp only [Bool.or_eq_true, decide_eq_true_eq, not_or, Nat.not_lt] at hlength
  cases hidentifier : SegmentIdentifier.fromStr ((Utf8.decodeLossy raw).utf8.take 36) with
  | none =>
    rw [hidentifier] at hname
    exact absurd rfl hname
  | some identifier =>
    -- the decoded text starts with ASCII, so it is the start of the raw bytes
    have hascii : ∀ x ∈ (Utf8.decodeLossy raw).utf8.take 36, x.toNat < 128 := by
      intro x hx
      obtain ⟨j, hj⟩ := List.mem_iff_getElem?.mp hx
      have hj36 : j < 36 := by
        have hlt := (List.getElem?_eq_some_iff.mp hj).1
        rw [length_take] at hlt
        omega
      obtain ⟨y, hy, -, hsmall⟩ := SegmentIdentifier.fromStr_chars hidentifier hj36
      rw [hj] at hy
      cases hy
      exact hsmall
    have hstart := Utf8.decodeLossy_take_ascii hlength.1 hascii
    obtain ⟨x, hx, hlow, -⟩ := SegmentIdentifier.fromStr_chars hidentifier hi
    refine ⟨x, ?_, hlow⟩
    rw [← hstart, List.getElem?_take, if_pos hi] at hx
    obtain ⟨more, hmore⟩ := List.takeWhile_prefix (· != 0)
      (l := slice (block.take tarBlockSize) 0 100)
    rw [← hraw] at hmore
    have hin : (slice (block.take tarBlockSize) 0 100)[i]? = some x := by
      rw [← hmore, List.getElem?_append_left (List.getElem?_eq_some_iff.mp hx).1, hx]
    rw [slice_take (by rw [tarBlockSize]; omega), slice, List.drop_zero,
      List.getElem?_take, if_pos (by omega)] at hin
    exact hin

/-- The last byte of an index entry is the compaction flag. -/
theorem indexEntries_flag {entries : List PendingIndexEntry} {q : Nat} (hq : q < entries.length) :
    ∃ x, (entries.flatMap indexEntryBytes)[33 * q + 32]? = some x ∧ x.toNat ≤ 1 := by
  induction entries generalizing q with
  | nil => cases hq
  | cons entry entries ih =>
    rw [List.flatMap_cons]
    cases q with
    | zero =>
      rw [List.getElem?_append_left (by rw [length_indexEntryBytes]; omega), indexEntryBytes,
        List.getElem?_append_right (by simp [int32Bytes])]
      refine ⟨if entry.generation.isCompacted then 1 else 0, by simp [int32Bytes], ?_⟩
      split <;> decide
    | succ q =>
      rw [List.getElem?_append_right (by rw [length_indexEntryBytes]; omega),
        length_indexEntryBytes]
      obtain ⟨x, hx, hsmall⟩ := ih (show q < entries.length by simpa using hq)
      exact ⟨x, by rw [← hx]; congr 1, hsmall⟩

/-- The scan walks through the payload of the index without finding a segment entry: every
block starts either with padding or with index entries, and a flag is among the first 36
bytes of the latter. -/
theorem indexBlock_barren (hoffset : 512 ∣ offset)
    (hin : offset + 512 ≤ writer.serializeIndex.length)
    (hparse : TarEntryHeader.parse (writer.serializeIndex.slice offset 512) = some header) :
    parseSegmentEntryName header.name = none := by
  by_contra hname
  have hblock : ∀ i, i < 36 → ∃ x, writer.serializeIndex[offset + i]? = some x ∧ 45 ≤ x.toNat := by
    intro i hi
    obtain ⟨x, hx, hlow⟩ := block_of_segmentEntryName hparse hname hi
    rw [slice, List.getElem?_take, if_pos (by omega), List.getElem?_drop] at hx
    exact ⟨x, hx, hlow⟩
  have hperm := (sortedIndexEntries_perm writer).length_eq
  have hlength := length_serializeIndex writer
  obtain ⟨count, hcount⟩ : ∃ count, count = writer.indexEntries.length := ⟨_, rfl⟩
  obtain ⟨pad, hpad⟩ : ∃ pad, pad = blocks (count * 33 + 16) - (count * 33 + 16) := ⟨_, rfl⟩
  have hentries := (encodesIndex_indexEntryBytes writer.sortedIndexEntries).length_flatMap
  rw [show indexEntrySize 2 = 33 from rfl, hperm, ← hcount] at hentries
  have hindex : writer.serializeIndex = List.replicate pad 0 ++
      writer.sortedIndexEntries.flatMap indexEntryBytes ++
      footerBytes (writer.sortedIndexEntries.flatMap indexEntryBytes) count
        (blocks (count * 33 + 16)) indexVersion2Magic := by
    rw [hpad, hcount]
    rfl
  have hfit := le_blocks (count * 33 + 16)
  rw [← hcount] at hlength
  rcases Nat.lt_or_ge offset pad with hpadding | hentry
  · obtain ⟨x, hx, hlow⟩ := hblock 0 (by omega)
    rw [Nat.add_zero, hindex, append_assoc,
      List.getElem?_append_left (by rw [List.length_replicate]; exact hpadding),
      List.getElem?_replicate, if_pos hpadding] at hx
    cases hx
    exact absurd hlow (by decide)
  · -- the flag of the entry that the block starts in
    obtain ⟨q, hq⟩ : ∃ q, q = (offset - pad) / 33 := ⟨_, rfl⟩
    obtain ⟨i, hi⟩ : ∃ i, i = 32 - (offset - pad) % 33 := ⟨_, rfl⟩
    have hat : offset + i = pad + (33 * q + 32) := by omega
    have hqlt : q < count := by omega
    obtain ⟨x, hx, hlow⟩ := hblock i (by omega)
    obtain ⟨y, hy, hsmall⟩ := indexEntries_flag (show q < writer.sortedIndexEntries.length by
      rw [hperm, ← hcount]
      exact hqlt)
    rw [hat, hindex, append_assoc, List.getElem?_append_right
      (by rw [List.length_replicate]; omega), List.length_replicate, Nat.add_sub_cancel_left,
      List.getElem?_append_left (by rw [hentries]; omega), hy] at hx
    cases hx
    omega

theorem parse_zeros (n : Nat) : TarEntryHeader.parse (List.replicate n 0) = none := by
  unfold TarEntryHeader.parse
  split
  · rfl
  · simp

/-! ## The trailers -/

/-- The names of the trailer entries, as far as their headers keep them, read neither as
the name of a segment nor, but for the last, as the index entry that the scan walks into. -/
structure TrailersNamed (fileName indexEntryName : String) : Prop where
  catalog : parseSegmentEntryName (headerName (fileName ++ ".brf").utf8) = none ∧
    headerName (fileName ++ ".brf").utf8 ≠ indexEntryName
  graph : parseSegmentEntryName (headerName (fileName ++ ".gph").utf8) = none ∧
    headerName (fileName ++ ".gph").utf8 ≠ indexEntryName
  index : parseSegmentEntryName (headerName (fileName ++ ".idx").utf8) = none

section Trailers

variable {file before rest payload : Bytes} {n : Nat} {indexEntryName entryName : String}
  {seconds : UInt64} {entries : List (SegmentIdentifier × DataRange)}

section

variable (hfile : file = before ++ trailerEntryBytes seconds entryName payload ++ rest)
include hfile

section

variable (hsize : blocks payload.length < 2 ^ 31)
include hsize

theorem parse_trailerHeader (hn : before.length + 512 ≤ n) :
    TarEntryHeader.parse (slice (file.take n) before.length 512) =
      some ⟨headerName entryName.utf8, blocks payload.length⟩ := by
  have hpadded : payload.length + paddingSize payload.length = blocks payload.length :=
    add_paddingSize _
  have hword : (UInt64.ofNat (blocks payload.length)).toNat = blocks payload.length := by
    rw [UInt64.toNat_ofNat']
    omega
  have hslice : file.slice before.length 512 = entryHeader seconds entryName.utf8
      (UInt64.ofNat (blocks payload.length)) := by
    refine Bytes.slice_of_eq_append (c := List.replicate (paddingSize payload.length) 0 ++
      payload ++ rest) ?_ rfl (by simp)
    rw [hfile, trailerEntryBytes, hpadded]
    simp only [append_assoc]
  rw [slice_take hn, hslice,
    parse_entryHeader_name seconds entryName.utf8 (by rw [hword]; exact hsize), hword]

/-- A catalog or graph entry is skipped whole, or it is cut off and ends the scan. -/
theorem recoverFrom_trailerEntry (hname : parseSegmentEntryName (headerName entryName.utf8) = none ∧
      headerName entryName.utf8 ≠ indexEntryName) :
    recoverFrom (file.take n) indexEntryName before.length entries = entries ∨
      recoverFrom (file.take n) indexEntryName before.length entries =
        recoverFrom (file.take n) indexEntryName
          (before ++ trailerEntryBytes seconds entryName payload).length entries := by
  have htake : (file.take n).length = min n file.length := length_take
  by_cases hposition : before.length + 512 ≤ (file.take n).length
  swap
  · exact Or.inl (recoverFrom_of_stop fun h => absurd h hposition)
  have hheader := parse_trailerHeader hfile hsize (show before.length + 512 ≤ n by omega)
  by_cases hcut : ((before.length + 512 : Nat) : Int) + (blocks payload.length : Int) >
      (file.take n).length
  · refine Or.inl (recoverFrom_of_stop fun _ => ?_)
    rw [recoverStep]
    simp only [hheader]
    rw [if_pos hcut]
  · have hstep : recoverStep (file.take n) indexEntryName before.length entries =
        some (blocks payload.length, entries) := by
      have hwhole : blocks (blocks payload.length) = blocks payload.length := by
        unfold blocks
        omega
      rw [recoverStep]
      simp only [hheader, hname.1, skipPastData_natCast, hwhole]
      rw [if_neg hcut, if_pos hname.2]
    refine Or.inr ?_
    rw [recoverFrom_of_step hposition hstep, length_append, length_trailerEntryBytes,
      Nat.add_assoc]

/-- A trailer that is named like a segment not met before is collected as one. -/
theorem recoverFrom_misnamed {identifier : SegmentIdentifier}
    (hname : parseSegmentEntryName (headerName entryName.utf8) = some (identifier, none))
    (hnew : entries.lookup identifier = none) :
    entries.length < (recoverFrom file indexEntryName before.length entries).length := by
  have hlength : before.length + (512 + blocks payload.length) ≤ file.length := by
    rw [hfile, length_append, length_append, length_trailerEntryBytes]
    omega
  have hheader := parse_trailerHeader hfile hsize (show before.length + 512 ≤ file.length by omega)
  rw [List.take_length] at hheader
  have hstep : recoverStep file indexEntryName before.length entries =
      some (skipPastData (blocks payload.length), putRecovered entries identifier
        ⟨before.length + 512, before.length + 512 + blocks payload.length⟩) := by
    rw [recoverStep]
    simp only [hheader, hname, hnew]
    rw [if_neg (by push_cast; omega), if_pos ⟨by omega, Or.inr rfl⟩, if_neg (by simp)]
    rfl
  rw [recoverFrom_of_step (by omega) hstep]
  refine lt_of_lt_of_le ?_ recoverFrom_length
  rw [putRecovered, hnew]
  simp

end

end

/-- Nothing from the index entry on reads as a segment entry. -/
theorem barren_index {writer : TarArchiveWriter} (hfile : file = before ++ (entryHeader seconds
      entryName.utf8 (UInt64.ofNat writer.serializeIndex.length) ++ writer.serializeIndex) ++
      List.replicate (2 * tarBlockSize) 0)
    (hsize : writer.serializeIndex.length < 2 ^ 31)
    (hname : parseSegmentEntryName (headerName entryName.utf8) = none) :
    Barren (file.take n) before.length := by
  intro j header hheader
  have hfull : before.length + 512 * j + 512 ≤ n ∧ before.length + 512 * j + 512 ≤ file.length := by
    by_contra hshort
    have hlength : (slice (file.take n) (before.length + 512 * j) 512).length <
        tarBlockSize := by
      rw [Bytes.length_slice, length_take, tarBlockSize]
      omega
    rw [TarEntryHeader.parse, if_pos hlength] at hheader
    cases hheader
  have hwhole : writer.serializeIndex.length % 512 = 0 := by
    rw [length_serializeIndex]
    exact blocks_mod _
  rw [slice_take hfull.1] at hheader
  cases j with
  | zero =>
    have hword : (UInt64.ofNat writer.serializeIndex.length).toNat =
        writer.serializeIndex.length := by
      rw [UInt64.toNat_ofNat']
      omega
    have hslice : file.slice (before.length + 512 * 0) 512 = entryHeader seconds entryName.utf8
        (UInt64.ofNat writer.serializeIndex.length) := by
      refine Bytes.slice_of_eq_append (c := writer.serializeIndex ++
        List.replicate (2 * tarBlockSize) 0) ?_ rfl (by simp)
      rw [hfile]
      simp only [append_assoc]
    rw [hslice, parse_entryHeader_name seconds entryName.utf8 (by rw [hword]; exact hsize)]
      at hheader
    cases hheader
    exact hname
  | succ j =>
    have hparts : file = (before ++ entryHeader seconds entryName.utf8
        (UInt64.ofNat writer.serializeIndex.length)) ++ (writer.serializeIndex ++
        List.replicate (2 * tarBlockSize) 0) := by
      rw [hfile]
      simp only [append_assoc]
    have hstart : (before ++ entryHeader seconds entryName.utf8
        (UInt64.ofNat writer.serializeIndex.length)).length = before.length + 512 := by
      rw [length_append, length_entryHeader]
    rw [hparts, Bytes.slice_append_right (by rw [hstart]; omega), hstart,
      show before.length + 512 * (j + 1) - (before.length + 512) = 512 * j by omega] at hheader
    rcases Nat.lt_or_ge (512 * j) writer.serializeIndex.length with hindex | hzeros
    · rw [Bytes.slice_append_left (by omega)] at hheader
      exact indexBlock_barren ⟨j, rfl⟩ (by omega) hheader
    · rw [Bytes.slice_append_right hzeros, slice, List.drop_replicate, List.take_replicate,
        parse_zeros] at hheader
      cases hheader

end Trailers

/-- Behind the segments of a closed archive the scan collects nothing. -/
theorem recoverFrom_trailers {times : CloseTimes} {file before : Bytes}
    {n : Nat} {indexEntryName : String} {entries : List (SegmentIdentifier × DataRange)}
    (hfile : file = before ++ writer.trailerBytes times)
    (hcatalog : blocks writer.serializeBinaryReferences.length < 2 ^ 31)
    (hgraph : blocks writer.serializeGraph.length < 2 ^ 31)
    (hindex : writer.serializeIndex.length < 2 ^ 31)
    (hnames : TrailersNamed writer.fileName indexEntryName) :
    recoverFrom (file.take n) indexEntryName before.length entries = entries := by
  have hparts : file = before ++ trailerEntryBytes times.binaryReferences
      (writer.fileName ++ ".brf") writer.serializeBinaryReferences ++
      (trailerEntryBytes times.graph (writer.fileName ++ ".gph") writer.serializeGraph ++
        (entryHeader times.index (writer.fileName ++ ".idx").utf8
          (UInt64.ofNat writer.serializeIndex.length) ++ writer.serializeIndex) ++
        List.replicate (2 * tarBlockSize) 0) := by
    rw [hfile, trailerBytes]
    simp only [append_assoc]
  rcases recoverFrom_trailerEntry hparts hcatalog hnames.catalog with hstop | hnext
  · exact hstop
  rw [hnext]
  rw [← append_assoc, ← append_assoc] at hparts
  rw [append_assoc _ _ (List.replicate (2 * tarBlockSize) 0)] at hparts
  rcases recoverFrom_trailerEntry hparts hgraph hnames.graph with hstop | hnext
  · exact hstop
  rw [hnext]
  rw [← append_assoc] at hparts
  exact recoverFrom_barren (barren_index hparts hindex hnames.index)

/-! ## Cut archives -/

/-- The files a writer leaves: not closed, or closed with trailers whose sizes the scan
reads and whose names it passes over. -/
inductive Produced (writer : TarArchiveWriter) (archiveFileName : String) : Bytes → Prop where
  | unclosed {file : Bytes} (hfile : writer.file = some file) : Produced writer archiveFileName file
  | closed {file : Bytes} {times : CloseTimes} (hclose : writer.close times = some file)
      (hcatalog : blocks writer.serializeBinaryReferences.length < 2 ^ 31)
      (hgraph : blocks writer.serializeGraph.length < 2 ^ 31)
      (hnames : TrailersNamed writer.fileName (archiveFileName ++ ".idx")) :
      Produced writer archiveFileName file

theorem indexRow_recovered {write : SegmentWrite}
    (h : offset + 512 + write.content.length ≤ 2 ^ 31 - 1) :
    (write.indexRow offset).recovered =
      (write.identifier, ⟨offset + 512, offset + 512 + write.content.length⟩) := by
  simp only [recovered, SegmentWrite.indexRow, UInt32.toNat_ofNat', tarBlockSize]
  rw [Nat.mod_eq_of_lt (by omega), Nat.mod_eq_of_lt (by omega)]

theorem bodyBytes_cons (write : SegmentWrite) (ws : List SegmentWrite) :
    bodyBytes (write :: ws) = write.entryBytes ++ bodyBytes ws := List.flatMap_cons

/-- Every content ends inside the body. -/
theorem stop_le_of_mem_layout {row : PendingIndexEntry}
    (hlimit : offset + (bodyBytes ws).length ≤ 2 ^ 31 - 1) (h : row ∈ layout offset ws) :
    row.recovered.2.stop ≤ offset + (bodyBytes ws).length := by
  obtain ⟨before, write, after, rfl, rfl⟩ := mem_layout h
  have hblocks := le_blocks write.content.length
  rw [bodyBytes_append, bodyBytes_cons, length_append, length_append, length_entryBytes]
    at hlimit ⊢
  rw [indexRow_recovered (by omega)]
  dsimp only
  omega

/-- The ends of the contents grow, so the last one bounds them all. -/
theorem stops_le_of_last {n : Nat} (hlimit : (bodyBytes ws).length ≤ 2 ^ 31 - 1)
    (hlast : ∀ row ∈ (layout 0 ws).getLast?, row.recovered.2.stop ≤ n) :
    ∀ row ∈ layout 0 ws, row.recovered.2.stop ≤ n := by
  intro row hrow
  rcases List.eq_nil_or_concat ws with rfl | ⟨earlier, write, rfl⟩
  · cases hrow
  rw [List.concat_eq_append] at *
  have hblocks := le_blocks write.content.length
  have hbody : (bodyBytes (earlier ++ [write])).length =
      (bodyBytes earlier).length + (512 + blocks write.content.length) := by
    rw [bodyBytes_append, bodyBytes_cons, length_append, length_append,
      length_entryBytes, show (bodyBytes []).length = 0 from rfl, Nat.add_zero]
  rw [layout_append, layout, layout] at hrow hlast
  have hend : (write.indexRow (0 + (bodyBytes earlier).length)).recovered.2.stop ≤ n :=
    hlast _ (by rw [List.getLast?_append]; rfl)
  rw [indexRow_recovered (by omega)] at hend
  dsimp only at hend
  rcases List.mem_append.mp hrow with hrow | hrow
  · have hstop := stop_le_of_mem_layout (by omega) hrow
    omega
  · cases List.mem_singleton.mp hrow
    rw [indexRow_recovered (by omega)]
    exact hend

/-- The rows of complete entries lead to the contents that were written. -/
theorem rows_read_contents {file before rest : Bytes} {n : Nat}
    (hfile : file = before ++ bodyBytes ws ++ rest)
    (hlimit : (before ++ bodyBytes ws).length ≤ 2 ^ 31 - 1)
    (hcomplete : ∀ row ∈ layout before.length ws, row.recovered.2.stop ≤ n) :
    List.Forall₂ (fun entry write => entry.1 = write.identifier ∧
        Bytes.range? (file.take n) entry.2.start entry.2.stop = some write.content)
      ((layout before.length ws).map recovered) ws := by
  induction ws generalizing before with
  | nil => exact .nil
  | cons write ws ih =>
    have hblocks := le_blocks write.content.length
    rw [bodyBytes_cons, ← append_assoc] at hfile hlimit
    have hbound : before.length + 512 + write.content.length ≤ 2 ^ 31 - 1 := by
      rw [length_append, length_append, length_entryBytes] at hlimit
      omega
    rw [layout, ← length_append] at hcomplete ⊢
    have hfirst := hcomplete _ (List.mem_cons_self ..)
    rw [indexRow_recovered hbound] at hfirst
    have hcut : file = before ++ write.entryBytes ++ (bodyBytes ws ++ rest) := by
      rw [hfile, append_assoc]
    have hlength := length_cut hcut
    refine .cons ⟨?_, ?_⟩ (ih hfile hlimit fun row hmem =>
      hcomplete row (List.mem_cons_of_mem _ hmem))
    · rw [indexRow_recovered hbound]
    · rw [indexRow_recovered hbound]
      dsimp only at hfirst ⊢
      rw [Bytes.range?_of_le (by rw [length_take]; omega), slice_writtenContent hcut hfirst]

theorem length_bodyBytes_ge (ws : List SegmentWrite) : 512 * ws.length ≤ (bodyBytes ws).length := by
  induction ws with
  | nil => exact Nat.zero_le _
  | cons write ws ih =>
    rw [length_bodyBytes_cons, length_entryBytes, List.length_cons]
    omega

theorem Produced.body {file : Bytes} (hrep : Represents writer fileName calls)
    (h : Produced writer archiveFileName file) : ∃ rest, file = bodyBytes (writes calls) ++ rest ∧
      ∀ n entries, recoverFrom (file.take n) (archiveFileName ++ ".idx")
        (bodyBytes (writes calls)).length entries = entries := by
  cases h with
  | unclosed hfile =>
    rw [hrep.file] at hfile
    split at hfile
    · cases hfile
    · cases hfile
      refine ⟨[], (List.append_nil _).symm, fun n entries => recoverFrom_of_stop fun hposition => ?_⟩
      rw [length_take] at hposition
      omega
  | closed hclose hcatalog hgraph hnames =>
    obtain ⟨-, hfile⟩ := hrep.close_eq hclose
    have hindex : writer.serializeIndex.length < 2 ^ 31 := by
      have hbody := length_bodyBytes_ge (writes calls)
      have hlimit := hrep.limit
      rw [hrep.length] at hlimit
      rw [length_serializeIndex, hrep.length_indexEntries, blocks]
      omega
    exact ⟨_, hfile, fun n entries => recoverFrom_trailers hfile hcatalog hgraph hindex hnames⟩

/-- **The recovery scan agrees with the index.**  Of an archive with distinct segments, cut
off at or behind the end of the content of one and before the end of the content of the
next, the scan returns exactly the index rows of the segments up to the former, in the
order of their writes, and their ranges hold the contents.  Of any bytes whatsoever it
returns ranges inside the buffer only. -/
theorem recoverSegmentEntries_cut {fileName archiveFileName : String} {calls : List ArchiveCall}
    {writer : TarArchiveWriter} {file : Bytes} {n : Nat} {before after : List PendingIndexEntry}
    (hdistinct : ((writes calls).map SegmentWrite.identifier).Nodup)
    (hrun : (new fileName).run calls = .ok writer) (hfile : Produced writer archiveFileName file)
    (hrows : writer.indexEntries = before ++ after)
    (hkept : ∀ row ∈ before.getLast?, row.recovered.2.stop ≤ n)
    (hcut : ∀ row ∈ after.head?, n < row.recovered.2.stop) :
    (recoverSegmentEntries (file.take n) archiveFileName = before.map PendingIndexEntry.recovered ∧
      List.Forall₂ (fun entry write => entry.1 = write.identifier ∧
          Bytes.range? (file.take n) entry.2.start entry.2.stop = some write.content)
        (recoverSegmentEntries (file.take n) archiveFileName)
        ((writes calls).take before.length)) ∧
      ∀ bytes name, ∀ entry ∈ recoverSegmentEntries bytes name, entry.2.Inside bytes := by
  have hinside : ∀ bytes name, ∀ entry ∈ recoverSegmentEntries bytes name,
      entry.2.Inside bytes := fun bytes name => recoverFrom_inside (by simp)
  refine ⟨?_, hinside⟩
  have hrep := represents_run hrun
  obtain ⟨rest, hbody, hend⟩ := hfile.body hrep
  have hlimit := hrep.limit
  rw [hrep.length] at hlimit
  -- the writes on both sides of the cut
  obtain ⟨kept, hkeptWrites⟩ : ∃ kept, kept = (writes calls).take before.length := ⟨_, rfl⟩
  obtain ⟨lost, hlostWrites⟩ : ∃ lost, lost = (writes calls).drop before.length := ⟨_, rfl⟩
  have hwrites : writes calls = kept ++ lost := by
    rw [hkeptWrites, hlostWrites, List.take_append_drop]
  have hcount : before.length ≤ (writes calls).length := by
    have := congrArg List.length hrows
    rw [hrep.length_indexEntries, List.length_append] at this
    omega
  have hsplit : layout 0 kept = before ∧ layout (bodyBytes kept).length lost = after := by
    rw [hrep.index, hwrites, layout_append, Nat.zero_add] at hrows
    refine List.append_inj hrows ?_
    rw [length_layout, hkeptWrites, List.length_take]
    omega
  rw [← hsplit.1] at hkept
  rw [← hsplit.2] at hcut
  have hkeptLimit : (bodyBytes kept).length ≤ 2 ^ 31 - 1 := by
    rw [hwrites, bodyBytes_append, List.length_append] at hlimit
    omega
  have hcomplete := stops_le_of_last hkeptLimit hkept
  have hfileKept : file = [] ++ bodyBytes kept ++ (bodyBytes lost ++ rest) := by
    rw [hbody, hwrites, bodyBytes_append]
    simp
  have hscan : recoverSegmentEntries (file.take n) archiveFileName =
      before.map PendingIndexEntry.recovered := by
    have hcollect : collectRows [] (layout 0 kept) =
        before.map PendingIndexEntry.recovered := by
      rw [collectRows_of_nodup, hsplit.1, List.nil_append]
      rw [List.map_nil, List.nil_append, layout_map_identifier]
      rw [hwrites, List.map_append] at hdistinct
      exact (List.nodup_append.mp hdistinct).1
    have hlayout : recoverFrom (file.take n) (archiveFileName ++ ".idx") 0 [] =
        recoverFrom (file.take n) (archiveFileName ++ ".idx") (bodyBytes kept).length
          (collectRows [] (layout 0 kept)) :=
      recoverFrom_layout hfileKept hkeptLimit hcomplete
    rw [recoverSegmentEntries, hlayout, hcollect]
    cases lost with
    | nil =>
      rw [List.append_nil] at hwrites
      rw [← hwrites, hend]
    | cons write lost =>
      have hwrite : file = bodyBytes kept ++ write.entryBytes ++ (bodyBytes lost ++ rest) := by
        rw [hfileKept, bodyBytes_cons]
        simp
      have hblocks := le_blocks write.content.length
      rw [hwrites, bodyBytes_append, bodyBytes_cons, List.length_append, List.length_append,
        length_entryBytes] at hlimit
      have hstop := hcut _ rfl
      rw [indexRow_recovered (by omega)] at hstop
      exact recoverFrom_torn hwrite hstop (by omega)
  refine ⟨hscan, ?_⟩
  rw [hscan, ← hkeptWrites, ← hsplit.1]
  exact rows_read_contents hfileKept hkeptLimit hcomplete

/-- The trailers of an archive with a short name, such as the store gives, are passed over. -/
theorem trailersNamed_of_short (hlength : fileName.utf8.length ≤ 31)
    (hzero : (0 : UInt8) ∉ fileName.utf8) (archiveFileName : String) :
    TrailersNamed fileName (archiveFileName ++ ".idx") := by
  have hname : ∀ suffix : String, suffix.utf8.length = 4 → (0 : UInt8) ∉ suffix.utf8 →
      headerName (fileName ++ suffix).utf8 = fileName ++ suffix ∧
        parseSegmentEntryName (fileName ++ suffix) = none := by
    intro suffix hsuffix hplain
    have hshort : (fileName ++ suffix).utf8.length < 36 := by
      rw [Utf8.utf8_append, length_append]
      omega
    refine ⟨headerName_utf8 (by omega) ?_, ?_⟩
    · rw [Utf8.utf8_append, List.mem_append]
      exact fun h => h.elim hzero hplain
    · simp only [parseSegmentEntryName, hshort, decide_true, Bool.true_or, if_true]
  have hdistinct : ∀ suffix : String, suffix.utf8.length = 4 → suffix ≠ ".idx" →
      fileName ++ suffix ≠ archiveFileName ++ ".idx" := by
    intro suffix hsuffix hne heq
    have hbytes := congrArg String.utf8 heq
    rw [Utf8.utf8_append, Utf8.utf8_append] at hbytes
    exact hne (Utf8.utf8_injective (List.append_inj_right' hbytes hsuffix))
  have hcatalog := hname ".brf" (by decide) (by decide)
  have hgraph := hname ".gph" (by decide) (by decide)
  have hindex := hname ".idx" (by decide) (by decide)
  refine ⟨⟨?_, ?_⟩, ⟨?_, ?_⟩, ?_⟩
  · rw [hcatalog.1, hcatalog.2]
  · rw [hcatalog.1]
    exact hdistinct ".brf" (by decide) (by decide)
  · rw [hgraph.1, hgraph.2]
  · rw [hgraph.1]
    exact hdistinct ".gph" (by decide) (by decide)
  · rw [hindex.1, hindex.2]

/-- Two segments, the second one in bulk. -/
def scannedWrites : List SegmentWrite :=
  [⟨0, ⟨1, 0xA000000000000000⟩, [1, 2, 3], ⟨0, 0, false⟩, [], []⟩,
    ⟨0, ⟨2, 0xB000000000000000⟩, [4, 5], ⟨0, 0, false⟩, [], []⟩]

/-- A closed archive of two segments, cut one byte before the end of the second content. -/
theorem recoverSegmentEntries_cut_scannedWrites : ∃ writer file,
    (new "data00000a.tar").run (scannedWrites.map .writeSegment) = .ok writer ∧
      writer.close ⟨0, 0, 0⟩ = some file ∧
      recoverSegmentEntries (file.take 1537) "data00000a.tar" =
        [(⟨1, 0xA000000000000000⟩, ⟨512, 515⟩)] := by
  have hwrites : writes (scannedWrites.map .writeSegment) = scannedWrites := rfl
  have hlayout : layout 0 scannedWrites =
      [⟨⟨1, 0xA000000000000000⟩, 512, 3, ⟨0, 0, false⟩⟩] ++
        [⟨⟨2, 0xB000000000000000⟩, 1536, 2, ⟨0, 0, false⟩⟩] := by
    simp [scannedWrites, layout, SegmentWrite.indexRow, blocks, tarBlockSize]
  have hbody : (bodyBytes (writes (scannedWrites.map .writeSegment))).length ≤ 2 ^ 31 - 1 := by
    rw [length_bodyBytes]
    decide
  obtain ⟨writer, hrun⟩ : ∃ writer,
      (new "data00000a.tar").run (scannedWrites.map .writeSegment) = .ok writer :=
    run_ok_of_length hbody
  have hrep := represents_run hrun
  have hclose : writer.close ⟨0, 0, 0⟩ =
      some (bodyBytes scannedWrites ++ writer.trailerBytes ⟨0, 0, 0⟩) := by
    rw [TarArchiveWriter.close, hrep.file, if_neg (by decide), hwrites]
    rfl
  have hcatalog : blocks writer.serializeBinaryReferences.length < 2 ^ 31 := by
    rw [hrep.length_serializeBinaryReferences]
    decide
  have hgraph : blocks writer.serializeGraph.length < 2 ^ 31 := by
    rw [hrep.length_serializeGraph]
    decide
  have hnames : TrailersNamed writer.fileName ("data00000a.tar" ++ ".idx") := by
    rw [hrep.fileName]
    exact trailersNamed_of_short (by decide) (by decide) _
  refine ⟨writer, _, hrun, hclose, ?_⟩
  refine (recoverSegmentEntries_cut (by rw [hwrites]; decide) hrun
    (.closed hclose hcatalog hgraph hnames) ((hrep.index.trans (by rw [hwrites])).trans hlayout)
    ?_ ?_).1.1
  · intro row hrow
    cases hrow
    decide
  · intro row hrow
    cases hrow
    decide

/-! ## Where the scan and the index differ -/

/-- When every content is complete, the rows are collected one after the other. -/
theorem recoverSegmentEntries_complete {file : Bytes} {n : Nat}
    (hrep : Represents writer fileName calls) (hfile : Produced writer archiveFileName file)
    (hcomplete : ∀ row ∈ layout 0 (writes calls), row.recovered.2.stop ≤ n) :
    recoverSegmentEntries (file.take n) archiveFileName =
      collectRows [] (layout 0 (writes calls)) := by
  obtain ⟨rest, hbody, hend⟩ := hfile.body hrep
  have hlimit := hrep.limit
  rw [hrep.length] at hlimit
  have hparts : file = [] ++ bodyBytes (writes calls) ++ rest := by
    rw [hbody]
    rfl
  have hlayout : recoverFrom (file.take n) (archiveFileName ++ ".idx") 0 [] =
      recoverFrom (file.take n) (archiveFileName ++ ".idx") (bodyBytes (writes calls)).length
        (collectRows [] (layout 0 (writes calls))) :=
    recoverFrom_layout hparts hlimit hcomplete
  rw [recoverSegmentEntries, hlayout, hend]

theorem exists_writer (fileName : String) (ws : List SegmentWrite) (hne : ws ≠ [])
    (hsize : bodySize ws ≤ 2 ^ 31 - 1) : ∃ writer,
      (new fileName).run (ws.map .writeSegment) = .ok writer ∧
      Represents writer fileName (ws.map .writeSegment) ∧ writer.file = some (bodyBytes ws) ∧
      writer.indexEntries = layout 0 ws := by
  have hwrites : writes (ws.map .writeSegment) = ws := by
    rw [writes, List.filterMap_map]
    exact List.filterMap_some
  obtain ⟨writer, hrun⟩ : ∃ writer, (new fileName).run (ws.map .writeSegment) = .ok writer :=
    run_ok_of_length (by rw [hwrites, length_bodyBytes]; exact hsize)
  have hrep := represents_run hrun
  refine ⟨writer, hrun, hrep, ?_, ?_⟩
  · rw [hrep.file, hwrites, if_neg hne]
  · rw [hrep.index, hwrites]

def tinyWrite (byte : UInt8) : SegmentWrite :=
  ⟨0, ⟨1, 0xA000000000000000⟩, [byte], ⟨0, 0, false⟩, [], []⟩

def segmentLikeName : String := "11111111-1111-4111-a111-111111111111"

theorem parseSegmentEntryName_segmentLikeName :
    parseSegmentEntryName (headerName (segmentLikeName ++ ".brf").utf8) =
      some (⟨0x1111111111114111, 0xa111111111111111⟩, none) := by
  rw [headerName_utf8 (by decide) (by decide)]
  decide +kernel

/-- A segment counts as written once its content is complete, although its block is not;
a segment written twice is returned once, with the later range; and the catalog of an
archive that is named like a segment is returned as one. -/
theorem recoverSegmentEntries_not_index :
    (∃ writer file, (new "data00000a.tar").run [.writeSegment (tinyWrite 7)] = .ok writer ∧
      writer.file = some file ∧ file.length = 1024 ∧
      recoverSegmentEntries (file.take 520) "data00000a.tar" =
        [((tinyWrite 7).identifier, ⟨512, 513⟩)]) ∧
    (∃ writer file, (new "data00000a.tar").run
        [.writeSegment (tinyWrite 7), .writeSegment (tinyWrite 8)] = .ok writer ∧
      writer.file = some file ∧ writer.indexEntries.length = 2 ∧
      recoverSegmentEntries file "data00000a.tar" =
        [((tinyWrite 7).identifier, ⟨1536, 1537⟩)]) ∧
    ∃ writer file, (new segmentLikeName).run [.writeSegment (tinyWrite 7)] = .ok writer ∧
      writer.close ⟨0, 0, 0⟩ = some file ∧ writer.indexEntries.length = 1 ∧
      1 < (recoverSegmentEntries file segmentLikeName).length := by
  have hone : layout 0 [tinyWrite 7] = [⟨(tinyWrite 7).identifier, 512, 1, ⟨0, 0, false⟩⟩] := by
    simp [tinyWrite, layout, SegmentWrite.indexRow, tarBlockSize]
  have htwo : layout 0 [tinyWrite 7, tinyWrite 8] =
      [⟨(tinyWrite 7).identifier, 512, 1, ⟨0, 0, false⟩⟩,
        ⟨(tinyWrite 7).identifier, 1536, 1, ⟨0, 0, false⟩⟩] := by
    simp [tinyWrite, layout, SegmentWrite.indexRow, blocks, tarBlockSize]
  refine ⟨?_, ?_, ?_⟩
  · obtain ⟨writer, hrun, hrep, hfile, -⟩ :=
      exists_writer "data00000a.tar" [tinyWrite 7] (by simp) (by decide)
    have hwrites : writes ([tinyWrite 7].map .writeSegment) = [tinyWrite 7] := rfl
    refine ⟨writer, _, hrun, hfile, by rw [length_bodyBytes]; decide, ?_⟩
    rw [recoverSegmentEntries_complete hrep (.unclosed hfile), hwrites, hone]
    · decide
    · rw [hwrites, hone]
      decide
  · obtain ⟨writer, hrun, hrep, hfile, hindex⟩ :=
      exists_writer "data00000a.tar" [tinyWrite 7, tinyWrite 8] (by simp) (by decide)
    have hwrites : writes ([tinyWrite 7, tinyWrite 8].map .writeSegment) =
        [tinyWrite 7, tinyWrite 8] := rfl
    refine ⟨writer, _, hrun, hfile, by rw [hindex, htwo]; rfl, ?_⟩
    have hproduced : Produced writer "data00000a.tar" (bodyBytes [tinyWrite 7, tinyWrite 8]) :=
      .unclosed hfile
    have hscan := recoverSegmentEntries_complete (n := 2048) hrep hproduced
    have hall : (bodyBytes [tinyWrite 7, tinyWrite 8]).take 2048 =
        bodyBytes [tinyWrite 7, tinyWrite 8] :=
      List.take_of_length_le (by rw [length_bodyBytes]; decide)
    rw [hwrites, htwo, hall] at hscan
    rw [hscan]
    · decide
    · decide
  · obtain ⟨writer, hrun, hrep, hfile, hindex⟩ :=
      exists_writer segmentLikeName [tinyWrite 7] (by simp) (by decide)
    have hclose : writer.close ⟨0, 0, 0⟩ =
        some (bodyBytes [tinyWrite 7] ++ writer.trailerBytes ⟨0, 0, 0⟩) := by
      rw [TarArchiveWriter.close, hfile]
      rfl
    refine ⟨writer, _, hrun, hclose, by rw [hindex, hone]; rfl, ?_⟩
    obtain ⟨file, hclosed⟩ : ∃ file, file =
      bodyBytes [tinyWrite 7] ++ writer.trailerBytes ⟨0, 0, 0⟩ := ⟨_, rfl⟩
    have hbody : file = [] ++ bodyBytes [tinyWrite 7] ++ writer.trailerBytes ⟨0, 0, 0⟩ := hclosed
    have hcatalog : file = bodyBytes [tinyWrite 7] ++ trailerEntryBytes 0 (segmentLikeName ++ ".brf")
        writer.serializeBinaryReferences ++ (trailerEntryBytes 0 (writer.fileName ++ ".gph")
          writer.serializeGraph ++ (entryHeader 0 (writer.fileName ++ ".idx").utf8
            (UInt64.ofNat writer.serializeIndex.length) ++ writer.serializeIndex) ++
          List.replicate (2 * tarBlockSize) 0) := by
      rw [hclosed, trailerBytes, hrep.fileName]
      simp only [List.append_assoc]
    have hlayout : recoverFrom (file.take file.length) (segmentLikeName ++ ".idx") 0 [] =
        recoverFrom (file.take file.length) (segmentLikeName ++ ".idx")
          (bodyBytes [tinyWrite 7]).length (collectRows [] (layout 0 [tinyWrite 7])) := by
      refine recoverFrom_layout hbody (by rw [List.nil_append, length_bodyBytes]; decide) ?_
      change ∀ row ∈ layout 0 [tinyWrite 7], _
      have hlong : 1024 ≤ file.length := by
        rw [hclosed, List.length_append, length_bodyBytes]
        exact Nat.le_add_right _ _
      rw [hone]
      intro row hrow
      cases List.mem_singleton.mp hrow
      exact le_trans (by decide) hlong
    have hcollected : collectRows [] [⟨(tinyWrite 7).identifier, 512, 1, ⟨0, 0, false⟩⟩] =
        [((tinyWrite 7).identifier, ⟨512, 513⟩)] := by decide
    rw [List.take_length, hone, hcollected] at hlayout
    rw [← hclosed, recoverSegmentEntries, hlayout]
    have hsmall : blocks writer.serializeBinaryReferences.length < 2 ^ 31 := by
      rw [hrep.length_serializeBinaryReferences]
      decide
    have hnew : [((tinyWrite 7).identifier, (⟨512, 513⟩ : DataRange))].lookup
        ⟨0x1111111111114111, 0xa111111111111111⟩ = none := by decide
    exact recoverFrom_misnamed hcatalog hsmall parseSegmentEntryName_segmentLikeName hnew

end Froe
