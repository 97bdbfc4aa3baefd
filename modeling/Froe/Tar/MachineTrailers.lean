import Froe.Segment.MachineReads

/-!
# Reading trailers on machine words

The readers of the index, of the graph and of the catalog with their arithmetic on
machine words, their slices and the capacities that they allocate.  On every archive
they return what the readers of `Index` and `Trailers` return.
-/

namespace Froe

open List (drop_drop length_drop)

open Checked

namespace Machine

/-! ## The footer -/

/-- Reads the footer that ends at an anchor. -/
def readFooter (archiveBytes : Bytes) (anchor : Nat) : Run TrailerFooter := do
  let start ← sub anchor footerSize
  let footer ← slice archiveBytes start anchor
  let storedChecksum ← readU32 footer 0
  let count ← readU32 footer 4
  let declaredSize ← readU32 footer 8
  let magic ← readU32 footer 12
  return ⟨storedChecksum, signed32 count, signed32 declaredSize, magic⟩

section

variable {B : Allocation → Prop} {archiveBytes : Bytes} {anchor : Nat}

theorem ends_readFooter (hanchor : footerSize ≤ anchor) (hle : anchor ≤ archiveBytes.length) :
    Ends B (readFooter archiveBytes anchor) (Froe.readFooter archiveBytes anchor) := by
  have hsize : footerSize = 16 := rfl
  have hslice := @ends_slice B archiveBytes (anchor - footerSize) anchor (Nat.sub_le ..) hle
  rw [Nat.sub_sub_self hanchor] at hslice
  have hfooter : (archiveBytes.slice (anchor - footerSize) footerSize).length = 16 := by
    rw [Bytes.length_slice]
    omega
  have hword : (archiveBytes.slice (anchor - footerSize) footerSize).length < wordCount := by
    rw [hfooter]
    decide
  rw [readFooter, Froe.readFooter]
  refine (ends_sub hanchor).bind (hslice.bind ?_)
  refine (ends_readU32 hword (by omega)).bind ((ends_readU32 hword (by omega)).bind ?_)
  refine (ends_readU32 hword (by omega)).bind ((ends_readU32 hword (by omega)).bind ?_)
  exact ends_pure _

/-- The count and the size of a footer are 32-bit words. -/
theorem signed32_lt (word : UInt32) : signed32 word < 2 ^ 31 := word.toInt32.toInt_lt

end

/-! ## The index -/

/-- Holds a footer to its own bounds. -/
def acceptIndexFooter (footer : TrailerFooter) (version : Nat) : Machine IndexFooter := do
  if footer.count < 1 then refuse s!"invalid index entry count {footer.count}"
  else
    let product ← mul footer.count.toNat 28
    let minimumSize ← add product 16
    if footer.declaredSize < 0 ∨ footer.declaredSize < minimumSize then
      refuse s!"invalid index size {footer.declaredSize}"
    else if footer.declaredSize % 512 ≠ 0 then
      refuse s!"index size {footer.declaredSize} is not aligned to 512 bytes"
    else return ⟨version, indexEntrySize version, footer.count.toNat, footer.storedChecksum⟩

/-- Reads and checks the footer of the index. -/
def readIndexFooter (archiveBytes : Bytes) (anchor : Nat) : Machine IndexFooter := do
  let footer ← readFooter archiveBytes anchor
  if footer.magic = indexVersion1Magic then acceptIndexFooter footer 1
  else if footer.magic = indexVersion2Magic then acceptIndexFooter footer 2
  else refuse s!"unrecognized index magic number 0x{hex32 footer.magic}"

/-- The bytes of the index entries. -/
def locateIndexEntries (archiveBytes : Bytes) (anchor : Nat) (footer : IndexFooter) :
    Machine Bytes := do
  let unfit := s!"index with {footer.entryCount} entries does not fit the archive"
  match checkedMul footer.entryCount footer.entrySize with
  | none => refuse unfit
  | some entriesSize =>
    let entriesEnd ← sub anchor footerSize
    match checkedSub entriesEnd entriesSize with
    | none => refuse unfit
    | some entriesStart =>
      let entriesBytes ← slice archiveBytes entriesStart entriesEnd
      if crc32 entriesBytes ≠ footer.storedChecksum then refuse "index checksum mismatch"
      else return entriesBytes

/-- Reads one row of the index. -/
def decodeIndexEntry (version : Nat) (entryBytes : Bytes) : Run SegmentIndexEntry := do
  let most ← readU64 entryBytes 0
  let least ← readU64 entryBytes 8
  let position ← readU32 entryBytes 16
  let size ← readU32 entryBytes 20
  let generation ← readU32 entryBytes 24
  if version = 2 then
    let fullGeneration ← readU32 entryBytes 28
    let compacted ← (index entryBytes 32 : Run UInt8)
    return ⟨⟨most, least⟩, position, size, generation.toInt32, fullGeneration.toInt32,
      compacted != 0⟩
  else return ⟨⟨most, least⟩, position, size, generation.toInt32, generation.toInt32, true⟩

/-- Reads the rows, which must ascend. -/
def parseIndexEntries (version entrySize : Nat) (entriesBytes : Bytes) :
    Nat → Nat → Option (Int ×ₗ Int) → Machine (List SegmentIndexEntry)
  | 0, _, _ => pure []
  | count + 1, entryIndex, previousKey => do
    let start ← mul entryIndex entrySize
    let next ← add entryIndex 1
    let stop ← mul next entrySize
    let entryBytes ← slice entriesBytes start stop
    let entry ← decodeIndexEntry version entryBytes
    ExceptT.mk (pure (rejectOutOfOrderKey previousKey entry.key))
    ExceptT.mk (pure (validateEntryExtent (signed32 entry.position) (signed32 entry.size)))
    let entries ← parseIndexEntries version entrySize entriesBytes count (entryIndex + 1)
      (some entry.key)
    return entry :: entries

/-- Parses the index of an archive. -/
def parseSegmentIndex (archiveBytes : Bytes) : Machine (Nat × List SegmentIndexEntry) := do
  ExceptT.mk (pure (validateArchiveShape archiveBytes.length))
  let anchor ← sub archiveBytes.length terminatingZeroBlocks
  let footer ← readIndexFooter archiveBytes anchor
  let entriesBytes ← locateIndexEntries archiveBytes anchor footer
  allocate footer.entryCount footer.entrySize entriesBytes.length
  let entries ← parseIndexEntries footer.version footer.entrySize entriesBytes footer.entryCount 0
    none
  return (footer.version, entries)

section

variable {B : Allocation → Prop} {archiveBytes : Bytes} {anchor : Nat}

/-- The same bounds without machine words. -/
def indexFooterOf (footer : TrailerFooter) (version : Nat) : Result IndexFooter :=
  if footer.count < 1 then invalid s!"invalid index entry count {footer.count}"
  else if footer.declaredSize < 0 ∨ footer.declaredSize < footer.count * 28 + 16 then
    invalid s!"invalid index size {footer.declaredSize}"
  else if footer.declaredSize % 512 ≠ 0 then
    invalid s!"index size {footer.declaredSize} is not aligned to 512 bytes"
  else .ok ⟨version, indexEntrySize version, footer.count.toNat, footer.storedChecksum⟩

theorem readIndexFooter_eq :
    Froe.readIndexFooter archiveBytes anchor =
      if (Froe.readFooter archiveBytes anchor).magic = indexVersion1Magic then
        indexFooterOf (Froe.readFooter archiveBytes anchor) 1
      else if (Froe.readFooter archiveBytes anchor).magic = indexVersion2Magic then
        indexFooterOf (Froe.readFooter archiveBytes anchor) 2
      else invalid
        s!"unrecognized index magic number 0x{hex32 (Froe.readFooter archiveBytes anchor).magic}" :=
  rfl

theorem ends_acceptIndexFooter {footer : TrailerFooter} (hcount : footer.count < 2 ^ 31)
    (version : Nat) :
    Ends B (acceptIndexFooter footer version).run (indexFooterOf footer version) := by
  rw [acceptIndexFooter, indexFooterOf]
  by_cases hone : footer.count < 1
  · rw [if_pos hone, if_pos hone]
    exact ends_throw _
  rw [if_neg hone, if_neg hone]
  have hnat : ((footer.count.toNat * 28 + 16 : Nat) : Int) = footer.count * 28 + 16 := by omega
  refine (ends_mul (by rw [wordCount]; omega)).liftThen ?_
  refine (ends_add (by rw [wordCount]; omega)).liftThen ?_
  rw [hnat]
  split
  · exact ends_throw _
  · split
    · exact ends_throw _
    · exact ends_return _

theorem ends_readIndexFooter (hanchor : footerSize ≤ anchor) (hle : anchor ≤ archiveBytes.length) :
    Ends B (readIndexFooter archiveBytes anchor).run (Froe.readIndexFooter archiveBytes anchor) := by
  rw [readIndexFooter, readIndexFooter_eq]
  refine (ends_readFooter hanchor hle).liftThen ?_
  have hcount : (Froe.readFooter archiveBytes anchor).count < 2 ^ 31 := signed32_lt _
  split
  · exact ends_acceptIndexFooter hcount 1
  · split
    · exact ends_acceptIndexFooter hcount 2
    · exact ends_throw _

variable {footer : IndexFooter}

theorem indexFooterOf_fields {trailer : TrailerFooter} {version : Nat}
    (hcount : trailer.count < 2 ^ 31) (h : indexFooterOf trailer version = .ok footer) :
    footer.entrySize = indexEntrySize footer.version ∧ footer.entryCount < 2 ^ 31 := by
  rw [indexFooterOf] at h
  split at h
  · cases h
  · split at h
    · cases h
    · split at h
      · cases h
      · obtain rfl := Except.ok.inj h
        exact ⟨rfl, by dsimp only; omega⟩

/-- The entries of an accepted footer have the size of its version. -/
theorem readIndexFooter_fields (h : Froe.readIndexFooter archiveBytes anchor = .ok footer) :
    footer.entrySize = indexEntrySize footer.version ∧ footer.entryCount < 2 ^ 31 := by
  have hcount : (Froe.readFooter archiveBytes anchor).count < 2 ^ 31 := signed32_lt _
  rw [readIndexFooter_eq] at h
  split at h
  · exact indexFooterOf_fields hcount h
  · split at h
    · exact indexFooterOf_fields hcount h
    · cases h

theorem indexEntrySize_cases (version : Nat) :
    indexEntrySize version = 28 ∧ version ≠ 2 ∨ indexEntrySize version = 33 ∧ version = 2 := by
  rw [indexEntrySize]
  split
  · exact .inr ⟨rfl, ‹_›⟩
  · exact .inl ⟨rfl, ‹_›⟩

theorem ends_locateIndexEntries {footer : IndexFooter}
    (hsize : footer.entrySize = indexEntrySize footer.version)
    (hcount : footer.entryCount < 2 ^ 31) (hanchor : footerSize ≤ anchor)
    (hle : anchor ≤ archiveBytes.length) :
    Ends B (locateIndexEntries archiveBytes anchor footer).run
      (Froe.locateIndexEntries archiveBytes anchor footer) := by
  have hword : footer.entryCount * footer.entrySize < wordCount := by
    have hsmall : footer.entrySize ≤ 33 := by
      rcases indexEntrySize_cases footer.version with h | h <;> omega
    have hproduct := Nat.mul_le_mul hcount.le hsmall
    rw [wordCount]
    omega
  rw [locateIndexEntries, Froe.locateIndexEntries, checkedMul, if_pos hword]
  dsimp only
  refine (ends_sub hanchor).liftThen ?_
  rw [checkedSub]
  by_cases hfit : anchor - footerSize < footer.entryCount * footer.entrySize
  · rw [if_neg (not_le.mpr hfit), if_pos hfit]
    exact ends_throw _
  · rw [if_pos (not_lt.mp hfit), if_neg hfit]
    have hslice := @ends_slice B archiveBytes
      (anchor - footerSize - footer.entryCount * footer.entrySize) (anchor - footerSize)
      (Nat.sub_le ..) ((Nat.sub_le ..).trans hle)
    rw [Nat.sub_sub_self (not_lt.mp hfit)] at hslice
    refine hslice.liftThen ?_
    split
    · exact ends_throw _
    · exact ends_return _

theorem ends_decodeIndexEntry {version : Nat} {entryBytes : Bytes}
    (hlength : entryBytes.length = indexEntrySize version) :
    Ends B (decodeIndexEntry version entryBytes) (Froe.decodeIndexEntry version entryBytes) := by
  have hcases := indexEntrySize_cases version
  have hword : entryBytes.length < wordCount := by
    rw [wordCount]
    omega
  rw [decodeIndexEntry, Froe.decodeIndexEntry]
  refine (ends_readU64 hword (by omega)).bind ((ends_readU64 hword (by omega)).bind ?_)
  refine (ends_readU32 hword (by omega)).bind ((ends_readU32 hword (by omega)).bind ?_)
  refine (ends_readU32 hword (by omega)).bind ?_
  by_cases htwo : version = 2
  · rw [if_pos htwo, if_pos htwo, if_pos htwo]
    refine (ends_readU32 hword (by omega)).bind ?_
    exact (ends_index (getElem?_getD (by omega))).bind (ends_pure _)
  · rw [if_neg htwo, if_neg htwo, if_neg htwo]
    exact ends_pure _

theorem ends_parseIndexEntries {version : Nat} {entriesBytes : Bytes}
    (hlength : entriesBytes.length < wordCount) {count entryIndex : Nat}
    {previousKey : Option (Int ×ₗ Int)}
    (h : (entryIndex + count) * indexEntrySize version ≤ entriesBytes.length) :
    Ends B (parseIndexEntries version (indexEntrySize version) entriesBytes count entryIndex
        previousKey).run
      (Froe.parseIndexEntries version count previousKey
        (entriesBytes.drop (entryIndex * indexEntrySize version))) := by
  induction count generalizing entryIndex previousKey with
  | zero => exact ends_return _
  | succ count ih =>
    have hnext : (entryIndex + 1) * indexEntrySize version ≤ entriesBytes.length :=
      le_trans (Nat.mul_le_mul_right _ (by omega)) h
    have hsucc : (entryIndex + 1) * indexEntrySize version =
      entryIndex * indexEntrySize version + indexEntrySize version := Nat.succ_mul ..
    have hpos : 1 ≤ indexEntrySize version := by
      rcases indexEntrySize_cases version with h | h <;> omega
    have hindex : entryIndex + 1 ≤ (entryIndex + 1) * indexEntrySize version :=
      Nat.le_mul_of_pos_right _ hpos
    have hslice := @ends_slice B entriesBytes (entryIndex * indexEntrySize version)
      ((entryIndex + 1) * indexEntrySize version) (by omega) hnext
    rw [hsucc, Nat.add_sub_cancel_left, ← hsucc] at hslice
    have hentry : (entriesBytes.slice (entryIndex * indexEntrySize version)
        (indexEntrySize version)).length = indexEntrySize version := by
      rw [Bytes.length_slice]
      omega
    rw [parseIndexEntries, Froe.parseIndexEntries]
    refine (ends_mul (by omega)).liftThen ((ends_add (by omega)).liftThen ?_)
    refine (ends_mul (by omega)).liftThen (hslice.liftThen ?_)
    refine (ends_decodeIndexEntry hentry).liftThen ?_
    rw [show entriesBytes.slice (entryIndex * indexEntrySize version) (indexEntrySize version) =
      (entriesBytes.drop (entryIndex * indexEntrySize version)).take (indexEntrySize version)
      from rfl, drop_drop, ← hsucc]
    refine Ends.andThen (ends_pure _) fun _ _ => Ends.andThen (ends_pure _) fun _ _ => ?_
    exact Ends.andThen (ih (by rwa [show entryIndex + 1 + count = entryIndex + (count + 1) by omega]))
      fun rest _ => ends_return _

/-- The shape of an archive that can hold an index. -/
theorem length_of_shape {length : Nat} (h : validateArchiveShape length = .ok ()) :
    3072 ≤ length ∧ length < 2 ^ 31 := by
  rw [validateArchiveShape] at h
  split at h
  · cases h
  · split at h
    · cases h
    · split at h
      · cases h
      · omega

/-- The entries that a footer describes. -/
theorem length_of_locate {entriesBytes : Bytes} (hle : anchor ≤ archiveBytes.length)
    (h : Froe.locateIndexEntries archiveBytes anchor footer = .ok entriesBytes) :
    entriesBytes.length = footer.entryCount * footer.entrySize ∧
      entriesBytes.length ≤ archiveBytes.length := by
  rw [Froe.locateIndexEntries] at h
  dsimp only at h
  split at h
  · cases h
  · split at h
    · cases h
    · rw [← Except.ok.inj h, Bytes.length_slice]
      omega

/-- The index of any archive is parsed without a fault and with rows that its bytes can hold. -/
theorem ends_parseSegmentIndex :
    Ends Held (parseSegmentIndex archiveBytes).run
      ((Froe.parseSegmentIndex archiveBytes).map fun index => (index.version, index.entries)) := by
  rw [parseSegmentIndex, Froe.parseSegmentIndex]
  cases hshape : validateArchiveShape archiveBytes.length with
  | error error => exact Ends.stop (ends_pure _)
  | ok shape =>
    obtain ⟨hlarge, hsmall⟩ := length_of_shape hshape
    have hblocks : terminatingZeroBlocks = 1024 := rfl
    have hfooterSize : footerSize = 16 := rfl
    have hfooter := @ends_readIndexFooter Held archiveBytes
      (archiveBytes.length - terminatingZeroBlocks) (by omega) (Nat.sub_le ..)
    rw [Except.ok_bind_eq]
    refine Ends.goOn (ends_pure _) ((ends_sub (by omega)).liftThen ?_)
    dsimp only
    cases hread : Froe.readIndexFooter archiveBytes
      (archiveBytes.length - terminatingZeroBlocks) with
    | error error =>
      rw [hread] at hfooter
      exact hfooter.stop
    | ok footer =>
      rw [hread] at hfooter
      obtain ⟨hsize, hcount⟩ := readIndexFooter_fields hread
      have hlocate := @ends_locateIndexEntries Held archiveBytes
        (archiveBytes.length - terminatingZeroBlocks) footer hsize hcount (by omega) (Nat.sub_le ..)
      rw [Except.ok_bind_eq]
      refine hfooter.goOn ?_
      cases hentries : Froe.locateIndexEntries archiveBytes
        (archiveBytes.length - terminatingZeroBlocks) footer with
      | error error =>
        rw [hentries] at hlocate
        exact hlocate.stop
      | ok entriesBytes =>
        rw [hentries] at hlocate
        obtain ⟨htable, hwithin⟩ := length_of_locate (Nat.sub_le ..) hentries
        have hword : entriesBytes.length < wordCount := by
          rw [wordCount]
          omega
        have hrows := @ends_parseIndexEntries Held footer.version entriesBytes hword
          footer.entryCount 0 none (by rw [← hsize, htable, Nat.zero_add])
        rw [Nat.zero_mul, List.drop_zero, ← hsize] at hrows
        rw [Except.ok_bind_eq]
        refine hlocate.goOn ((ends_allocate htable.ge).liftThen ?_)
        split
        · rename_i error herror
          rw [herror] at hrows
          exact hrows.stop
        · rename_i entries hok
          rw [hok] at hrows
          exact hrows.goOn (ends_return _)

end

/-! ## The graph -/

/-- The size of the index on disk. -/
def indexEntryDiskSize (index : SegmentIndex) : Run Nat := do
  let entryBytes ← mul index.entries.length (indexEntrySize index.version)
  let payload ← add entryBytes footerSize
  let padded ← mul ((payload + 511) / 512) 512
  add 512 padded

/-- The position behind a list of references. -/
def checkedReferencesEnd (position referenceCount : Nat) : Option Nat :=
  (checkedMul referenceCount 16).bind (checkedAdd position)

/-- Reads identifiers from a position on, and returns the position behind them. -/
def readIdentifiers (data : Bytes) : Nat → Nat → Run (List SegmentIdentifier × Nat)
  | 0, position => pure ([], position)
  | count + 1, position => do
    let identifier ← readIdentifier data position
    let next ← add position 16
    let (identifiers, behind) ← readIdentifiers data count next
    return (identifier :: identifiers, behind)

/-- Reads graph rows from a position on. -/
def parseGraphRows (workUnits entryCount maximumEdges : Nat) (data : Bytes) :
    Nat → Nat → Nat →
      ExceptT BoundedSegmentGraph Run (List (SegmentIdentifier × List SegmentIdentifier))
  | 0, _, _ => pure []
  | rows + 1, totalEdges, position => do
    let stop ← add position 20
    if stop > data.length then throw (.unavailable workUnits)
    else
      let source ← readIdentifier data position
      let countPosition ← add position 16
      let countWord ← readU32 data countPosition
      let position ← add position 20
      let referenceCount := signed32 countWord
      if referenceCount < 0 then throw (.unavailable workUnits)
      else if ∀ stop ∈ checkedReferencesEnd position referenceCount.toNat, stop > data.length then
        throw (.unavailable workUnits)
      else
        -- the addition saturates at the largest machine word
        let totalEdges := min (totalEdges + referenceCount.toNat) (2 ^ 64 - 1)
        if totalEdges > maximumEdges then throw (.graphBudgetExceeded entryCount totalEdges)
        else
          allocate referenceCount.toNat 16 data.length
          let (references, position) ← readIdentifiers data referenceCount.toNat position
          let adjacency ← parseGraphRows workUnits entryCount maximumEdges data rows totalEdges
            position
          return (source, references) :: adjacency

/-- Parses the graph within limits. -/
def parseSegmentGraphWithLimits (archiveBytes : Bytes) (index : SegmentIndex)
    (maximumWorkUnits maximumRows maximumEdges : Nat) : Run BoundedSegmentGraph := do
  let diskSize ← indexEntryDiskSize index
  let trailing ← add terminatingZeroBlocks diskSize
  match checkedSub archiveBytes.length trailing with
  | none => return .unavailable 0
  | some anchor =>
    if anchor < footerSize then return .unavailable 0
    else
      let footer ← readFooter archiveBytes anchor
      if footer.magic ≠ graphMagic ∨ footer.count < 0 then return .unavailable 0
      else
        let product ← signedWord (footer.count * 34)
        let minimumSize ← signedWord (4 + product)
        if footer.declaredSize < minimumSize then return .unavailable 0
        else if footer.declaredSize < footerSize then return .unavailable 0
        else
          match checkedSub anchor footer.declaredSize.toNat with
          | none => return .unavailable 0
          | some bufferStart =>
            let buffer ← slice archiveBytes bufferStart anchor
            let dataLength ← sub footer.declaredSize.toNat footerSize
            let data ← slice buffer 0 dataLength
            if data.length > maximumWorkUnits then return .workBudgetExceeded data.length
            else if crc32 data ≠ footer.storedChecksum then return .unavailable data.length
            else if footer.count.toNat > maximumRows then
              return .graphBudgetExceeded footer.count.toNat 0
            else
              allocate footer.count.toNat 20 data.length
              match ← (parseGraphRows data.length footer.count.toNat maximumEdges data
                footer.count.toNat 0 0).run with
              | .error outcome => return outcome
              | .ok adjacency => return .available ⟨adjacency⟩ data.length

section

variable {B : Allocation → Prop} {archiveBytes data : Bytes}

variable {index : SegmentIndex}

theorem length_entries_of_parse
    (h : Froe.parseSegmentIndex archiveBytes = .ok index) : index.entries.length < 2 ^ 31 := by
  obtain ⟨-, footer, entriesBytes, hfooter, -, hentries, -⟩ := parseSegmentIndex_ok.mp h
  rw [(parseIndexEntries_spec hentries).2.2.2]
  exact (readIndexFooter_fields hfooter).2

theorem ends_indexEntryDiskSize {index : SegmentIndex} (h : index.entries.length < 2 ^ 31) :
    Ends B (indexEntryDiskSize index) (Froe.indexEntryDiskSize index) ∧
      Froe.indexEntryDiskSize index < 2 ^ 40 := by
  have hproduct : index.entries.length * indexEntrySize index.version ≤ 2 ^ 31 * 33 := by
    refine Nat.mul_le_mul h.le ?_
    rcases indexEntrySize_cases index.version with h | h <;> omega
  have hsize : footerSize = 16 := rfl
  rw [indexEntryDiskSize, Froe.indexEntryDiskSize]
  refine ⟨?_, by omega⟩
  refine (ends_mul (by rw [wordCount]; omega)).bind ((ends_add (by rw [wordCount]; omega)).bind ?_)
  exact (ends_mul (by rw [wordCount]; omega)).bind (ends_add (by rw [wordCount]; omega))

theorem referencesEnd_exceeds_iff {position count length : Nat} (hlength : length < wordCount) :
    (∀ stop ∈ checkedReferencesEnd position count, stop > length) ↔
      position + count * 16 > length := by
  rw [checkedReferencesEnd, checkedMul]
  by_cases hmul : count * 16 < wordCount
  · rw [if_pos hmul, Option.bind_some, checkedAdd]
    by_cases hadd : position + count * 16 < wordCount
    · rw [if_pos hadd]
      exact ⟨fun h => h _ rfl, fun h stop hstop => Option.some.inj hstop ▸ h⟩
    · rw [if_neg hadd]
      exact ⟨fun _ => by omega, fun _ stop hstop => by cases hstop⟩
  · rw [if_neg hmul]
    exact ⟨fun _ => by omega, fun _ stop hstop => by cases hstop⟩

theorem ends_readIdentifiers (hlength : data.length < wordCount) {count position : Nat}
    (h : position + count * 16 ≤ data.length) :
    Ends B (readIdentifiers data count position)
      ((Froe.readIdentifiers count (data.drop position)).1, position + count * 16) ∧
      (Froe.readIdentifiers count (data.drop position)).2 = data.drop (position + count * 16) := by
  induction count generalizing position with
  | zero => exact ⟨ends_pure _, by rw [Nat.zero_mul]; rfl⟩
  | succ count ih =>
    obtain ⟨hrest, hdrop⟩ := @ih (position + 16) (by omega)
    have hposition : position + 16 + count * 16 = position + (count + 1) * 16 := by omega
    rw [hposition] at hrest hdrop
    rw [readIdentifiers, Froe.readIdentifiers, drop_drop]
    refine ⟨?_, hdrop⟩
    refine (ends_readIdentifier hlength (by omega)).bind ((ends_add (by omega)).bind ?_)
    exact hrest.bind (ends_pure _)

theorem ends_parseGraphRows (hsmall : data.length < 2 ^ 31)
    {workUnits entryCount maximumEdges rows totalEdges position : Nat}
    (h : position ≤ data.length) :
    Ends Held (parseGraphRows workUnits entryCount maximumEdges data rows totalEdges position).run
      (Froe.parseGraphRows workUnits entryCount maximumEdges rows totalEdges
        (data.drop position)) := by
  induction rows generalizing totalEdges position with
  | zero => exact ends_return _
  | succ rows ih =>
    have hlength : data.length < wordCount := hsmall.trans (by decide)
    have hword : position + 20 < wordCount := by
      rw [wordCount]
      omega
    rw [parseGraphRows, Froe.parseGraphRows, length_drop]
    refine (ends_add hword).liftThen ?_
    by_cases hshort : position + 20 > data.length
    · rw [if_pos hshort, if_pos (by omega)]
      exact ends_throw _
    rw [if_neg hshort, if_neg (by omega), u32At_drop, drop_drop]
    refine (ends_readIdentifier hlength (by omega)).liftThen ((ends_add (by omega)).liftThen ?_)
    refine (ends_readU32 hlength (by omega)).liftThen ((ends_add (by omega)).liftThen ?_)
    generalize signed32 (data.u32At (position + 16)) = count
    dsimp only
    by_cases hnegative : count < 0
    · rw [if_pos hnegative, if_pos hnegative]
      exact ends_throw _
    rw [if_neg hnegative, if_neg hnegative, length_drop]
    have hiff := @referencesEnd_exceeds_iff (position + 20) count.toNat data.length hlength
    by_cases hfit : position + 20 + count.toNat * 16 > data.length
    · rw [if_pos (hiff.mpr hfit),
        if_pos (show data.length - (position + 20) < count.toNat * 16 by omega)]
      exact ends_throw _
    rw [if_neg (mt hiff.mp hfit),
      if_neg (show ¬ data.length - (position + 20) < count.toNat * 16 by omega)]
    by_cases hedges : min (totalEdges + count.toNat) (2 ^ 64 - 1) > maximumEdges
    · rw [if_pos hedges, if_pos hedges]
      exact ends_throw _
    rw [if_neg hedges, if_neg hedges]
    obtain ⟨hreferences, hdrop⟩ := @ends_readIdentifiers Held data hlength count.toNat
      (position + 20) (by omega)
    refine (ends_allocate (show count.toNat * 16 ≤ data.length by omega)).liftThen ?_
    refine hreferences.liftThen ?_
    dsimp only
    rw [hdrop]
    exact Ends.andThen (ih (by omega)) fun adjacency _ => ends_return _

/-- The graph of any archive is parsed without a fault and with rows that its bytes can hold. -/
theorem ends_parseSegmentGraphWithLimits (hindex : index.entries.length < 2 ^ 31)
    (maximumWorkUnits maximumRows maximumEdges : Nat) :
    Ends Held
      (parseSegmentGraphWithLimits archiveBytes index maximumWorkUnits maximumRows maximumEdges)
      (Froe.parseSegmentGraphWithLimits archiveBytes index maximumWorkUnits maximumRows
        maximumEdges) := by
  obtain ⟨hdisk, hsmall⟩ := @ends_indexEntryDiskSize Held index hindex
  have hblocks : terminatingZeroBlocks = 1024 := rfl
  have hsize : footerSize = 16 := rfl
  rw [parseSegmentGraphWithLimits, Froe.parseSegmentGraphWithLimits]
  refine hdisk.bind ((ends_add (by rw [wordCount]; omega)).bind ?_)
  rw [checkedSub]
  by_cases htrailing : archiveBytes.length < terminatingZeroBlocks + Froe.indexEntryDiskSize index
  · rw [if_neg (not_le.mpr htrailing), if_pos htrailing]
    exact ends_pure _
  rw [if_pos (not_lt.mp htrailing), if_neg htrailing]
  generalize hanchor : archiveBytes.length -
    (terminatingZeroBlocks + Froe.indexEntryDiskSize index) = anchor
  dsimp only
  by_cases hshort : anchor < footerSize
  · rw [if_pos hshort, if_pos hshort]
    exact ends_pure _
  rw [if_neg hshort, if_neg hshort]
  refine (ends_readFooter (not_lt.mp hshort) (by omega)).bind ?_
  have hcount : (Froe.readFooter archiveBytes anchor).count < 2 ^ 31 := signed32_lt _
  have hdeclared : (Froe.readFooter archiveBytes anchor).declaredSize < 2 ^ 31 := signed32_lt _
  generalize Froe.readFooter archiveBytes anchor = footer at hcount hdeclared
  by_cases hmagic : footer.magic ≠ graphMagic ∨ footer.count < 0
  · rw [if_pos hmagic, if_pos hmagic]
    exact ends_pure _
  rw [if_neg hmagic, if_neg hmagic]
  have hcount' : 0 ≤ footer.count := not_lt.mp fun h => hmagic (.inr h)
  refine (ends_signedWord (by omega) (by omega)).bind ?_
  refine (ends_signedWord (by omega) (by omega)).bind ?_
  by_cases hminimum : footer.declaredSize < 4 + footer.count * 34
  · rw [if_pos hminimum, if_pos hminimum]
    exact ends_pure _
  rw [if_neg hminimum, if_neg hminimum]
  by_cases hunder : footer.declaredSize < footerSize
  · rw [if_pos hunder, if_pos hunder]
    exact ends_pure _
  rw [if_neg hunder, if_neg hunder, checkedSub]
  by_cases hoverlong : anchor < footer.declaredSize.toNat
  · rw [if_neg (not_le.mpr hoverlong), if_pos hoverlong]
    exact ends_pure _
  rw [if_pos (not_lt.mp hoverlong), if_neg hoverlong]
  have hbuffer := @ends_slice Held archiveBytes (anchor - footer.declaredSize.toNat) anchor
    (Nat.sub_le ..) (by omega)
  rw [Nat.sub_sub_self (not_lt.mp hoverlong)] at hbuffer
  have hbufferLength : (archiveBytes.slice (anchor - footer.declaredSize.toNat)
      footer.declaredSize.toNat).length = footer.declaredSize.toNat := by
    rw [Bytes.length_slice]
    omega
  have hdata := @ends_slice Held (archiveBytes.slice (anchor - footer.declaredSize.toNat)
    footer.declaredSize.toNat) 0 (footer.declaredSize.toNat - footerSize) (Nat.zero_le _) (by omega)
  rw [Bytes.slice_slice (by omega), Nat.add_zero, Nat.sub_zero] at hdata
  refine hbuffer.bind ((ends_sub (by omega)).bind (hdata.bind ?_))
  have hdataLength : (archiveBytes.slice (anchor - footer.declaredSize.toNat)
      (footer.declaredSize.toNat - footerSize)).length = footer.declaredSize.toNat - footerSize := by
    rw [Bytes.length_slice]
    omega
  generalize archiveBytes.slice (anchor - footer.declaredSize.toNat)
    (footer.declaredSize.toNat - footerSize) = data at hdataLength
  split
  · exact ends_pure _
  · split
    · exact ends_pure _
    · split
      · exact ends_pure _
      · have hheld : footer.count.toNat * 20 ≤ data.length := by omega
        have hrows := @ends_parseGraphRows data (by omega) data.length footer.count.toNat
          maximumEdges footer.count.toNat 0 0 (Nat.zero_le _)
        rw [List.drop_zero] at hrows
        refine (ends_allocate hheld).bind (hrows.bind ?_)
        cases Froe.parseGraphRows data.length footer.count.toNat maximumEdges footer.count.toNat 0
          data with
        | error outcome => exact ends_pure _
        | ok adjacency => exact ends_pure _

end

/-! ## The catalog -/

/-- Reads references from a position on, and returns the position behind them. -/
def readReferenceStrings (data : Bytes) : Nat → Nat → OptionT Run (List String × Nat)
  | 0, position => pure ([], position)
  | count + 1, position => do
    let start ← add position 4
    guard (start ≤ data.length)
    let lengthWord ← readU32 data position
    let length := signed32 lengthWord
    guard (0 ≤ length)
    let stop ← add start length.toNat
    guard (stop ≤ data.length)
    let reference ← slice data start stop
    let (references, behind) ← readReferenceStrings data count stop
    return (Utf8.decodeLossy reference :: references, behind)

/-- Reads the rows of a generation. -/
def readReferencingSegments (data : Bytes) :
    Nat → Nat → OptionT Run (List (SegmentIdentifier × List String) × Nat)
  | 0, position => pure ([], position)
  | count + 1, position => do
    let start ← add position 20
    guard (start ≤ data.length)
    let identifier ← readIdentifier data position
    let countPosition ← add position 16
    let countWord ← readU32 data countPosition
    let referenceCount := signed32 countWord
    guard (0 ≤ referenceCount)
    allocate (min referenceCount.toNat (data.length / 4 + 1)) 4 data.length
    let (references, behind) ← readReferenceStrings data referenceCount.toNat start
    let (segments, behind) ← readReferencingSegments data count behind
    return ((identifier, references) :: segments, behind)

/-- Reads the generation of a row. -/
def readCatalogGeneration (version : Nat) (data : Bytes) (position : Nat) :
    OptionT Run (GarbageCollectionGeneration × Nat) :=
  if version = 2 then do
    let behind ← add position 9
    guard (behind ≤ data.length)
    let generation ← readU32 data position
    let fullPosition ← add position 4
    let fullGeneration ← readU32 data fullPosition
    let flagPosition ← add position 8
    let compacted ← (index data flagPosition : Run UInt8)
    return (⟨generation.toInt32, fullGeneration.toInt32, compacted != 0⟩, behind)
  else do
    let behind ← add position 4
    guard (behind ≤ data.length)
    let generation ← readU32 data position
    return (⟨generation.toInt32, generation.toInt32, true⟩, behind)

/-- Reads the generations of a catalog. -/
def readGenerations (version : Nat) (data : Bytes) :
    Nat → Nat → OptionT Run (List GenerationBinaryReferences)
  | 0, _ => pure []
  | count + 1, position => do
    let (generation, position) ← readCatalogGeneration version data position
    let start ← add position 4
    guard (start ≤ data.length)
    let countWord ← readU32 data position
    let segmentCount := signed32 countWord
    guard (0 ≤ segmentCount)
    allocate (min segmentCount.toNat (data.length / 20 + 1)) 20 data.length
    let (segments, behind) ← readReferencingSegments data segmentCount.toNat start
    let generations ← readGenerations version data count behind
    return ⟨generation.generation, generation.fullGeneration, generation.isCompacted, segments⟩ ::
      generations

/-- Reads the catalog behind its footer. -/
def readCatalog (archiveBytes : Bytes) (anchor : Nat) (footer : TrailerFooter) (version : Nat) :
    OptionT Run BinaryReferences := do
  guard (0 ≤ footer.count)
  let product ← signedWord (footer.count * 22)
  let minimumSize ← signedWord (product + footerSize)
  guard (minimumSize ≤ footer.declaredSize)
  let bufferStart ← OptionT.mk (pure (checkedSub anchor footer.declaredSize.toNat))
  let buffer ← slice archiveBytes bufferStart anchor
  let dataLength ← sub footer.declaredSize.toNat footerSize
  let data ← slice buffer 0 dataLength
  guard (crc32 data = footer.storedChecksum)
  allocate (min footer.count.toNat (data.length / 8 + 1)) 8 data.length
  let generations ← readGenerations version data footer.count.toNat 0
  return ⟨generations⟩

/-- Parses the catalog of binary references. -/
def parseBinaryReferences (archiveBytes : Bytes) (anchor : Nat) : OptionT Run BinaryReferences := do
  guard (footerSize ≤ anchor ∧ anchor ≤ archiveBytes.length)
  let footer ← readFooter archiveBytes anchor
  if footer.magic = binaryReferencesVersion1Magic then readCatalog archiveBytes anchor footer 1
  else if footer.magic = binaryReferencesVersion2Magic then
    readCatalog archiveBytes anchor footer 2
  else failure

/-- The rows allocated are at most one more than the declared bytes can hold. -/
def HeldNearly (allocation : Allocation) : Prop :=
  allocation.rows * allocation.rowBytes ≤ allocation.heldBytes + allocation.rowBytes

instance : DecidablePred HeldNearly := fun _ => inferInstanceAs (Decidable (_ ≤ _))

/-- A program that reads from a position on agrees with a reader of the bytes from there. -/
def ReadsFrom {α : Type} (data : Bytes) (program : OptionT Run (α × Nat))
    (parsed : Option (α × Bytes)) : Prop :=
  ∃ result, Ends HeldNearly program.run result ∧
    parsed = result.map (fun read => (read.1, data.drop read.2)) ∧
    ∀ read ∈ result, read.2 ≤ data.length

section

variable {archiveBytes data : Bytes} {anchor : Nat}

theorem heldNearly_min_div (rows rowBytes : Nat) (heldBytes : Nat) :
    HeldNearly ⟨min rows (heldBytes / rowBytes + 1), rowBytes, heldBytes⟩ := by
  calc min rows (heldBytes / rowBytes + 1) * rowBytes
      ≤ (heldBytes / rowBytes + 1) * rowBytes := Nat.mul_le_mul_right _ (Nat.min_le_right ..)
    _ = heldBytes / rowBytes * rowBytes + rowBytes := Nat.succ_mul ..
    _ ≤ heldBytes + rowBytes := Nat.add_le_add_right (Nat.div_mul_le_self ..) _

variable {α β : Type} {position : Nat}

theorem readsFrom_pure (a : α) {behind : Nat} (h : behind ≤ data.length) :
    ReadsFrom data (pure (a, behind)) (some (a, data.drop behind)) :=
  ⟨some (a, behind), ends_some _, rfl, fun _ hread => Option.some.inj hread ▸ h⟩

theorem ReadsFrom.guardThen {p q : Prop} [Decidable p] [Decidable q]
    {next : Unit → OptionT Run (α × Nat)} {g : Unit → Option (α × Bytes)} (hiff : p ↔ q)
    (h : p → ReadsFrom data (next ()) (g ())) :
    ReadsFrom data (guard p >>= next) (guard q >>= g) := by
  by_cases hp : p
  · rw [guard, if_pos hp, guard, if_pos (hiff.mp hp), pure_bind, pure_bind]
    exact h hp
  · rw [guard, if_neg hp, guard, if_neg (mt hiff.mpr hp)]
    exact ⟨none, ends_pure _, rfl, nofun⟩

theorem guard_and_bind {p q : Prop} [Decidable p] [Decidable q]
    (g : Unit → Option α) : (guard (p ∧ q) >>= g) = (guard p >>= fun _ => guard q >>= g) := by
  by_cases hp : p
  · by_cases hq : q
    · rw [guard, if_pos ⟨hp, hq⟩, guard, if_pos hp, guard, if_pos hq, pure_bind, pure_bind]
    · rw [guard, if_neg (fun h => hq h.2), guard, if_pos hp, guard, if_neg hq, pure_bind]
  · rw [guard, if_neg (fun h => hp h.1), guard, if_neg hp]
    rfl

theorem ReadsFrom.lift {operation : Run α} {next : α → OptionT Run (β × Nat)} {a : α}
    {parsed : Option (β × Bytes)} (hoperation : Ends HeldNearly operation a)
    (h : ReadsFrom data (next a) parsed) : ReadsFrom data (liftM operation >>= next) parsed := by
  obtain ⟨result, hends, hparsed, hbehind⟩ := h
  exact ⟨result, hoperation.liftSome hends, hparsed, hbehind⟩

variable {program : OptionT Run (α × Nat)} {parsed : Option (α × Bytes)}

theorem ReadsFrom.andEnds {next : α × Nat → OptionT Run β} {g : α × Bytes → Option β}
    (h : ReadsFrom data program parsed) (hnext : ∀ a behind, behind ≤ data.length →
      Ends HeldNearly (next (a, behind)).run (g (a, data.drop behind))) :
    Ends HeldNearly (program >>= next).run (parsed >>= g) := by
  obtain ⟨result, hends, rfl, hbehind⟩ := h
  rw [Option.bind_eq_bind, Option.bind_map]
  refine Ends.andSome hends fun read hread => ?_
  exact hnext read.1 read.2 (hbehind read hread)

theorem ReadsFrom.andThen {next : α × Nat → OptionT Run (β × Nat)}
    {g : α × Bytes → Option (β × Bytes)} (h : ReadsFrom data program parsed)
    (hnext : ∀ a behind, behind ≤ data.length →
      ReadsFrom data (next (a, behind)) (g (a, data.drop behind))) :
    ReadsFrom data (program >>= next) (parsed >>= g) := by
  obtain ⟨result, hends, rfl, hbehind⟩ := h
  cases result with
  | none => exact ⟨none, Ends.andSome (g := fun _ => none) hends nofun, rfl, nofun⟩
  | some read =>
    obtain ⟨result, hresult, hparsed, hbehind⟩ := hnext read.1 read.2 (hbehind read rfl)
    exact ⟨result, Ends.andSome hends fun a ha => Option.some.inj ha ▸ hresult, hparsed, hbehind⟩

open ReadsFrom (andEnds andThen guardThen)

section

variable (hsmall : data.length < 2 ^ 31) {count : Nat} (h : position ≤ data.length)
include hsmall h

theorem readsFrom_readReferenceStrings :
    ReadsFrom data (readReferenceStrings data count position)
      (Froe.readReferences count (data.drop position)) := by
  have hlength : data.length < wordCount := hsmall.trans (by decide)
  have hwords : 2 ^ 33 < wordCount := by decide
  induction count generalizing position with
  | zero => exact readsFrom_pure _ h
  | succ count ih =>
    rw [readReferenceStrings, Froe.readReferences, length_drop, u32At_drop, drop_drop,
      Nat.add_zero]
    have hlt : signed32 (data.u32At position) < 2 ^ 31 := signed32_lt _
    refine ReadsFrom.lift (ends_add (by omega)) ?_
    refine guardThen (by omega) fun hshort => ?_
    refine ReadsFrom.lift (ends_readU32 hlength hshort) ?_
    dsimp only
    generalize signed32 (data.u32At position) = length at hlt
    rw [length_drop, drop_drop, guard_and_bind]
    refine guardThen Iff.rfl fun hnegative => ReadsFrom.lift (ends_add (by omega)) ?_
    refine guardThen (by omega) fun hlong => ?_
    have hslice := @ends_slice HeldNearly data (position + 4) (position + 4 + length.toNat)
      (by omega) hlong
    rw [Nat.add_sub_cancel_left] at hslice
    refine ReadsFrom.lift hslice ?_
    refine andThen (ih hlong) fun references behind hbehind => ?_
    exact readsFrom_pure _ hbehind

theorem readsFrom_readReferencingSegments :
    ReadsFrom data (readReferencingSegments data count position)
      (Froe.readReferencingSegments count (data.drop position)) := by
  have hlength : data.length < wordCount := hsmall.trans (by decide)
  have hwords : 2 ^ 33 < wordCount := by decide
  induction count generalizing position with
  | zero => exact readsFrom_pure _ h
  | succ count ih =>
    rw [readReferencingSegments, Froe.readReferencingSegments, length_drop, u32At_drop,
      drop_drop]
    refine ReadsFrom.lift (ends_add (by omega)) ?_
    refine guardThen (by omega) fun hshort => ?_
    refine ReadsFrom.lift (ends_readIdentifier hlength (by omega)) ?_
    refine ReadsFrom.lift (ends_add (by omega)) (ReadsFrom.lift (ends_readU32 hlength (by omega)) ?_)
    dsimp only
    refine guardThen Iff.rfl fun _ => ?_
    refine ReadsFrom.lift (ends_allocate (heldNearly_min_div _ 4 _)) ?_
    refine andThen (readsFrom_readReferenceStrings hsmall hshort)
      fun references behind hbehind => ?_
    refine andThen (ih hbehind) fun segments behind hbehind => ?_
    exact readsFrom_pure _ hbehind

end

theorem readsFrom_readCatalogGeneration (hsmall : data.length < 2 ^ 31) (version : Nat) (h : position ≤ data.length) :
    ReadsFrom data (readCatalogGeneration version data position)
      (Froe.readCatalogGeneration version (data.drop position)) := by
  have hlength : data.length < wordCount := hsmall.trans (by decide)
  have hwords : 2 ^ 33 < wordCount := by decide
  rw [readCatalogGeneration, Froe.readCatalogGeneration, length_drop, u32At_drop, u32At_drop,
    drop_drop, drop_drop, Nat.add_zero]
  by_cases htwo : version = 2
  · rw [if_pos htwo, if_pos htwo]
    refine ReadsFrom.lift (ends_add (by omega)) ?_
    refine guardThen (by omega) fun hshort => ?_
    have hflag : data[position + 8]? = some ((data.drop position).getD 8 0) := by
      rw [List.getD_eq_getElem?_getD, List.getElem?_drop]
      exact getElem?_getD (by omega)
    refine ReadsFrom.lift (ends_readU32 hlength (by omega)) ?_
    refine ReadsFrom.lift (ends_add (by omega)) (ReadsFrom.lift (ends_readU32 hlength (by omega)) ?_)
    refine ReadsFrom.lift (ends_add (by omega)) (ReadsFrom.lift (ends_index hflag) ?_)
    exact readsFrom_pure _ hshort
  · rw [if_neg htwo, if_neg htwo]
    refine ReadsFrom.lift (ends_add (by omega)) ?_
    refine guardThen (by omega) fun hshort => ?_
    refine ReadsFrom.lift (ends_readU32 hlength (by omega)) ?_
    exact readsFrom_pure _ hshort

theorem ends_readGenerations (hsmall : data.length < 2 ^ 31) (version : Nat) {count position : Nat}
    (h : position ≤ data.length) :
    Ends HeldNearly (readGenerations version data count position).run
      (Froe.readGenerations version count (data.drop position)) := by
  have hlength : data.length < wordCount := hsmall.trans (by decide)
  have hwords : 2 ^ 33 < wordCount := by decide
  induction count generalizing position with
  | zero => exact ends_some _
  | succ count ih =>
    rw [readGenerations, Froe.readGenerations]
    refine andEnds (readsFrom_readCatalogGeneration hsmall version h)
      fun generation behind hbehind => ?_
    dsimp only
    rw [length_drop, u32At_drop, drop_drop, Nat.add_zero]
    refine Ends.liftSome (ends_add (by omega)) ?_
    refine Ends.guardThen (by omega) fun hshort => Ends.liftSome (ends_readU32 hlength hshort) ?_
    refine Ends.guardThen Iff.rfl fun _ => ?_
    refine Ends.liftSome (ends_allocate (heldNearly_min_div _ 20 _)) ?_
    refine andEnds (readsFrom_readReferencingSegments hsmall hshort)
      fun segments behind hbehind => ?_
    exact Ends.andSome (ih hbehind) fun generations _ => ends_some _

/-- The same catalog without machine words. -/
def catalogOf (archiveBytes : Bytes) (anchor : Nat) (footer : TrailerFooter) (version : Nat) :
    Option BinaryReferences := do
  guard (0 ≤ footer.count)
  guard (footer.count * 22 + footerSize ≤ footer.declaredSize)
  guard (footer.declaredSize.toNat ≤ anchor)
  let data := archiveBytes.slice (anchor - footer.declaredSize.toNat)
    (footer.declaredSize.toNat - footerSize)
  guard (crc32 data = footer.storedChecksum)
  let generations ← Froe.readGenerations version footer.count.toNat data
  return ⟨generations⟩

theorem parseBinaryReferences_eq :
    Froe.parseBinaryReferences archiveBytes anchor = (do
      guard (footerSize ≤ anchor ∧ anchor ≤ archiveBytes.length)
      let footer := Froe.readFooter archiveBytes anchor
      if footer.magic = binaryReferencesVersion1Magic then catalogOf archiveBytes anchor footer 1
      else if footer.magic = binaryReferencesVersion2Magic then
        catalogOf archiveBytes anchor footer 2
      else none) := by
  rw [Froe.parseBinaryReferences]
  refine congrArg _ (funext fun _ => ?_)
  dsimp only
  split
  · rw [Option.bind_eq_bind, Option.bind_some, catalogOf]
  · split
    · rw [Option.bind_eq_bind, Option.bind_some, catalogOf]
    · rfl

theorem ends_checkedSub_bind {a b : Nat} {next : Nat → OptionT Run β} {g : Option β}
    (h : b ≤ a → Ends HeldNearly (next (a - b)).run g) :
    Ends HeldNearly (OptionT.mk (pure (checkedSub a b)) >>= next).run (guard (b ≤ a) >>= fun _ => g) := by
  rw [checkedSub, guard]
  split
  · exact h ‹_›
  · exact ends_pure _

theorem ends_readCatalog {footer : TrailerFooter} (version : Nat) (hcount : footer.count < 2 ^ 31)
    (hdeclared : footer.declaredSize < 2 ^ 31) (hle : anchor ≤ archiveBytes.length) :
    Ends HeldNearly (readCatalog archiveBytes anchor footer version).run
      (catalogOf archiveBytes anchor footer version) := by
  have hsize : footerSize = 16 := rfl
  rw [readCatalog, catalogOf]
  refine Ends.guardThen Iff.rfl fun hnegative => ?_
  refine Ends.liftSome (ends_signedWord (by omega) (by omega)) ?_
  refine Ends.liftSome (ends_signedWord (by omega) (by omega)) ?_
  refine Ends.guardThen Iff.rfl fun hminimum => ?_
  refine ends_checkedSub_bind fun hfit => ?_
  have hbuffer := @ends_slice HeldNearly archiveBytes (anchor - footer.declaredSize.toNat) anchor
    (Nat.sub_le ..) hle
  rw [Nat.sub_sub_self hfit] at hbuffer
  have hbufferLength : (archiveBytes.slice (anchor - footer.declaredSize.toNat)
      footer.declaredSize.toNat).length = footer.declaredSize.toNat := by
    rw [Bytes.length_slice]
    omega
  have hdata := @ends_slice HeldNearly (archiveBytes.slice (anchor - footer.declaredSize.toNat)
    footer.declaredSize.toNat) 0 (footer.declaredSize.toNat - footerSize) (Nat.zero_le _) (by omega)
  rw [Bytes.slice_slice (by omega), Nat.add_zero, Nat.sub_zero] at hdata
  refine hbuffer.liftSome ((ends_sub (by omega)).liftSome (hdata.liftSome ?_))
  have hdataLength : (archiveBytes.slice (anchor - footer.declaredSize.toNat)
      (footer.declaredSize.toNat - footerSize)).length = footer.declaredSize.toNat - footerSize := by
    rw [Bytes.length_slice]
    omega
  generalize archiveBytes.slice (anchor - footer.declaredSize.toNat)
    (footer.declaredSize.toNat - footerSize) = data at hdataLength
  refine Ends.guardThen Iff.rfl fun _ => ?_
  refine Ends.liftSome (ends_allocate (heldNearly_min_div _ 8 _)) ?_
  have hgenerations := @ends_readGenerations data (by omega) version footer.count.toNat 0
    (Nat.zero_le _)
  rw [List.drop_zero] at hgenerations
  exact Ends.andSome hgenerations fun generations _ => ends_some _

/-- The catalog at any anchor is parsed without a fault. -/
theorem ends_parseBinaryReferences :
    Ends HeldNearly (parseBinaryReferences archiveBytes anchor).run
      (Froe.parseBinaryReferences archiveBytes anchor) := by
  rw [parseBinaryReferences, parseBinaryReferences_eq]
  refine Ends.guardThen Iff.rfl fun hanchor => ?_
  refine Ends.liftSome (ends_readFooter hanchor.1 hanchor.2) ?_
  have hcount : (Froe.readFooter archiveBytes anchor).count < 2 ^ 31 := signed32_lt _
  have hdeclared : (Froe.readFooter archiveBytes anchor).declaredSize < 2 ^ 31 := signed32_lt _
  dsimp only
  split
  · exact ends_readCatalog 1 hcount hdeclared hanchor.2
  · split
    · exact ends_readCatalog 2 hcount hdeclared hanchor.2
    · exact ends_pure _

end

/-! ## Every reader -/

/-- Every reader ends without a fault on every byte string, with what the plain readers return.
The rows of a segment, of an index and of a graph fit into the declared bytes, and the rows of
a catalog are at most one more. -/
theorem readers_end_on_every_input :
    (∀ identifier bytes, bytes.length < wordCount →
      Ends Held (parse identifier bytes).run
        ((ParsedSegment.parse identifier bytes).map tablesOf) ∧
      ∀ segment, ParsedSegment.parse identifier bytes = .ok segment →
        (∀ recordNumber, Ends Held (recordOffset segment recordNumber)
          (segment.recordOffset recordNumber)) ∧
        (∀ virtualOffset, Ends Held (bufferPosition segment virtualOffset).run
          (segment.bufferPosition virtualOffset)) ∧
        (∀ recordNumber offset length,
          Ends Held (readBytes ⟨segment, bytes⟩ recordNumber offset length).run
            (SegmentView.readBytes ⟨segment, bytes⟩ recordNumber offset length)) ∧
        ∀ recordNumber rawOffset identifierIndex,
          Ends Held (readRecordIdentifier ⟨segment, bytes⟩ recordNumber rawOffset
              identifierIndex).run
            (if rawOffset + identifierIndex * 6 < wordCount then
              SegmentView.readRecordIdentifier ⟨segment, bytes⟩ recordNumber rawOffset
                identifierIndex
            else invalid s!"record identifier offset overflows in record {recordNumber} of segment {segment.identifier.display}")) ∧
    ∀ archiveBytes,
      Ends Held (parseSegmentIndex archiveBytes).run
        ((Froe.parseSegmentIndex archiveBytes).map fun index => (index.version, index.entries)) ∧
      (∀ indexBytes index, Froe.parseSegmentIndex indexBytes = .ok index →
        ∀ maximumWorkUnits maximumRows maximumEdges,
          Ends Held (parseSegmentGraphWithLimits archiveBytes index maximumWorkUnits maximumRows
              maximumEdges)
            (Froe.parseSegmentGraphWithLimits archiveBytes index maximumWorkUnits maximumRows
              maximumEdges)) ∧
      ∀ anchor, Ends HeldNearly (parseBinaryReferences archiveBytes anchor).run
        (Froe.parseBinaryReferences archiveBytes anchor) := by
  refine ⟨fun identifier bytes hbytes => ⟨ends_parse hbytes, fun segment hparse => ?_⟩,
    fun archiveBytes => ⟨ends_parseSegmentIndex, ?_, fun anchor => ends_parseBinaryReferences⟩⟩
  · obtain ⟨-, hsize⟩ := size_of_parse hparse
    refine ⟨fun recordNumber => ends_recordOffset recordNumber,
      fun virtualOffset => ends_bufferPosition hsize virtualOffset, ?_, ?_⟩
    · intro recordNumber offset length
      exact ends_readBytes hsize hbytes recordNumber offset length
    · intro recordNumber rawOffset identifierIndex
      exact @ends_readRecordIdentifier Held ⟨segment, bytes⟩ hsize hbytes recordNumber rawOffset
        identifierIndex
  · intro indexBytes index hindex maximumWorkUnits maximumRows maximumEdges
    exact ends_parseSegmentGraphWithLimits (length_entries_of_parse hindex) maximumWorkUnits
      maximumRows maximumEdges

/-- An archive with nothing but an index of one entry. -/
def oneEntryArchive : Bytes :=
  List.replicate 2019 0 ++ [1, 0, 0, 0, 0, 0, 0, 0, 1, 0, 0, 0, 0] ++
    [0x60, 0x86, 0x87, 0xDC, 0, 0, 0, 1, 0, 0, 2, 0, 0x0A, 0x30, 0x4B, 0x0A] ++
    List.replicate 1024 0

theorem readers_end_on_one_entry :
    (∃ segment, ParsedSegment.parse ⟨0, 0xB000000000000000⟩ [7] = .ok segment ∧
      Ends Held (readBytes ⟨segment, [7]⟩ 9 (2 ^ 64 - 1) 4).run
        (SegmentView.readBytes ⟨segment, [7]⟩ 9 (2 ^ 64 - 1) 4)) ∧
    ∃ index, Froe.parseSegmentIndex oneEntryArchive = .ok index ∧
      Ends Held (parseSegmentGraphWithLimits oneEntryArchive index 0 0 0)
        (Froe.parseSegmentGraphWithLimits oneEntryArchive index 0 0 0) := by
  constructor
  · cases hparse : ParsedSegment.parse ⟨0, 0xB000000000000000⟩ [7] with
    | error error =>
      have hok : (ParsedSegment.parse ⟨0, 0xB000000000000000⟩ [7]).isOk = true := by decide +kernel
      rw [hparse] at hok
      exact absurd hok Bool.false_ne_true
    | ok segment =>
      exact ⟨segment, rfl,
        ((readers_end_on_every_input.1 _ [7] (by decide)).2 segment hparse).2.2.1 9 (2 ^ 64 - 1) 4⟩
  · cases hparse : Froe.parseSegmentIndex oneEntryArchive with
    | error error =>
      have hok : (Froe.parseSegmentIndex oneEntryArchive).isOk = true := by decide +kernel
      rw [hparse] at hok
      exact absurd hok Bool.false_ne_true
    | ok index =>
      exact ⟨index, rfl, (readers_end_on_every_input.2 oneEntryArchive).2.1 _ index hparse 0 0 0⟩

/-- A catalog of 22 bytes, which hold one segment row, with a count of two. -/
def shortCatalog : Bytes :=
  [0, 0, 0, 0, 0, 0, 0, 2] ++ List.replicate 14 0 ++
    [0x00, 0xAF, 0x00, 0x71, 0, 0, 0, 1, 0, 0, 0, 38, 0x0A, 0x30, 0x42, 0x0A]

/-- The capacity of two rows is allocated before the catalog turns out too short. -/
theorem shortCatalog_allocates_beyond :
    ¬ ∃ result, Ends Held (parseBinaryReferences shortCatalog 38).run result := by
  rintro ⟨result, h⟩
  obtain ⟨allocations, hrun, hheld⟩ := h []
  have hlog : (parseBinaryReferences shortCatalog 38).run.run [] =
      .ok (none, [⟨1, 8, 22⟩, ⟨2, 20, 22⟩]) := by decide +kernel
  rw [hlog] at hrun
  obtain ⟨-, rfl⟩ := Prod.mk.inj (Except.ok.inj hrun)
  exact absurd (hheld ⟨2, 20, 22⟩ (by decide)) (show ¬ 2 * 20 ≤ 22 by decide)

end Machine

end Froe
