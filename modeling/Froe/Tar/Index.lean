import Froe.Lib.Except
import Froe.Lib.Search
import Froe.Tar.EntryHeader
import Mathlib.Data.Prod.Lex

/-!
# The segment index

The `.idx` trailer is the last entry of a complete archive: its payload ends
right before the two zero blocks that close the file, with a footer of
checksum, entry count, size and magic number.  Entries are sorted by UUID,
compared as signed 64-bit halves.  A `SegmentIndex` carries that order, so that
the binary search behind `findEntry` finds an entry whenever there is one.
-/

namespace Froe

/-! ## The footer all trailers share -/

/-- A malformation of segment-tar data. -/
def invalid {α : Type} (details : String) : Result α := .error (.invalidFormat details)

def footerSize : Nat := 16

/-- The two zero blocks at the end of a tar file. -/
def terminatingZeroBlocks : Nat := 1024

/-- A 32-bit word read as a signed integer. -/
def signed32 (word : UInt32) : Int := word.toInt32.toInt

/-- The four words of a trailer footer. -/
structure TrailerFooter where
  /-- The CRC32 of the data in front of the footer. -/
  storedChecksum : UInt32
  /-- The number of entries, rows or generations. -/
  count : Int
  /-- The size the trailer declares for itself. -/
  declaredSize : Int
  /-- The magic number. -/
  magic : UInt32
deriving DecidableEq, Repr

/-- The footer that ends at `anchor`. -/
def readFooter (archiveBytes : Bytes) (anchor : Nat) : TrailerFooter :=
  let footer := archiveBytes.slice (anchor - footerSize) footerSize
  { storedChecksum := footer.u32At 0
    count := signed32 (footer.u32At 4)
    declaredSize := signed32 (footer.u32At 8)
    magic := footer.u32At 12 }

/-- The footer a writer puts behind `data`. -/
def footerBytes (data : Bytes) (count size : Nat) (magic : UInt32) : Bytes :=
  Bytes.be32 (crc32 data) ++ Bytes.be 4 count ++ Bytes.be 4 size ++ Bytes.be32 magic

/-! ## Index entries -/

/-- One segment recorded in the index of an archive. -/
structure SegmentIndexEntry where
  /-- The UUID of the segment. -/
  segmentIdentifier : SegmentIdentifier
  /-- The file offset of the segment data, past the tar entry header. -/
  position : UInt32
  /-- The size of the segment data. -/
  size : UInt32
  /-- The generation. -/
  generation : Int32
  /-- The full generation, which repeats the generation in version 1. -/
  fullGeneration : Int32
  /-- Whether a compaction produced the segment.  Always set in version 1. -/
  isCompacted : Bool
deriving DecidableEq, Repr

/-- The order of the index: the two halves as signed integers. -/
def signedOrderKey (identifier : SegmentIdentifier) : Int ×ₗ Int :=
  toLex (identifier.mostSignificantBits.toInt64.toInt, identifier.leastSignificantBits.toInt64.toInt)

/-- Entries are sorted by signed words. -/
def SegmentIndexEntry.key (entry : SegmentIndexEntry) : Int ×ₗ Int :=
  signedOrderKey entry.segmentIdentifier

/-- The extent rules of the reader: block aligned and not empty. -/
def SegmentIndexEntry.ValidExtent (entry : SegmentIndexEntry) : Prop :=
  0 ≤ signed32 entry.position ∧ entry.position.toNat % 512 = 0 ∧ 1 ≤ signed32 entry.size

/-- The parsed index of one archive. -/
structure SegmentIndex where
  /-- The format version, 1 or 2. -/
  version : Nat
  /-- The entries in their order on disk. -/
  entries : List SegmentIndexEntry
  /-- The entries are strictly sorted, so no identifier repeats. -/
  sorted : Search.StrictlySorted SegmentIndexEntry.key entries
  /-- Every entry names a block-aligned region that is not empty. -/
  extents : ∀ entry ∈ entries, entry.ValidExtent

/-- Looks up a segment by binary search. -/
def SegmentIndex.findEntry (index : SegmentIndex) (identifier : SegmentIdentifier) :
    Option SegmentIndexEntry :=
  Search.binarySearch SegmentIndexEntry.key (signedOrderKey identifier) index.entries

/-! ## Parsing -/

/-- Rejects an archive that cannot hold an index at all. -/
def validateArchiveShape (length : Nat) : Result Unit :=
  if length % 512 ≠ 0 then invalid s!"archive length {length} is not a multiple of 512"
  else if length < 6 * 512 then
    invalid s!"archive of {length} bytes is too short to hold an index"
  else if length > 2 ^ 31 - 1 then
    invalid s!"archive of {length} bytes exceeds the 2 GiB addressing limit"
  else .ok ()

/-- The decoded index footer: what the entry table is and how to check it. -/
structure IndexFooter where
  /-- The format version. -/
  version : Nat
  /-- The size of one entry. -/
  entrySize : Nat
  /-- The number of entries. -/
  entryCount : Nat
  /-- The checksum of the entries. -/
  storedChecksum : UInt32
deriving DecidableEq, Repr

def indexVersion1Magic : UInt32 := 0x0A304B0A

def indexVersion2Magic : UInt32 := 0x0A314B0A

/-- Version 2 adds the full generation. -/
def indexEntrySize (version : Nat) : Nat := if version = 2 then 33 else 28

/-- Decodes the footer.  The minimum size uses the entry size of version 1 in both. -/
def readIndexFooter (archiveBytes : Bytes) (anchor : Nat) : Result IndexFooter :=
  let footer := readFooter archiveBytes anchor
  let check (version : Nat) : Result IndexFooter :=
    if footer.count < 1 then invalid s!"invalid index entry count {footer.count}"
    else if footer.declaredSize < 0 ∨ footer.declaredSize < footer.count * 28 + 16 then
      invalid s!"invalid index size {footer.declaredSize}"
    else if footer.declaredSize % 512 ≠ 0 then
      invalid s!"index size {footer.declaredSize} is not aligned to 512 bytes"
    else .ok ⟨version, indexEntrySize version, footer.count.toNat, footer.storedChecksum⟩
  if footer.magic = indexVersion1Magic then check 1
  else if footer.magic = indexVersion2Magic then check 2
  else invalid s!"unrecognized index magic number 0x{hex32 footer.magic}"

/-- Locates the entry table and checks its checksum before an entry is decoded. -/
def locateIndexEntries (archiveBytes : Bytes) (anchor : Nat) (footer : IndexFooter) :
    Result Bytes :=
  let entriesSize := footer.entryCount * footer.entrySize
  let entriesEnd := anchor - footerSize
  if entriesEnd < entriesSize then
    invalid s!"index with {footer.entryCount} entries does not fit the archive"
  else
    let entriesBytes := archiveBytes.slice (entriesEnd - entriesSize) entriesSize
    if crc32 entriesBytes ≠ footer.storedChecksum then invalid "index checksum mismatch"
    else .ok entriesBytes

/-- The fields of one entry as they stand in its bytes. -/
def decodeIndexEntry (version : Nat) (entryBytes : Bytes) : SegmentIndexEntry :=
  let generation := (entryBytes.u32At 24).toInt32
  { segmentIdentifier := ⟨entryBytes.u64At 0, entryBytes.u64At 8⟩
    position := entryBytes.u32At 16
    size := entryBytes.u32At 20
    generation := generation
    fullGeneration := if version = 2 then (entryBytes.u32At 28).toInt32 else generation
    isCompacted := if version = 2 then entryBytes.getD 32 0 != 0 else true }

/-- Keys strictly increase. -/
def rejectOutOfOrderKey (previousKey : Option (Int ×ₗ Int)) (key : Int ×ₗ Int) : Result Unit :=
  match previousKey with
  | none => .ok ()
  | some previous =>
    if key < previous then invalid "index entries are not sorted by segment identifier"
    else if previous = key then invalid "duplicate segment identifier in index"
    else .ok ()

/-- An entry names a block-aligned region that is not empty. -/
def validateEntryExtent (position size : Int) : Result Unit :=
  if position < 0 then invalid s!"negative index entry position {position}"
  else if position % 512 ≠ 0 then
    invalid s!"index entry position {position} is not aligned to 512 bytes"
  else if size < 1 then invalid s!"invalid index entry size {size}"
  else .ok ()

/-- Decodes `count` entries, each held to the order and the extent rules. -/
def parseIndexEntries (version : Nat) :
    Nat → Option (Int ×ₗ Int) → Bytes → Result (List SegmentIndexEntry)
  | 0, _, _ => .ok []
  | count + 1, previousKey, entriesBytes => do
    let entry := decodeIndexEntry version (entriesBytes.take (indexEntrySize version))
    rejectOutOfOrderKey previousKey entry.key
    validateEntryExtent (signed32 entry.position) (signed32 entry.size)
    let entries ← parseIndexEntries version count (some entry.key)
      (entriesBytes.drop (indexEntrySize version))
    return entry :: entries

/-! ## What the parser accepts -/

theorem invalid_ne_ok {α : Type} {details : String} {a : α} : invalid details ≠ .ok a := by
  intro h
  cases h

variable {previousKey : Option (Int ×ₗ Int)} {entry : SegmentIndexEntry} {version : Nat}
  {entriesBytes : Bytes} {entries : List SegmentIndexEntry} {index : SegmentIndex}
  {identifier : SegmentIdentifier}

theorem rejectOutOfOrderKey_ok {key : Int ×ₗ Int} :
    rejectOutOfOrderKey previousKey key = .ok () ↔ ∀ previous ∈ previousKey, previous < key := by
  cases previousKey with
  | none => simp [rejectOutOfOrderKey]
  | some previous =>
    simp only [rejectOutOfOrderKey, Option.mem_some_iff, forall_eq']
    rcases lt_trichotomy previous key with hlt | heq | hgt
    · simp [hlt, not_lt_of_gt hlt, ne_of_lt hlt]
    · simp [heq, invalid]
    · simp [hgt, not_lt_of_gt hgt, invalid]

theorem validateEntryExtent_ok {position size : Int} :
    validateEntryExtent position size = .ok () ↔ 0 ≤ position ∧ position % 512 = 0 ∧ 1 ≤ size := by
  unfold validateEntryExtent
  split
  · simp [invalid]
    omega
  split
  · simp [invalid]
    omega
  split
  · simp [invalid]
    omega
  · simp
    omega

theorem signed32_of_nonneg {word : UInt32} (h : 0 ≤ signed32 word) :
    signed32 word = word.toNat := by
  unfold signed32 at *
  have hlt := word.toNat_lt
  rw [← Int32.toInt_toBitVec, UInt32.toBitVec_toInt32, BitVec.toInt_eq_toNat_cond,
    UInt32.toNat_toBitVec] at *
  split at h
  · rw [if_pos ‹_›]
  · omega

theorem validExtent_iff :
    entry.ValidExtent ↔
      validateEntryExtent (signed32 entry.position) (signed32 entry.size) = .ok () := by
  rw [validateEntryExtent_ok, SegmentIndexEntry.ValidExtent]
  constructor
  · rintro ⟨hp, halign, hs⟩
    rw [signed32_of_nonneg hp]
    omega
  · rintro ⟨hp, halign, hs⟩
    rw [signed32_of_nonneg hp] at halign
    omega

/-- One entry of the loop: it passes both checks and the rest is parsed behind it. -/
theorem parseIndexEntries_succ {count : Nat} :
    parseIndexEntries version (count + 1) previousKey entriesBytes = .ok entries ↔
      ∃ entry rest, entries = entry :: rest ∧
        entry = decodeIndexEntry version (entriesBytes.take (indexEntrySize version)) ∧
        (∀ previous ∈ previousKey, previous < entry.key) ∧ entry.ValidExtent ∧
        parseIndexEntries version count (some entry.key)
          (entriesBytes.drop (indexEntrySize version)) = .ok rest := by
  simp only [parseIndexEntries, Except.bind_ok_iff, Except.pure_ok_iff]
  constructor
  · rintro ⟨⟨⟩, hkey, ⟨⟩, hextent, rest, hrest, rfl⟩
    exact ⟨_, rest, rfl, rfl, rejectOutOfOrderKey_ok.mp hkey, validExtent_iff.mpr hextent, hrest⟩
  · rintro ⟨entry, rest, rfl, rfl, hkey, hextent, hrest⟩
    exact ⟨(), rejectOutOfOrderKey_ok.mpr hkey, (), validExtent_iff.mp hextent, rest, hrest, rfl⟩

theorem parseIndexEntries_zero :
    parseIndexEntries version 0 previousKey entriesBytes = .ok entries ↔ entries = [] := by
  simp [parseIndexEntries, eq_comm]

/-- What a whole run of the loop leaves: keys that increase from the previous one on,
valid extents and as many entries as the footer counted. -/
theorem parseIndexEntries_spec {count : Nat}
    (h : parseIndexEntries version count previousKey entriesBytes = .ok entries) :
    Search.StrictlySorted SegmentIndexEntry.key entries ∧
      (∀ previous ∈ previousKey, ∀ entry ∈ entries, previous < entry.key) ∧
      (∀ entry ∈ entries, entry.ValidExtent) ∧ entries.length = count := by
  induction count generalizing previousKey entriesBytes entries with
  | zero =>
    obtain rfl := parseIndexEntries_zero.mp h
    exact ⟨List.Pairwise.nil, by simp, by simp, rfl⟩
  | succ count ih =>
    obtain ⟨entry, rest, rfl, -, hkey, hextent, hrest⟩ := parseIndexEntries_succ.mp h
    obtain ⟨hsorted, habove, hextents, hlength⟩ := ih hrest
    have hlater : ∀ later ∈ rest, entry.key < later.key := habove entry.key rfl
    refine ⟨List.pairwise_cons.mpr ⟨hlater, hsorted⟩, ?_, ?_, by simp [hlength]⟩
    · intro previous hprevious later hlater'
      rcases List.mem_cons.mp hlater' with rfl | hin
      · exact hkey previous hprevious
      · exact lt_trans (hkey previous hprevious) (hlater later hin)
    · intro later hlater'
      rcases List.mem_cons.mp hlater' with rfl | hin
      · exact hextent
      · exact hextents later hin

/-- Parses and validates the index of a complete archive file. -/
def parseSegmentIndex (archiveBytes : Bytes) : Result SegmentIndex := do
  validateArchiveShape archiveBytes.length
  let anchor := archiveBytes.length - terminatingZeroBlocks
  let footer ← readIndexFooter archiveBytes anchor
  let entriesBytes ← locateIndexEntries archiveBytes anchor footer
  match h : parseIndexEntries footer.version footer.entryCount none entriesBytes with
  | .error error => .error error
  | .ok entries =>
    .ok ⟨footer.version, entries, (parseIndexEntries_spec h).1, (parseIndexEntries_spec h).2.2.1⟩

/-- The bytes the index occupies as a tar entry: header block and padded payload. -/
def indexEntryDiskSize (index : SegmentIndex) : Nat :=
  512 + (index.entries.length * indexEntrySize index.version + footerSize + 511) / 512 * 512

theorem SegmentIndex.ext_of {a b : SegmentIndex} (hversion : a.version = b.version)
    (hentries : a.entries = b.entries) : a = b := by
  cases a
  cases b
  cases hversion
  cases hentries
  rfl

/-- A parse succeeds exactly when each of its four steps does. -/
theorem parseSegmentIndex_ok {archiveBytes : Bytes} :
    parseSegmentIndex archiveBytes = .ok index ↔
      validateArchiveShape archiveBytes.length = .ok () ∧ ∃ footer entriesBytes,
        readIndexFooter archiveBytes (archiveBytes.length - terminatingZeroBlocks) = .ok footer ∧
        locateIndexEntries archiveBytes (archiveBytes.length - terminatingZeroBlocks) footer =
          .ok entriesBytes ∧
        parseIndexEntries footer.version footer.entryCount none entriesBytes = .ok index.entries ∧
        index.version = footer.version := by
  simp only [parseSegmentIndex, Except.bind_ok_iff]
  constructor
  · rintro ⟨⟨⟩, hshape, footer, hfooter, entriesBytes, hlocate, hparse⟩
    refine ⟨hshape, footer, entriesBytes, hfooter, hlocate, ?_⟩
    split at hparse
    · cases hparse
    · cases hparse
      exact ⟨‹_›, rfl⟩
  · rintro ⟨hshape, footer, entriesBytes, hfooter, hlocate, hentries, hversion⟩
    refine ⟨(), hshape, footer, hfooter, entriesBytes, hlocate, ?_⟩
    split
    · rename_i error herror
      rw [herror] at hentries
      cases hentries
    · rename_i entries hok
      rw [hok] at hentries
      cases hentries
      exact congrArg Except.ok (SegmentIndex.ext_of hversion.symm rfl)

/-! ## Looking segments up -/

theorem signedOrderKey_injective : Function.Injective signedOrderKey := by
  rintro ⟨a, b⟩ ⟨c, d⟩ h
  have hpair := toLex.injective h
  rw [Prod.mk.injEq, Int64.toInt_inj, Int64.toInt_inj] at hpair
  obtain ⟨hac, hbd⟩ := hpair
  rw [SegmentIdentifier.mk.injEq]
  exact ⟨by simpa using congrArg Int64.toUInt64 hac, by simpa using congrArg Int64.toUInt64 hbd⟩

/-- The lookup finds exactly the entry of the identifier. -/
theorem SegmentIndex.findEntry_eq_some_iff :
    index.findEntry identifier = some entry ↔
      entry ∈ index.entries ∧ entry.segmentIdentifier = identifier := by
  rw [findEntry, Search.binarySearch_eq_some_iff index.sorted, SegmentIndexEntry.key,
    signedOrderKey_injective.eq_iff]

theorem SegmentIndex.findEntry_eq_none_iff :
    index.findEntry identifier = none ↔
      ∀ entry ∈ index.entries, entry.segmentIdentifier ≠ identifier := by
  rw [findEntry, Search.binarySearch_eq_none_iff index.sorted]
  simp only [SegmentIndexEntry.key, ne_eq, signedOrderKey_injective.eq_iff]

end Froe
