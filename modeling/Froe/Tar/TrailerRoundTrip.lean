import Froe.Tar.Writer

/-!
# Reading the trailers back

Each trailer encoding is read back by its parser: the rows of the graph, the
generations of the catalog and the entries of the index.  The parsers bound the
counts they read by 31 bits; all of them are bounded by the length of the data
they count, so the one hypothesis of the lemmas is on that length.
-/

namespace Froe

open List (append_assoc drop_left drop_zero flatMap_cons length_append length_cons map_cons
  mem_cons_of_mem mem_cons_self take_left)

open TarArchiveWriter
open Bytes (be32 be64 drop_be32 length_be u32At_of_drop)

/-! ## Words -/

variable {n anchor count : Nat} {rest archiveBytes pre data : Bytes}
  {rows : List (SegmentIdentifier × Finset SegmentIdentifier)}

theorem signed32_ofNat (h : n < 2 ^ 31) : signed32 (UInt32.ofNat n) = n := by
  have htoNat : (UInt32.ofNat n).toNat = n := by
    rw [UInt32.toNat_ofNat']
    omega
  unfold signed32
  rw [← Int32.toInt_toBitVec, UInt32.toBitVec_toInt32, BitVec.toInt_eq_toNat_cond,
    UInt32.toNat_toBitVec, htoNat, if_pos (by omega)]

theorem be_four (h : n < 2 ^ 32) : Bytes.be 4 n = be32 (UInt32.ofNat n) := by
  have htoNat : (UInt32.ofNat n).toNat = n := by
    rw [UInt32.toNat_ofNat']
    omega
  rw [be32, htoNat]

/-- A count written in four bytes is read back as a signed integer. -/
theorem signed32_u32At {b : Bytes} {p : Nat} (hn : n < 2 ^ 31)
    (h : b.drop p = Bytes.be 4 n ++ rest) : signed32 (b.u32At p) = n := by
  rw [be_four (by omega)] at h
  rw [u32At_of_drop h, signed32_ofNat hn]

theorem toInt32_u32At {b : Bytes} {p : Nat} {value : Int32}
    (h : b.drop p = int32Bytes value ++ rest) : (b.u32At p).toInt32 = value := by
  rw [u32At_of_drop h, Int32.toInt32_toUInt32]

/-! ## Identifiers -/

variable (identifier : SegmentIdentifier)

@[simp] theorem length_identifierBytes :
    (identifierBytes identifier).length = 16 := by
  simp [identifierBytes]

theorem identifierAt_append (rest : Bytes) :
    identifierAt (identifierBytes identifier ++ rest) = identifier := by
  have hfirst : (identifierBytes identifier ++ rest).drop 0 =
      be64 identifier.mostSignificantBits ++
        (be64 identifier.leastSignificantBits ++ rest) := by
    rw [drop_zero, identifierBytes, append_assoc]
  rw [identifierAt, Bytes.u64At_of_drop hfirst, Bytes.u64At_of_drop (Bytes.drop_be64 hfirst)]

theorem drop_identifierBytes (rest : Bytes) :
    (identifierBytes identifier ++ rest).drop 16 = rest :=
  List.drop_left' (length_identifierBytes identifier)

theorem readIdentifiers_flatMap (identifiers : List SegmentIdentifier) (rest : Bytes) :
    readIdentifiers identifiers.length (identifiers.flatMap identifierBytes ++ rest) =
      (identifiers, rest) := by
  induction identifiers with
  | nil => rfl
  | cons identifier identifiers ih =>
    rw [flatMap_cons, append_assoc, length_cons, readIdentifiers,
      drop_identifierBytes, ih, identifierAt_append]

theorem length_flatMap_identifierBytes (identifiers : List SegmentIdentifier) :
    (identifiers.flatMap identifierBytes).length = 16 * identifiers.length := by
  induction identifiers with
  | nil => rfl
  | cons identifier identifiers ih =>
    rw [flatMap_cons, length_append, ih, length_identifierBytes, length_cons]
    omega

/-! ## Footers -/

@[simp] theorem length_footerBytes (data : Bytes) (count size : Nat) (magic : UInt32) :
    (footerBytes data count size magic).length = 16 := by
  simp [footerBytes]

/-- The footer at the end of what precedes `anchor` is read back. -/
theorem readFooter_of_append {size : Nat}
    {magic : UInt32} (h : archiveBytes = pre ++ footerBytes data count size magic ++ rest)
    (hanchor : anchor = pre.length + 16) (hcount : count < 2 ^ 31) (hsize : size < 2 ^ 31) :
    readFooter archiveBytes anchor = ⟨crc32 data, count, size, magic⟩ := by
  have hslice : archiveBytes.slice (anchor - footerSize) footerSize =
      footerBytes data count size magic := by
    refine Bytes.slice_of_eq_append h ?_ (length_footerBytes ..).symm
    rw [hanchor, footerSize, Nat.add_sub_cancel]
  have h0 : (footerBytes data count size magic).drop 0 = be32 (crc32 data) ++
      (Bytes.be 4 count ++ (Bytes.be 4 size ++ (be32 magic ++ []))) := by
    simp [footerBytes]
  have h4 := drop_be32 h0
  have h8 : (footerBytes data count size magic).drop 8 =
      Bytes.be 4 size ++ (be32 magic ++ []) := by
    simpa using Bytes.drop_add_of_drop_eq h4
  have h12 : (footerBytes data count size magic).drop 12 = be32 magic ++ [] := by
    simpa using Bytes.drop_add_of_drop_eq h8
  simp only [readFooter, hslice, u32At_of_drop h0, signed32_u32At hcount h4,
    signed32_u32At hsize h8, u32At_of_drop h12]

/-! ## The graph -/

/-- A row as the reader returns it. -/
def graphRow (row : SegmentIdentifier × Finset SegmentIdentifier) :
    SegmentIdentifier × List SegmentIdentifier :=
  (row.1, row.2.sort (· ≤ ·))

theorem length_graphRowBytes (row : SegmentIdentifier × Finset SegmentIdentifier) :
    (graphRowBytes row).length = 20 + 16 * row.2.card := by
  simp only [graphRowBytes, length_append, length_identifierBytes, length_be,
    length_flatMap_identifierBytes, Finset.length_sort]

/-- The rows written are the rows read. -/
theorem parseGraphRows_flatMap (workUnits entryCount totalEdges : Nat)
    (rows : List (SegmentIdentifier × Finset SegmentIdentifier))
    (hlength : (rows.flatMap graphRowBytes).length < 2 ^ 31) :
    parseGraphRows workUnits entryCount (2 ^ 64 - 1) rows.length totalEdges
      (rows.flatMap graphRowBytes) = .ok (rows.map graphRow) := by
  induction rows generalizing totalEdges with
  | nil => rfl
  | cons row rows ih =>
    rw [flatMap_cons, length_append, length_graphRowBytes] at hlength
    have hrest := ih (min (totalEdges + row.2.card) (2 ^ 64 - 1)) (by omega)
    have hdata : (row :: rows).flatMap graphRowBytes = identifierBytes row.1 ++
        (Bytes.be 4 row.2.card ++ ((row.2.sort (· ≤ ·)).flatMap identifierBytes ++
          rows.flatMap graphRowBytes)) := by
      simp [graphRowBytes]
    rw [hdata]
    have h16 := drop_identifierBytes row.1 (Bytes.be 4 row.2.card ++
      ((row.2.sort (· ≤ ·)).flatMap identifierBytes ++ rows.flatMap graphRowBytes))
    have hcount := signed32_u32At (by omega) h16
    have h20 : (identifierBytes row.1 ++ (Bytes.be 4 row.2.card ++
        ((row.2.sort (· ≤ ·)).flatMap identifierBytes ++ rows.flatMap graphRowBytes))).drop 20 =
        (row.2.sort (· ≤ ·)).flatMap identifierBytes ++ rows.flatMap graphRowBytes := by
      simpa using Bytes.drop_add_of_drop_eq h16
    have hread := readIdentifiers_flatMap (row.2.sort (· ≤ ·)) (rows.flatMap graphRowBytes)
    rw [Finset.length_sort] at hread
    have hfits : ¬ ((row.2.sort (· ≤ ·)).flatMap identifierBytes ++
        rows.flatMap graphRowBytes).length < row.2.card * 16 := by
      rw [length_append, length_flatMap_identifierBytes, Finset.length_sort]
      omega
    rw [length_cons, parseGraphRows, if_neg (by simp; omega)]
    simp only [hcount, h20, Int.toNat_natCast, identifierAt_append, hread, hrest]
    rw [if_neg (by omega), if_neg hfits, if_neg (by omega)]
    rfl

/-- Every row of a written graph has an edge, which the size bound of the reader counts on. -/
theorem le_length_flatMap_graphRowBytes (hrows : ∀ row ∈ rows, row.2 ≠ ∅) :
    36 * rows.length ≤ (rows.flatMap graphRowBytes).length := by
  induction rows with
  | nil => simp
  | cons row rows ih =>
    have hcard : 0 < row.2.card :=
      Finset.card_pos.mpr (Finset.nonempty_iff_ne_empty.mpr (hrows row (mem_cons_self ..)))
    have hrest := ih fun row' hrow' => hrows row' (mem_cons_of_mem _ hrow')
    rw [flatMap_cons, length_append, length_graphRowBytes, length_cons]
    omega

theorem length_trailerPayload (data : Bytes) (count : Nat) (magic : UInt32) :
    (trailerPayload data count magic).length = data.length + 16 := by
  simp [trailerPayload]

section

variable {magic : UInt32} (h : archiveBytes = pre ++ trailerPayload data count magic ++ rest)
  (hanchor : anchor = pre.length + (data.length + 16))
include h hanchor

/-- The data in front of a footer that ends at `anchor`. -/
theorem slice_trailer_data :
    archiveBytes.slice (anchor - (data.length + 16)) data.length = data := by
  have hparts : archiveBytes =
      pre ++ data ++ (footerBytes data count (data.length + 16) magic ++ rest) := by
    rw [h, trailerPayload, footerSize]
    simp only [append_assoc]
  refine Bytes.slice_of_eq_append hparts ?_ rfl
  omega

theorem readFooter_trailerPayload (hcount : count < 2 ^ 31) (hsize : data.length + 16 < 2 ^ 31) :
    readFooter archiveBytes anchor = ⟨crc32 data, count, (data.length + 16 : Nat), magic⟩ := by
  have hparts : archiveBytes =
      (pre ++ data) ++ footerBytes data count (data.length + 16) magic ++ rest := by
    rw [h, trailerPayload, footerSize]
    simp only [append_assoc]
  refine readFooter_of_append hparts ?_ hcount hsize
  rw [length_append]
  omega

end

/-- A graph trailer in front of the index entry is parsed back. -/
theorem parseSegmentGraph_of_append {index : SegmentIndex}
    (h : archiveBytes = pre ++ trailerPayload (rows.flatMap graphRowBytes) rows.length graphMagic ++
      rest)
    (hrest : rest.length = terminatingZeroBlocks + indexEntryDiskSize index)
    (hrows : ∀ row ∈ rows, row.2 ≠ ∅) (hlength : archiveBytes.length < 2 ^ 31) :
    parseSegmentGraph archiveBytes index = some ⟨rows.map graphRow⟩ := by
  obtain ⟨data, hdata⟩ : ∃ data, data = rows.flatMap graphRowBytes := ⟨_, rfl⟩
  rw [← hdata] at h
  have htotal : archiveBytes.length = pre.length + (data.length + 16) + rest.length := by
    rw [h, length_append, length_append, length_trailerPayload]
  have hsize : 36 * rows.length ≤ data.length := by
    rw [hdata]
    exact le_length_flatMap_graphRowBytes hrows
  obtain ⟨anchor, hanchor⟩ : ∃ anchor, anchor = pre.length + (data.length + 16) := ⟨_, rfl⟩
  have hsub : archiveBytes.length - (terminatingZeroBlocks + indexEntryDiskSize index) = anchor := by
    rw [htotal, hrest, hanchor]
    omega
  have hfooter := readFooter_trailerPayload h hanchor (by omega) (by omega)
  have hslice := slice_trailer_data h hanchor
  have hparse := parseGraphRows_flatMap data.length rows.length 0 rows (by rw [← hdata]; omega)
  rw [← hdata] at hparse
  rw [parseSegmentGraph, parseSegmentGraphWithLimits]
  simp only [hsub, hfooter, ne_eq, not_true_eq_false, false_or, footerSize, Int.toNat_natCast,
    Nat.add_sub_cancel, hslice, hparse]
  rw [if_neg (by omega), if_neg (by omega), if_neg (by omega), if_neg (by omega),
    if_neg (by omega), if_neg (by omega), if_neg (by omega), if_neg not_false]
  rw [if_neg (by omega)]

/-! ## The catalog -/

/-- A catalogued segment as the reader returns it. -/
def referencingSegment (row : SegmentIdentifier × Finset String) :
    SegmentIdentifier × List String :=
  (row.1, row.2.sort (· ≤ ·))

/-- A generation as the reader returns it. -/
def catalogGeneration (row : GarbageCollectionGeneration × SegmentReferences) :
    GenerationBinaryReferences :=
  ⟨row.1.generation, row.1.fullGeneration, row.1.isCompacted, row.2.rows.map referencingSegment⟩

theorem length_le_flatMap {α : Type} {f : α → Bytes} {k : Nat} (xs : List α)
    (h : ∀ x ∈ xs, k ≤ (f x).length) : k * xs.length ≤ (xs.flatMap f).length := by
  induction xs with
  | nil => simp
  | cons x xs ih =>
    have hx := h x (mem_cons_self ..)
    have hxs := ih fun y hy => h y (mem_cons_of_mem _ hy)
    rw [flatMap_cons, length_append, length_cons, Nat.mul_add_one]
    omega

theorem guard_true {α : Type} {p : Prop} [Decidable p] (hp : p) (f : Unit → Option α) :
    (guard p >>= f) = f () := by
  simp [hp]

theorem readReferences_flatMap (references : List String) (rest : Bytes)
    (hlength : (references.flatMap referenceBytes).length < 2 ^ 31) :
    readReferences references.length (references.flatMap referenceBytes ++ rest) =
      some (references, rest) := by
  induction references with
  | nil => rfl
  | cons reference references ih =>
    obtain ⟨text, htext⟩ : ∃ text, text = reference.utf8 := ⟨_, rfl⟩
    obtain ⟨tail, htail⟩ : ∃ tail, tail = references.flatMap referenceBytes ++ rest := ⟨_, rfl⟩
    have hdata : (reference :: references).flatMap referenceBytes ++ rest =
        Bytes.be 4 text.length ++ (text ++ tail) := by
      rw [htext, htail, flatMap_cons, referenceBytes]
      simp only [append_assoc]
    rw [flatMap_cons, length_append, referenceBytes, length_append, ← htext]
      at hlength
    have hrest := ih (by omega)
    rw [← htail] at hrest
    have h0 : (Bytes.be 4 text.length ++ (text ++ tail)).drop 0 =
        Bytes.be 4 text.length ++ (text ++ tail) := drop_zero
    have hword := signed32_u32At (by omega) h0
    have h4 : (Bytes.be 4 text.length ++ (text ++ tail)).drop 4 = text ++ tail :=
      List.drop_left' (length_be ..)
    rw [hdata, length_cons, readReferences, guard_true (by simp)]
    simp only [hword, h4, Int.toNat_natCast, drop_left, take_left, hrest]
    rw [guard_true (by simp)]
    simp [htext]

theorem length_referencingSegmentBytes (row : SegmentIdentifier × Finset String) :
    (referencingSegmentBytes row).length =
      20 + ((row.2.sort (· ≤ ·)).flatMap referenceBytes).length := by
  simp only [referencingSegmentBytes, length_append, length_identifierBytes, length_be]

theorem readReferencingSegments_flatMap (rows : List (SegmentIdentifier × Finset String))
    (rest : Bytes) (hlength : (rows.flatMap referencingSegmentBytes).length < 2 ^ 31) :
    readReferencingSegments rows.length (rows.flatMap referencingSegmentBytes ++ rest) =
      some (rows.map referencingSegment, rest) := by
  induction rows with
  | nil => rfl
  | cons row rows ih =>
    rw [flatMap_cons, length_append, length_referencingSegmentBytes] at hlength
    have hrest := ih (by omega)
    obtain ⟨tail, htail⟩ : ∃ tail, tail = rows.flatMap referencingSegmentBytes ++ rest := ⟨_, rfl⟩
    rw [← htail] at hrest
    obtain ⟨references, hreferences⟩ : ∃ references, references = row.2.sort (· ≤ ·) := ⟨_, rfl⟩
    have hcard : row.2.card = references.length := by
      rw [hreferences, Finset.length_sort]
    rw [← hreferences] at hlength
    have hdata : (row :: rows).flatMap referencingSegmentBytes ++ rest = identifierBytes row.1 ++
        (Bytes.be 4 references.length ++ (references.flatMap referenceBytes ++ tail)) := by
      rw [htail, flatMap_cons, referencingSegmentBytes, hcard, ← hreferences]
      simp only [append_assoc]
    -- each reference takes four bytes at least, so their number is bounded as well
    have hcount : references.length < 2 ^ 31 := by
      have := length_le_flatMap (f := referenceBytes) (k := 4) references (by simp [referenceBytes])
      omega
    have hread := readReferences_flatMap references tail (by omega)
    have h16 := drop_identifierBytes row.1
      (Bytes.be 4 references.length ++ (references.flatMap referenceBytes ++ tail))
    have hword := signed32_u32At hcount h16
    have h20 : (identifierBytes row.1 ++ (Bytes.be 4 references.length ++
        (references.flatMap referenceBytes ++ tail))).drop 20 =
        references.flatMap referenceBytes ++ tail := by
      simpa using Bytes.drop_add_of_drop_eq h16
    rw [hdata, length_cons, readReferencingSegments, guard_true (by simp; omega)]
    simp only [hword, h20, Int.toNat_natCast, identifierAt_append, hread]
    rw [guard_true (by omega)]
    simp [referencingSegment, hreferences, hrest]

theorem readCatalogGeneration_append (generation : GarbageCollectionGeneration) (rest : Bytes) :
    readCatalogGeneration 2 (int32Bytes generation.generation ++
      (int32Bytes generation.fullGeneration ++ ((if generation.isCompacted then 1 else 0) :: rest))) =
      some (generation, rest) := by
  obtain ⟨number, full, compacted⟩ := generation
  obtain ⟨data, hdata⟩ : ∃ data, data = int32Bytes number ++ (int32Bytes full ++
    ((if compacted then 1 else 0) :: rest)) := ⟨_, rfl⟩
  have h0 : data.drop 0 = int32Bytes number ++ (int32Bytes full ++
      ((if compacted then 1 else 0) :: rest)) := by
    rw [drop_zero, hdata]
  have h4 : data.drop 4 = int32Bytes full ++ ((if compacted then 1 else 0) :: rest) :=
    drop_be32 h0
  have h8 : data.drop 8 = (if compacted then 1 else 0) :: rest := drop_be32 h4
  have h9 : data.drop 9 = rest := by
    have := congrArg (List.drop 1) h8
    simpa using this
  have hflag : data.getD 8 0 = if compacted then 1 else 0 := by
    rw [List.getD_eq_getElem?_getD, ← List.head?_drop, h8]
    rfl
  have hlength : 9 ≤ data.length := by
    rw [hdata]
    simp [int32Bytes]
    omega
  simp only [← hdata, readCatalogGeneration, if_pos, guard_true hlength, toInt32_u32At h0,
    toInt32_u32At h4, hflag, h9]
  cases compacted with
  | false => rfl
  | true => rfl

theorem length_catalogGenerationBytes (row : GarbageCollectionGeneration × SegmentReferences) :
    (catalogGenerationBytes row).length = 13 + (row.2.rows.flatMap referencingSegmentBytes).length := by
  simp only [catalogGenerationBytes, int32Bytes, length_append, length_be,
    Bytes.length_be32, length_cons, List.length_nil]

theorem readGenerations_flatMap (rows : List (GarbageCollectionGeneration × SegmentReferences))
    (hlength : (rows.flatMap catalogGenerationBytes).length < 2 ^ 31) :
    readGenerations 2 rows.length (rows.flatMap catalogGenerationBytes) =
      some (rows.map catalogGeneration) := by
  induction rows with
  | nil => rfl
  | cons row rows ih =>
    rw [flatMap_cons, length_append, length_catalogGenerationBytes] at hlength
    have hrest := ih (by omega)
    obtain ⟨tail, htail⟩ : ∃ tail, tail = rows.flatMap catalogGenerationBytes := ⟨_, rfl⟩
    rw [← htail] at hrest
    have hdata : (row :: rows).flatMap catalogGenerationBytes = int32Bytes row.1.generation ++
        (int32Bytes row.1.fullGeneration ++ ((if row.1.isCompacted then 1 else 0) ::
          (Bytes.be 4 row.2.rows.length ++ (row.2.rows.flatMap referencingSegmentBytes ++ tail)))) := by
      rw [htail, flatMap_cons, catalogGenerationBytes]
      simp only [append_assoc, List.cons_append, List.nil_append]
    have hcount : row.2.rows.length < 2 ^ 31 := by
      have := length_le_flatMap (f := referencingSegmentBytes) (k := 20) row.2.rows
        (by simp [length_referencingSegmentBytes])
      omega
    have hread := readReferencingSegments_flatMap row.2.rows tail (by omega)
    have h0 : (Bytes.be 4 row.2.rows.length ++
        (row.2.rows.flatMap referencingSegmentBytes ++ tail)).drop 0 =
        Bytes.be 4 row.2.rows.length ++ (row.2.rows.flatMap referencingSegmentBytes ++ tail) :=
      drop_zero
    have hword := signed32_u32At hcount h0
    have h4 : (Bytes.be 4 row.2.rows.length ++
        (row.2.rows.flatMap referencingSegmentBytes ++ tail)).drop 4 =
        row.2.rows.flatMap referencingSegmentBytes ++ tail :=
      List.drop_left' (length_be ..)
    rw [hdata, length_cons, readGenerations, readCatalogGeneration_append]
    simp only [Option.bind_eq_bind, Option.bind_some]
    rw [← Option.bind_eq_bind, guard_true (by simp)]
    simp only [hword, h4, Int.toNat_natCast, hread]
    rw [← Option.bind_eq_bind, guard_true (by omega)]
    simp [catalogGeneration, hrest]

/-- A catalog trailer that ends at `anchor` is parsed back. -/
theorem parseBinaryReferences_of_append
    {rows : List (GarbageCollectionGeneration × SegmentReferences)}
    (h : archiveBytes = pre ++ trailerPayload (rows.flatMap catalogGenerationBytes) rows.length
      binaryReferencesVersion2Magic ++ rest)
    (hanchor : anchor + rest.length = archiveBytes.length)
    (hrows : ∀ row ∈ rows, row.2.rows ≠ []) (hlength : archiveBytes.length < 2 ^ 31) :
    parseBinaryReferences archiveBytes anchor = some ⟨rows.map catalogGeneration⟩ := by
  obtain ⟨data, hdata⟩ : ∃ data, data = rows.flatMap catalogGenerationBytes := ⟨_, rfl⟩
  rw [← hdata] at h
  have htotal : archiveBytes.length = pre.length + (data.length + 16) + rest.length := by
    rw [h, length_append, length_append, length_trailerPayload]
  have hsize : 33 * rows.length ≤ data.length := by
    rw [hdata]
    refine length_le_flatMap rows ?_
    intro row hrow
    have hsegments := length_le_flatMap (f := referencingSegmentBytes) (k := 20) row.2.rows
      (by simp [length_referencingSegmentBytes])
    have hpos : 0 < row.2.rows.length := List.length_pos_iff.mpr (hrows row hrow)
    rw [length_catalogGenerationBytes]
    omega
  have hanchor' : anchor = pre.length + (data.length + 16) := by omega
  have hfooter := readFooter_trailerPayload h hanchor' (by omega) (by omega)
  have hslice := slice_trailer_data h hanchor'
  have hparse := readGenerations_flatMap rows (by rw [← hdata]; omega)
  rw [← hdata] at hparse
  have hmagic : binaryReferencesVersion2Magic ≠ binaryReferencesVersion1Magic := by decide
  have hin : 16 ≤ anchor ∧ anchor ≤ archiveBytes.length := by omega
  have hbound : (rows.length : Int) * 22 ≤ data.length := by omega
  have hfits : data.length + 16 ≤ anchor := by omega
  simp only [parseBinaryReferences, hfooter, footerSize, hin, hfits, hmagic,
    Int.toNat_natCast, Nat.add_sub_cancel, hslice, guard_true, and_self, if_true, if_false]
  simp [hparse, hbound]

/-! ## The index -/

/-- A recorded segment as the reader returns it. -/
def PendingIndexEntry.indexed (entry : PendingIndexEntry) : SegmentIndexEntry :=
  ⟨entry.identifier, entry.dataOffset, entry.size, entry.generation.generation,
    entry.generation.fullGeneration, entry.generation.isCompacted⟩

open PendingIndexEntry (indexed)

@[simp] theorem length_indexEntryBytes (entry : PendingIndexEntry) :
    (indexEntryBytes entry).length = 33 := by
  simp [indexEntryBytes, int32Bytes]

theorem decodeIndexEntry_indexEntryBytes (entry : PendingIndexEntry) :
    decodeIndexEntry 2 (indexEntryBytes entry) = entry.indexed := by
  obtain ⟨⟨high, low⟩, offset, size, ⟨number, full, compacted⟩⟩ := entry
  obtain ⟨flag, hflag⟩ : ∃ flag : UInt8, flag = if compacted then 1 else 0 := ⟨_, rfl⟩
  obtain ⟨bytes, hbytes⟩ : ∃ bytes, bytes =
    indexEntryBytes ⟨⟨high, low⟩, offset, size, ⟨number, full, compacted⟩⟩ := ⟨_, rfl⟩
  have h0 : bytes.drop 0 = be64 high ++ (be64 low ++ (be32 offset ++
      (be32 size ++ (int32Bytes number ++ (int32Bytes full ++ [flag]))))) := by
    rw [hbytes, drop_zero, indexEntryBytes, identifierBytes, hflag]
    simp only [append_assoc]
  have h8 := Bytes.drop_be64 h0
  have h16 := Bytes.drop_be64 h8
  have h20 := drop_be32 h16
  have h24 := drop_be32 h20
  have h28 : bytes.drop 28 = int32Bytes full ++ [flag] := drop_be32 h24
  have h32 : bytes.drop 32 = [flag] := drop_be32 h28
  have hlast : bytes.getD 32 0 = flag := by
    rw [List.getD_eq_getElem?_getD, ← List.head?_drop, h32]
    rfl
  rw [← hbytes, decodeIndexEntry, Bytes.u64At_of_drop h0, Bytes.u64At_of_drop h8,
    u32At_of_drop h16, u32At_of_drop h20, toInt32_u32At h24, toInt32_u32At h28, hlast,
    hflag, indexed]
  cases compacted with
  | false => rfl
  | true => rfl

/-- An encoding of index rows that the reader of a version decodes to the rows. -/
structure EncodesIndex (version : Nat) (magic : UInt32) (encode : PendingIndexEntry → Bytes)
    (entries : List PendingIndexEntry) : Prop where
  magicNumber : version = 1 ∧ magic = indexVersion1Magic ∨ version = 2 ∧ magic = indexVersion2Magic
  length : ∀ entry ∈ entries, (encode entry).length = indexEntrySize version
  decode : ∀ entry ∈ entries, decodeIndexEntry version (encode entry) = entry.indexed

theorem encodesIndex_indexEntryBytes (entries : List PendingIndexEntry) :
    EncodesIndex 2 indexVersion2Magic indexEntryBytes entries where
  magicNumber := .inr ⟨rfl, rfl⟩
  length := fun entry _ => length_indexEntryBytes entry
  decode := fun entry _ => decodeIndexEntry_indexEntryBytes entry

section Index

variable {version : Nat} {magic : UInt32} {encode : PendingIndexEntry → Bytes}
  {entries : List PendingIndexEntry}

theorem EncodesIndex.tail {entry : PendingIndexEntry}
    (h : EncodesIndex version magic encode (entry :: entries)) :
    EncodesIndex version magic encode entries where
  magicNumber := h.magicNumber
  length := fun later hin => h.length later (mem_cons_of_mem _ hin)
  decode := fun later hin => h.decode later (mem_cons_of_mem _ hin)

theorem EncodesIndex.length_flatMap (h : EncodesIndex version magic encode entries) :
    (entries.flatMap encode).length = entries.length * indexEntrySize version := by
  induction entries with
  | nil => simp
  | cons entry entries ih =>
    rw [flatMap_cons, length_append, ih h.tail, h.length entry (mem_cons_self ..),
      length_cons, Nat.add_one_mul, Nat.add_comm]

variable {previousKey : Option (Int ×ₗ Int)} {archiveBytes pre : Bytes} {size : Nat}

section

variable (hencode : EncodesIndex version magic encode entries)
include hencode

/-- Sorted entries with valid extents are read back in their order. -/
theorem parseIndexEntries_flatMap
    (hsorted : Search.StrictlySorted SegmentIndexEntry.key (entries.map indexed))
    (hprevious : ∀ previous ∈ previousKey, ∀ entry ∈ entries, previous < entry.indexed.key)
    (hextents : ∀ entry ∈ entries, entry.indexed.ValidExtent) :
    parseIndexEntries version entries.length previousKey (entries.flatMap encode) =
      .ok (entries.map indexed) := by
  induction entries generalizing previousKey with
  | nil => rfl
  | cons entry entries ih =>
    rw [map_cons] at hsorted
    obtain ⟨hhead, htail⟩ := List.pairwise_cons.mp hsorted
    have hsize := hencode.length entry (mem_cons_self ..)
    rw [length_cons, map_cons, parseIndexEntries_succ]
    refine ⟨entry.indexed, entries.map indexed, rfl, ?_, ?_, ?_, ?_⟩
    · rw [flatMap_cons, ← hsize, take_left]
      exact (hencode.decode entry (mem_cons_self ..)).symm
    · intro previous hin
      exact hprevious previous hin entry (mem_cons_self ..)
    · exact hextents entry (mem_cons_self ..)
    · rw [flatMap_cons, ← hsize, drop_left]
      refine ih hencode.tail htail ?_ fun later hlater => hextents later (mem_cons_of_mem _ hlater)
      intro previous hin later hlater
      cases hin
      exact hhead later.indexed (List.mem_map_of_mem hlater)

theorem readIndexFooter_eq {anchor : Nat} {count : Nat} {checksum : UInt32}
    (hfooter : readFooter archiveBytes anchor = ⟨checksum, count, size, magic⟩)
    (hcount : 1 ≤ count) (hsize : count * 28 + 16 ≤ size) (haligned : size % 512 = 0) :
    readIndexFooter archiveBytes anchor =
      .ok ⟨version, indexEntrySize version, count, checksum⟩ := by
  have hmagic : indexVersion2Magic ≠ indexVersion1Magic := by decide
  rcases hencode.magicNumber with ⟨rfl, rfl⟩ | ⟨rfl, rfl⟩
  · simp only [readIndexFooter, hfooter, if_true, Int.toNat_natCast]
    rw [if_neg (by omega), if_neg (by omega), if_neg (by omega)]
  · simp only [readIndexFooter, hfooter, if_neg hmagic, if_true, Int.toNat_natCast]
    rw [if_neg (by omega), if_neg (by omega), if_neg (by omega)]

section

variable (h : archiveBytes = pre ++ entries.flatMap encode ++ footerBytes (entries.flatMap encode)
    entries.length size magic ++ List.replicate (2 * tarBlockSize) 0)
include h

section

variable (hshape : validateArchiveShape archiveBytes.length = .ok ())
  (hcount : 1 ≤ entries.length) (hsize : entries.length * indexEntrySize version + 16 ≤ size)
  (haligned : size % 512 = 0) (hfits : size ≤ archiveBytes.length)
include hshape hcount hsize haligned hfits

/-- The parser finds the table of an index at the end of a file of valid shape. -/
theorem locateIndex_of_append :
    ∃ checksum,
      readIndexFooter archiveBytes (archiveBytes.length - terminatingZeroBlocks) =
        .ok ⟨version, indexEntrySize version, entries.length, checksum⟩ ∧
      locateIndexEntries archiveBytes (archiveBytes.length - terminatingZeroBlocks)
        ⟨version, indexEntrySize version, entries.length, checksum⟩ =
          .ok (entries.flatMap encode) := by
  obtain ⟨data, hdata⟩ : ∃ data, data = entries.flatMap encode := ⟨_, rfl⟩
  rw [← hdata] at h
  have hdatalen : data.length = entries.length * indexEntrySize version := by
    rw [hdata, hencode.length_flatMap]
  have hentry : 28 ≤ indexEntrySize version := by
    unfold indexEntrySize
    split <;> omega
  have hrows : entries.length * 28 ≤ entries.length * indexEntrySize version :=
    Nat.mul_le_mul_left _ hentry
  have hlimit : archiveBytes.length < 2 ^ 31 := by
    unfold validateArchiveShape at hshape
    split at hshape
    · cases hshape
    split at hshape
    · cases hshape
    split at hshape
    · cases hshape
    · omega
  have htotal : archiveBytes.length = pre.length + data.length + 16 + 1024 := by
    rw [h]
    simp only [length_append, length_footerBytes, List.length_replicate, tarBlockSize]
  obtain ⟨anchor, hanchor⟩ : ∃ anchor, anchor = archiveBytes.length - terminatingZeroBlocks :=
    ⟨_, rfl⟩
  have hend : anchor = (pre ++ data).length + 16 := by
    rw [hanchor, htotal, terminatingZeroBlocks, length_append]
    omega
  have hfooter := readFooter_of_append h hend (by omega) (by omega)
  have hread := readIndexFooter_eq hencode hfooter hcount (by omega) haligned
  have hslice : archiveBytes.slice (anchor - footerSize - entries.length * indexEntrySize version)
      (entries.length * indexEntrySize version) = data := by
    have hparts : archiveBytes = pre ++ data ++ (footerBytes data entries.length size magic ++
        List.replicate (2 * tarBlockSize) 0) := by
      rw [h]
      simp only [append_assoc]
    rw [← hdatalen]
    refine Bytes.slice_of_eq_append hparts ?_ rfl
    rw [hend, length_append, footerSize]
    omega
  have hlocate : locateIndexEntries archiveBytes anchor
      ⟨version, indexEntrySize version, entries.length, crc32 data⟩ = .ok data := by
    have hroom : ¬ anchor - footerSize < entries.length * indexEntrySize version := by
      rw [hend, length_append, footerSize, ← hdatalen]
      omega
    simp only [locateIndexEntries, if_neg hroom, hslice]
    simp
  rw [← hanchor, ← hdata]
  exact ⟨crc32 data, hread, hlocate⟩

/-- The index at the end of a file of valid shape is parsed back. -/
theorem parseSegmentIndex_of_append
    (hsorted : Search.StrictlySorted SegmentIndexEntry.key (entries.map indexed))
    (hextents : ∀ entry ∈ entries, entry.indexed.ValidExtent) :
    ∃ index, parseSegmentIndex archiveBytes = .ok index ∧ index.version = version ∧
      index.entries = entries.map indexed := by
  obtain ⟨checksum, hread, hlocate⟩ :=
    locateIndex_of_append hencode h hshape hcount hsize haligned hfits
  have hparse : parseIndexEntries version entries.length none (entries.flatMap encode) =
      .ok (entries.map indexed) :=
    parseIndexEntries_flatMap hencode hsorted (by simp) hextents
  refine ⟨⟨version, entries.map indexed, hsorted, ?_⟩, ?_, rfl, rfl⟩
  · intro entry hentry
    obtain ⟨pending, hpending, rfl⟩ := List.mem_map.mp hentry
    exact hextents pending hpending
  · rw [parseSegmentIndex_ok]
    exact ⟨hshape, _, _, hread, hlocate, hparse, rfl⟩

end

end

/-- What the loop accepts of encoded rows are the rows. -/
theorem parseIndexEntries_flatMap_ok {parsed : List SegmentIndexEntry}
    (h : parseIndexEntries version entries.length previousKey (entries.flatMap encode) =
      .ok parsed) : parsed = entries.map indexed := by
  induction entries generalizing previousKey parsed with
  | nil => exact parseIndexEntries_zero.mp h
  | cons entry entries ih =>
    have hsize := hencode.length entry (mem_cons_self ..)
    obtain ⟨first, rest, rfl, rfl, -, -, hrest⟩ := parseIndexEntries_succ.mp h
    rw [flatMap_cons, ← hsize, drop_left] at hrest
    rw [flatMap_cons, ← hsize, take_left, map_cons,
      hencode.decode entry (mem_cons_self ..), ih hencode.tail hrest]

/-- An index that is parsed at the end of a file holds the rows written there. -/
theorem entries_of_parseSegmentIndex {index : SegmentIndex}
    (h : archiveBytes = pre ++ entries.flatMap encode ++
      footerBytes (entries.flatMap encode) entries.length size magic ++
      List.replicate (2 * tarBlockSize) 0)
    (hcount : 1 ≤ entries.length) (hsize : entries.length * indexEntrySize version + 16 ≤ size)
    (haligned : size % 512 = 0) (hfits : size ≤ archiveBytes.length)
    (hparse : parseSegmentIndex archiveBytes = .ok index) :
    index.entries = entries.map indexed := by
  obtain ⟨hshape, footer, entriesBytes, hread, hlocate, hentries, -⟩ := parseSegmentIndex_ok.mp hparse
  obtain ⟨checksum, hread', hlocate'⟩ :=
    locateIndex_of_append hencode h hshape hcount hsize haligned hfits
  obtain rfl := Except.ok.inj (hread.symm.trans hread')
  obtain rfl := Except.ok.inj (hlocate.symm.trans hlocate')
  exact parseIndexEntries_flatMap_ok hencode hentries

end

end Index

end Froe
