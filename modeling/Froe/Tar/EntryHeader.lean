import Froe.Segment.Identifier
import Mathlib.Data.List.TakeWhile

/-!
# Checksums and tar entry headers

The CRC32 the trailers and the entry names carry, and the 512-byte v7-style
header in front of every entry.  The writer (`entryHeader`) and the tolerant
recovery reader (`TarEntryHeader.parse`) are written independently, and so are
the two computations of the header checksum.  `parse_entryHeader` and
`tarHeaderChecksumIsValid_entryHeader` say that they agree on what is written.
-/

namespace Froe

open Digits (digitByte fixed length_fixed padded)

/-! ## CRC32 -/

/-- One bit of the reflected polynomial `0xEDB88320`. -/
def crc32Bit (value : UInt32) : UInt32 :=
  if value &&& 1 = 1 then (value >>> 1) ^^^ 0xEDB88320 else value >>> 1

/-- The lookup tables: table zero folds one byte, each later table one more zero byte. -/
def crc32Table : Nat → UInt32 → UInt32
  | 0, index => crc32Bit^[8] index
  | lane + 1, index =>
    let previous := crc32Table lane index
    (previous >>> 8) ^^^ crc32Table 0 (previous &&& 0xFF)

/-- Folds one byte in. -/
def crc32FoldByte (checksum : UInt32) (byte : UInt8) : UInt32 :=
  (checksum >>> 8) ^^^ crc32Table 0 ((checksum ^^^ byte.toUInt32) &&& 0xFF)

/-- Folds sixteen bytes in. -/
def crc32FoldBlock (checksum : UInt32) (block : Bytes) : UInt32 :=
  let byte (i : Nat) : UInt32 := (block.getD i 0).toUInt32
  let c := checksum ^^^ (byte 0 ||| byte 1 <<< 8 ||| byte 2 <<< 16 ||| byte 3 <<< 24)
  let head := crc32Table 15 (c &&& 0xFF) ^^^ crc32Table 14 ((c >>> 8) &&& 0xFF) ^^^
    crc32Table 13 ((c >>> 16) &&& 0xFF) ^^^ crc32Table 12 (c >>> 24)
  (List.range 12).foldl (fun sum i => sum ^^^ crc32Table (11 - i) (byte (4 + i))) head

def crc32FoldBlocks : Nat → UInt32 → Bytes → UInt32
  | 0, checksum, _ => checksum
  | count + 1, checksum, bytes =>
    crc32FoldBlocks count (crc32FoldBlock checksum (bytes.take 16)) (bytes.drop 16)

/-- Folds bytes into a running state, sixteen at a time, then the remainder. -/
def crc32Fold (checksum : UInt32) (bytes : Bytes) : UInt32 :=
  (bytes.drop (bytes.length / 16 * 16)).foldl crc32FoldByte
    (crc32FoldBlocks (bytes.length / 16) checksum bytes)

/-- The IEEE CRC32 checksum. -/
def crc32 (bytes : Bytes) : UInt32 := ~~~crc32Fold 0xFFFFFFFF bytes

/-! ## Writing an entry header -/

def tarBlockSize : Nat := 512

/-- The zero padding after `size` payload bytes. -/
def paddingSize (size : Nat) : Nat :=
  if size % tarBlockSize = 0 then 0 else tarBlockSize - size % tarBlockSize

/-- Eight spaces, which stand in the checksum field while the checksum is taken. -/
def checksumSpaces : Bytes := List.replicate 8 32

/-- The sum of the bytes. -/
def byteSum (block : Bytes) : Nat := (block.map UInt8.toNat).sum

/-- A block of zeros. -/
def blankBlock : Bytes := List.replicate tarBlockSize 0

/-- The header with the checksum field still blank.  `seconds` is the clock. -/
def entryHeaderFields (seconds : UInt64) (name : Bytes) (size : UInt64) : Bytes :=
  blankBlock.write
    [(0, name.take 100), (100, "0000400".utf8), (108, "0000000".utf8), (116, "0000000".utf8),
      (124, Digits.padded 8 11 size.toNat), (136, Digits.padded 8 11 seconds.toNat),
      (148, checksumSpaces), (156, "0".utf8)]

/-- The checksum field: six octal digits, a zero byte and a space. -/
def checksumField (header : Bytes) : Bytes := Digits.padded 8 6 (byteSum header) ++ [0, 32]

/-- The 512-byte v7-style entry header: name, mode, zero owner and group, octal size
and modification time, checksum, and the type flag of a file. -/
def entryHeader (seconds : UInt64) (name : Bytes) (size : UInt64) : Bytes :=
  let header := entryHeaderFields seconds name size
  header.splice 148 (checksumField header)

/-! ## Reading an entry header -/

/-- The two fields of an entry header that the segment store uses. -/
structure TarEntryHeader where
  /-- The entry name. -/
  name : String
  /-- The size of the content, accumulated in a wrapping 32-bit integer. -/
  size : Int
deriving DecidableEq, Repr

/-- Accumulates octal digits up to the first byte that is none. -/
def octalSize : Int32 → Bytes → Int32
  | size, [] => size
  | size, byte :: rest =>
    if 48 ≤ byte ∧ byte ≤ 55 then octalSize (size * 8 + Int32.ofNat (byte.toNat - 48)) rest
    else size

/-- Parses one header block.  A short block or one of zero bytes yields `none`. -/
def TarEntryHeader.parse (block : Bytes) : Option TarEntryHeader :=
  if block.length < tarBlockSize then none
  else
    let block : Bytes := block.take tarBlockSize
    if block.all (· == 0) then none
    else
      some {
        name := Utf8.decodeLossy ((block.slice 0 100).takeWhile (· != 0))
        size := (octalSize 0 (block.slice 124 12)).toInt }

/-- Strips zero bytes and spaces from both ends. -/
def trimChecksum (field : Bytes) : Bytes :=
  let strip (b : Bytes) := b.dropWhile fun c => c == 0 || c == 32
  (strip (strip field).reverse).reverse

/-- Whether the stored header checksum is the sum of the block with its checksum field
read as spaces.  A field that is not UTF-8 holds a byte that is no octal digit. -/
def tarHeaderChecksumIsValid (block : Bytes) : Bool :=
  if block.length < tarBlockSize then false
  else
    let block : Bytes := block.take tarBlockSize
    let digits := trimChecksum (block.slice 148 8)
    if digits.isEmpty then false
    else
      match Digits.parse 8 digits with
      | none => false
      | some stored => stored == byteSum (block.splice 148 checksumSpaces)

/-- Whether position `i` is a character boundary of UTF-8 text. -/
def isCharBoundary (text : Bytes) (i : Nat) : Bool :=
  i == 0 || i == text.length || (text[i]?.map fun c => !Utf8.isContinuation c).getD false

/-- The name of a segment entry: the UUID, then optionally a dot and the checksum as
exactly eight lower-case hexadecimal digits, then optionally a further dotted suffix. -/
def parseSegmentEntryName (name : String) : Option (SegmentIdentifier × Option UInt32) :=
  let text := name.utf8
  if text.length < 36 || !isCharBoundary text 36 then none
  else
    (SegmentIdentifier.fromStr (text.take 36)).bind fun identifier =>
      match text.drop 36 with
      | [] => some (identifier, none)
      | c :: suffix =>
        if c ≠ 46 then none
        else
          let remainder := suffix.drop 8
          match Digits.parse 16 (suffix.take 8) with
          | some checksum =>
            if 8 ≤ suffix.length ∧ (remainder = [] ∨ remainder.head? = some 46) then
              some (identifier, some (UInt32.ofNat checksum))
            else some (identifier, none)
          | none => some (identifier, none)

/-- The entry name of a segment. -/
def segmentEntryName (identifier : SegmentIdentifier) (checksum : UInt32) : Bytes :=
  identifier.displayBytes ++ [46] ++ Digits.fixed 16 8 checksum.toNat

/-! ## Padding -/

theorem add_paddingSize (size : Nat) : size + paddingSize size = (size + 511) / 512 * 512 := by
  unfold paddingSize tarBlockSize
  split <;> omega

/-! ## The fields of a written header -/

theorem length_padded_le {w n k : Nat} (hw : w ≤ k) (hk : 0 < k) (h : n < 8 ^ k) :
    (padded 8 w n).length ≤ k := by
  have hlog : Nat.log 8 n < k := Nat.log_lt_of_lt_pow' (by omega) h
  rw [padded, length_fixed]
  exact max_le hw hlog

theorem length_utf8_0000400 : "0000400".utf8.length = 7 := by decide

theorem length_utf8_0000000 : "0000000".utf8.length = 7 := by decide

theorem length_utf8_0 : "0".utf8.length = 1 := by decide

theorem length_blankBlock : blankBlock.length = 512 := List.length_replicate

section Fields

variable (seconds : UInt64) (name : Bytes) (size : UInt64)

theorem length_padded_word (word : UInt64) : (padded 8 11 word.toNat).length ≤ 22 := by
  have := word.toNat_lt
  exact length_padded_le (by omega) (by omega) (by omega)

theorem entryHeaderFields_within :
    Bytes.Within [(0, name.take 100), (100, "0000400".utf8), (108, "0000000".utf8),
      (116, "0000000".utf8), (124, padded 8 11 size.toNat),
      (136, padded 8 11 seconds.toNat), (148, checksumSpaces), (156, "0".utf8)] 512 := by
  have hs := length_padded_word size
  have ht := length_padded_word seconds
  simp only [Bytes.Within, List.forall_mem_cons, List.not_mem_nil, false_implies, implies_true,
    and_true, length_utf8_0000400, length_utf8_0000000, length_utf8_0, checksumSpaces,
    List.length_replicate, List.length_take]
  omega

theorem length_entryHeaderFields :
    (entryHeaderFields seconds name size).length = 512 := by
  have hw := entryHeaderFields_within seconds name size
  rw [← length_blankBlock] at hw
  rw [entryHeaderFields, Bytes.length_write hw, length_blankBlock]

theorem entryHeaderFields_name (hname : name.length ≤ 100) :
    (entryHeaderFields seconds name size).slice 0 100 =
      name ++ List.replicate (100 - name.length) 0 := by
  have hw := entryHeaderFields_within seconds name size
  have hfirst : (blankBlock.splice 0 (name.take 100)).length = 512 := by
    rw [Bytes.length_splice, length_blankBlock]
    rw [length_blankBlock, List.length_take]
    omega
  have hclear : Bytes.Clear [(100, "0000400".utf8), (108, "0000000".utf8),
      (116, "0000000".utf8), (124, padded 8 11 size.toNat),
      (136, padded 8 11 seconds.toNat), (148, checksumSpaces), (156, "0".utf8)] 0 100 := by
    simp only [Bytes.Clear, List.forall_mem_cons]
    simp
  have hrest : Bytes.Within [(100, "0000400".utf8), (108, "0000000".utf8),
      (116, "0000000".utf8), (124, padded 8 11 size.toNat),
      (136, padded 8 11 seconds.toNat), (148, checksumSpaces), (156, "0".utf8)]
      (blankBlock.splice 0 (name.take 100)).length := by
    intro f hf
    rw [hfirst]
    exact hw f (List.mem_cons_of_mem _ hf)
  have hstep := Bytes.slice_write_clear hrest hclear
  rw [entryHeaderFields, show ∀ f fs, blankBlock.write (f :: fs) =
    (blankBlock.splice f.1 f.2).write fs from fun _ _ => rfl, hstep, List.take_of_length_le hname]
  have hblank : blankBlock.drop (0 + name.length) =
      List.replicate (100 - name.length) 0 ++ List.replicate 412 0 := by
    have hn : tarBlockSize - (0 + name.length) = (100 - name.length) + 412 := by
      rw [tarBlockSize]
      omega
    rw [blankBlock, List.drop_replicate, hn, List.replicate_add]
  rw [Bytes.splice, hblank, List.take_zero, List.nil_append, ← List.append_assoc, Bytes.slice,
    List.drop_zero, List.take_append_of_le_length (by simp; omega), List.take_of_length_le
      (by simp; omega)]

theorem entryHeaderFields_size (hsize : size.toNat < 2 ^ 33) :
    (entryHeaderFields seconds name size).slice 124 12 = fixed 8 11 size.toNat ++ [0] := by
  have hw := entryHeaderFields_within seconds name size
  rw [← length_blankBlock] at hw
  have hpad : padded 8 11 size.toNat = fixed 8 11 size.toNat :=
    Digits.padded_of_lt (by omega) (by omega)
  have hdigits : (entryHeaderFields seconds name size).slice 124 11 = fixed 8 11 size.toNat := by
    rw [hpad] at hw
    rw [entryHeaderFields, hpad]
    refine Bytes.slice_write_at (f := [(0, name.take 100), (100, "0000400".utf8),
      (108, "0000000".utf8), (116, "0000000".utf8)]) hw (length_fixed ..).symm ?_
    simp only [Bytes.Clear, List.forall_mem_cons]
    simp
  have hnul : (entryHeaderFields seconds name size).slice 135 1 = [0] := by
    rw [entryHeaderFields, Bytes.slice_write_clear hw]
    · rw [blankBlock, Bytes.slice, List.drop_replicate, List.take_replicate]
      rfl
    · simp only [Bytes.Clear, List.forall_mem_cons, hpad, length_fixed,
        length_utf8_0000400, length_utf8_0000000]
      simp
  have hsplit := List.take_add (l := (entryHeaderFields seconds name size).drop 124) (i := 11) (j := 1)
  rw [List.drop_drop] at hsplit
  simp only [Bytes.slice] at hdigits hnul ⊢
  rw [hsplit, hdigits, hnul]

theorem entryHeaderFields_checksum :
    (entryHeaderFields seconds name size).slice 148 8 = checksumSpaces := by
  have hw := entryHeaderFields_within seconds name size
  rw [← length_blankBlock] at hw
  rw [entryHeaderFields]
  refine Bytes.slice_write_at (f := [(0, name.take 100), (100, "0000400".utf8),
      (108, "0000000".utf8), (116, "0000000".utf8), (124, padded 8 11 size.toNat),
      (136, padded 8 11 seconds.toNat)]) hw rfl ?_
  simp [Bytes.Clear]

end Fields

theorem byteSum_le (block : Bytes) : byteSum block ≤ block.length * 255 := by
  induction block with
  | nil => simp [byteSum]
  | cons x block ih =>
    have hx : x.toNat < 256 := x.toNat_lt
    simp only [byteSum, List.map_cons, List.sum_cons, List.length_cons] at ih ⊢
    omega

theorem checksumField_eq {header : Bytes} (h : header.length = 512) :
    checksumField header = fixed 8 6 (byteSum header) ++ [0, 32] := by
  have hs := byteSum_le header
  rw [checksumField, Digits.padded_of_lt (by omega) (by omega)]

theorem length_checksumField {header : Bytes} (h : header.length = 512) :
    (checksumField header).length = 8 := by
  simp [checksumField_eq h]

variable (seconds : UInt64) (identifier : SegmentIdentifier) (name : Bytes) (checksum : UInt32)
  (size : UInt64)

@[simp] theorem length_entryHeader :
    (entryHeader seconds name size).length = 512 := by
  have hl := length_entryHeaderFields seconds name size
  rw [entryHeader, Bytes.length_splice (by rw [length_checksumField hl]; omega), hl]

/-! ## Reading a written header back -/

theorem toNat_octalDigit {d : Nat} (h : d < 8) : (digitByte d).toNat = 48 + d := by
  rw [Digits.toNat_digitByte (by omega), if_pos (by omega)]

theorem octalSize_fixed (w n m : Nat) (rest : Bytes) :
    octalSize (Int32.ofNat m) (fixed 8 w n ++ 0 :: rest) =
      Int32.ofNat (m * 8 ^ w + n % 8 ^ w) := by
  induction w generalizing m with
  | zero => simp [fixed, octalSize, Nat.mod_one]
  | succ w ih =>
    have hd : n / 8 ^ w % 8 < 8 := Nat.mod_lt _ (by omega)
    have hbyte := toNat_octalDigit hd
    have hoct : (48 : UInt8) ≤ digitByte (n / 8 ^ w % 8) ∧
        digitByte (n / 8 ^ w % 8) ≤ (55 : UInt8) := by
      rw [UInt8.le_iff_toNat_le, UInt8.le_iff_toNat_le, hbyte]
      exact ⟨Nat.le_add_right _ _, show 48 + _ ≤ 55 by omega⟩
    have hacc : Int32.ofNat m * 8 + Int32.ofNat (48 + n / 8 ^ w % 8 - 48) =
        Int32.ofNat (m * 8 + n / 8 ^ w % 8) := by
      rw [Nat.add_sub_cancel_left, Int32.ofNat_add, Int32.ofNat_mul]
      rfl
    rw [fixed, List.cons_append, octalSize, if_pos hoct, hbyte, hacc, ih]
    congr 1
    rw [pow_succ, Nat.mod_mul]
    ring

/-- The fields of the finished header before the checksum are those of the blank one. -/
theorem entryHeader_slice {size : UInt64} {s n : Nat} (h : s + n ≤ 148) :
    (entryHeader seconds name size).slice s n =
      (entryHeaderFields seconds name size).slice s n := by
  have hl := length_entryHeaderFields seconds name size
  exact Bytes.slice_splice_before h (by omega)

theorem takeWhile_ne_zero {name : Bytes} (hz : (0 : UInt8) ∉ name) :
    name.takeWhile (· != 0) = name := by
  rw [List.takeWhile_eq_self_iff]
  intro x hx
  rw [bne_iff_ne]
  rintro rfl
  exact hz hx

theorem takeWhile_append_zeros (n : Nat) :
    (name ++ List.replicate n 0).takeWhile (· != 0) = name.takeWhile (· != 0) := by
  induction name with
  | nil => cases n <;> simp [List.replicate_succ]
  | cons x name ih => simp only [List.cons_append, List.takeWhile_cons, ih]

/-- The name that the reader takes from a header written for an entry name. -/
def headerName (name : Bytes) : String := Utf8.decodeLossy ((name.take 100).takeWhile (· != 0))

theorem entryHeader_take :
    entryHeader seconds (name.take 100) size = entryHeader seconds name size := by
  have hfields : entryHeaderFields seconds (name.take 100) size =
      entryHeaderFields seconds name size := by
    rw [entryHeaderFields, entryHeaderFields, List.take_take, Nat.min_self]
  rw [entryHeader, entryHeader, hfields]

/-- A written header reads back the size, and the name as far as the header keeps it. -/
theorem parse_entryHeader_name {size : UInt64} (hsize : size.toNat < 2 ^ 31) :
    TarEntryHeader.parse (entryHeader seconds name size) = some ⟨headerName name, size.toNat⟩ := by
  have hsize' : size.toNat < 2 ^ 33 := by omega
  have hl := length_entryHeader seconds name size
  have hfull : (entryHeader seconds name size).take tarBlockSize =
      entryHeader seconds name size := List.take_of_length_le (by rw [hl]; exact le_rfl)
  have hsz : (entryHeader seconds name size).slice 124 12 = fixed 8 11 size.toNat ++ [0] := by
    rw [entryHeader_slice _ _ (by omega), entryHeaderFields_size _ _ _ hsize']
  have hnm : (entryHeader seconds name size).slice 0 100 =
      name.take 100 ++ List.replicate (100 - (name.take 100).length) 0 := by
    rw [← entryHeader_take, entryHeader_slice _ _ (by omega),
      entryHeaderFields_name _ _ _ (List.length_take_le ..)]
  have hwhile : ((entryHeader seconds name size).slice 0 100).takeWhile (· != 0) =
      (name.take 100).takeWhile (· != 0) := by
    rw [hnm, takeWhile_append_zeros]
  -- the size field holds digits, so the block is not a terminator
  have hnz : (entryHeader seconds name size).all (· == 0) = false := by
    rw [List.all_eq_false]
    have hd : size.toNat / 8 ^ 10 % 8 < 8 := Nat.mod_lt _ (by omega)
    refine ⟨digitByte (size.toNat / 8 ^ 10 % 8), ?_, ?_⟩
    · have hmem : digitByte (size.toNat / 8 ^ 10 % 8) ∈
          (entryHeader seconds name size).slice 124 12 := by
        rw [hsz, fixed]
        exact List.mem_append_left _ (List.mem_cons_self ..)
      exact List.mem_of_mem_drop (List.mem_of_mem_take hmem)
    · intro hzero
      have := congrArg UInt8.toNat (beq_iff_eq.mp hzero)
      rw [toNat_octalDigit hd, UInt8.toNat_zero] at this
      omega
  have hoct : (octalSize 0 (fixed 8 11 size.toNat ++ [0])).toInt = size.toNat := by
    have h0 := octalSize_fixed 11 size.toNat 0 []
    rw [show Int32.ofNat 0 = 0 from rfl, Nat.zero_mul, Nat.zero_add, Nat.mod_eq_of_lt (by omega)]
      at h0
    rw [h0]
    exact Int32.toInt_ofNat_of_lt (by omega)
  rw [TarEntryHeader.parse, if_neg (by rw [hl]; exact Nat.lt_irrefl _)]
  simp only [hfull, hnz, Bool.false_eq_true, if_false, hsz, hwhile, hoct, headerName]

section

variable {text : String} (hname : text.utf8.length ≤ 100) (hz : (0 : UInt8) ∉ text.utf8)
include hname hz

theorem headerName_utf8 : headerName text.utf8 = text := by
  rw [headerName, List.take_of_length_le hname, takeWhile_ne_zero hz, Utf8.decodeLossy_utf8]

/-- A written header reads back its name and size. -/
theorem parse_entryHeader {size : UInt64} (hsize : size.toNat < 2 ^ 31) :
    TarEntryHeader.parse (entryHeader seconds text.utf8 size) = some ⟨text, size.toNat⟩ := by
  rw [parse_entryHeader_name seconds text.utf8 hsize, headerName_utf8 hname hz]

end

theorem trimChecksum_field {w n : Nat} (hw : 0 < w) :
    trimChecksum (fixed 8 w n ++ [0, 32]) = fixed 8 w n := by
  have hdigit : ∀ c ∈ fixed 8 w n, (c == 0 || c == 32) = false := by
    intro c hc
    obtain ⟨d, hd, rfl⟩ := Digits.fixed_mem (by omega) hc
    have hbyte := toNat_octalDigit hd
    rw [Bool.or_eq_false_iff, beq_eq_false_iff_ne, beq_eq_false_iff_ne]
    refine ⟨?_, ?_⟩ <;>
      · intro h
        have := congrArg UInt8.toNat h
        rw [hbyte] at this
        simp at this
        try omega
  have hlen : (fixed 8 w n).length = w := length_fixed ..
  cases hl : fixed 8 w n with
  | nil =>
    rw [hl] at hlen
    simp at hlen
    omega
  | cons c rest =>
    have hc := hdigit c (by rw [hl]; exact List.mem_cons_self ..)
    have hrev : ((c :: rest).reverse).dropWhile (fun c => c == 0 || c == 32) =
        (c :: rest).reverse := by
      cases hr : (c :: rest).reverse with
      | nil => rfl
      | cons x xs =>
        have hx : x ∈ (c :: rest) := by
          rw [← List.mem_reverse, hr]
          exact List.mem_cons_self ..
        rw [List.dropWhile_cons_of_neg]
        rw [hdigit x (by rw [hl]; exact hx)]
        decide
    have hfront : (c :: rest ++ [0, 32]).dropWhile (fun c => c == 0 || c == 32) =
        c :: rest ++ [0, 32] := by
      rw [List.cons_append, List.dropWhile_cons_of_neg]
      rw [hc]
      decide
    have hback : (c :: rest ++ [0, 32]).reverse.dropWhile (fun c => c == 0 || c == 32) =
        (c :: rest).reverse := by
      rw [List.reverse_append]
      change (32 :: 0 :: (c :: rest).reverse).dropWhile _ = _
      rw [List.dropWhile_cons_of_pos (by decide), List.dropWhile_cons_of_pos (by decide), hrev]
    simp only [trimChecksum, hfront, hback, List.reverse_reverse]

/-- A written header carries the checksum the reader computes. -/
theorem tarHeaderChecksumIsValid_entryHeader : tarHeaderChecksumIsValid (entryHeader seconds name size) = true := by
  have hl := length_entryHeader seconds name size
  have hlf := length_entryHeaderFields seconds name size
  have hsum := byteSum_le (entryHeaderFields seconds name size)
  have hfull : (entryHeader seconds name size).take tarBlockSize = entryHeader seconds name size :=
    List.take_of_length_le (by rw [hl]; exact le_rfl)
  have hfield : (entryHeader seconds name size).slice 148 8 =
      fixed 8 6 (byteSum (entryHeaderFields seconds name size)) ++ [0, 32] := by
    rw [entryHeader, Bytes.slice_splice_self (length_checksumField hlf).symm (by omega),
      checksumField_eq hlf]
  have hblank : (entryHeader seconds name size).splice 148 checksumSpaces =
      entryHeaderFields seconds name size := by
    rw [entryHeader, Bytes.splice_splice (by rw [length_checksumField hlf]; rfl)
      (by rw [length_checksumField hlf]; omega), ← entryHeaderFields_checksum seconds name size,
      Bytes.splice_slice (by omega)]
  have hnonempty : (fixed 8 6 (byteSum (entryHeaderFields seconds name size))).isEmpty =
      false := rfl
  rw [tarHeaderChecksumIsValid, if_neg (by rw [hl]; exact Nat.lt_irrefl _)]
  simp only [hfull, hfield, hblank, trimChecksum_field (w := 6) (by omega), hnonempty,
    Bool.false_eq_true, if_false]
  rw [Digits.parse_fixed_of_lt (by omega) (by omega)]
  exact beq_self_eq_true _

/-! ## Entry names of segments -/

theorem segmentEntryName_chars {identifier : SegmentIdentifier} {checksum : UInt32} {c : UInt8}
    (h : c ∈ segmentEntryName identifier checksum) : c.toNat < 128 ∧ c ≠ 0 := by
  have hfixed : ∀ {w n : Nat}, c ∈ fixed 16 w n → c.toNat < 128 ∧ c ≠ 0 := by
    intro w n hc
    obtain ⟨d, hd, rfl⟩ := Digits.fixed_mem (by omega) hc
    have hbyte := Digits.toNat_digitByte hd
    refine ⟨Digits.digitByte_lt hd, ?_⟩
    intro hzero
    have hz := congrArg UInt8.toNat hzero
    rw [hbyte, UInt8.toNat_zero] at hz
    split at hz <;> omega
  simp only [segmentEntryName, SegmentIdentifier.displayBytes, List.mem_append,
    List.mem_singleton] at h
  rcases h with (((((((((h | h) | h) | h) | h) | h) | h) | h) | h) | h) | h
  all_goals first
    | exact hfixed h
    | (subst h; decide)

theorem length_segmentEntryName :
    (segmentEntryName identifier checksum).length = 45 := by
  simp [segmentEntryName]

theorem utf8_segmentEntryName :
    (Utf8.ascii (segmentEntryName identifier checksum)).utf8 =
      segmentEntryName identifier checksum :=
  Utf8.utf8_ascii fun _ h => (segmentEntryName_chars h).1

/-- The entry name of a segment reads back its identifier and checksum. -/
theorem parseSegmentEntryName_segmentEntryName :
    parseSegmentEntryName (Utf8.ascii (segmentEntryName identifier checksum)) =
      some (identifier, some checksum) := by
  have hlen := length_segmentEntryName identifier checksum
  have htake : (segmentEntryName identifier checksum).take 36 = identifier.displayBytes := by
    rw [segmentEntryName, List.append_assoc, List.take_append_of_le_length (by simp),
      List.take_of_length_le (by simp)]
  have hdrop : (segmentEntryName identifier checksum).drop 36 =
      46 :: fixed 16 8 checksum.toNat := by
    rw [segmentEntryName, List.append_assoc, List.drop_append_of_le_length (by simp),
      List.drop_of_length_le (by simp)]
    rfl
  have hdot : (segmentEntryName identifier checksum)[36]? = some 46 := by
    rw [← List.head?_drop, hdrop]
    rfl
  have hboundary : isCharBoundary (segmentEntryName identifier checksum) 36 = true := by
    have hstart : Utf8.isContinuation 46 = false := by decide
    rw [isCharBoundary, hdot, Option.map_some, Option.getD_some, hstart]
    simp
  have hparse : Digits.parse 16 (fixed 16 8 checksum.toNat) = some checksum.toNat :=
    Digits.parse_fixed_of_lt (by omega) checksum.toNat_lt
  have hall : (fixed 16 8 checksum.toNat).take 8 = fixed 16 8 checksum.toNat :=
    List.take_of_length_le (by simp)
  have hrest : (fixed 16 8 checksum.toNat).drop 8 = [] :=
    List.drop_of_length_le (by simp)
  rw [parseSegmentEntryName, utf8_segmentEntryName]
  simp only [hlen, hboundary, htake, hdrop, SegmentIdentifier.fromStr_display, hall, hrest, hparse]
  simp

end Froe
