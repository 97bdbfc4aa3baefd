import Froe.Lib.BitPacking
import Froe.Lib.Except
import Froe.Lucene.DataOutput
import Mathlib.Data.Bool.AllAny
import Mathlib.Data.Nat.Size

/-!
# Packed integers

`codec/packed.rs` writes numbers of one width without a header, blocks of numbers
against their minimum, and blocks of a growing sequence against a line.  The readers
follow Lucene's packed integers.
-/

namespace Froe

open List (append_assoc length_map mem_map)
open Option (bind_eq_bind bind_some map_some)

open BitPacking

namespace CodecOutput

/-! ## The writers -/

/-- `PackedInts.bitsRequired`: never zero. -/
def bitsRequired (maxValue : UInt64) : Nat := max maxValue.toNat.size 1

/-- `PackedInts.maxValue`. -/
def maxValue (bitsPerValue : Nat) : UInt64 :=
  if 64 ≤ bitsPerValue then 9223372036854775807 else ~~~(~~~0 <<< UInt64.ofNat bitsPerValue)

def packedByteCount (valueCount bitsPerValue : Nat) : Nat := (valueCount * bitsPerValue + 7) / 8

def zigZagEncode (value : Int64) : Int64 := (value >>> 63) ^^^ (value <<< 1)

/-- Values of one width without a header, their highest bits first. -/
def writePacked (values : List UInt64) (bitsPerValue : Nat) : Except Error Bytes :=
  if bitsPerValue = 0 ∨ 64 < bitsPerValue then
    .error (.invalidFormat s!"{bitsPerValue} bits per value is outside 1..=64")
  else
    let buffer := List.replicate (packedByteCount values.length bitsPerValue) 0
    .ok (values.foldl (fun state value =>
      (List.range bitsPerValue).reverse.foldl (fun state offset =>
        putBit state (value.toNat.testBit offset)) state) (buffer, 0)).1

/-- The width of a block.  A difference that wraps around spans more than a signed long. -/
def blockBits (minimum maximum : Int64) : Nat :=
  let delta := maximum - minimum
  if delta < 0 then 64 else if delta = 0 then 0 else bitsRequired delta.toUInt64

/-- The minimum that a block is written against: a positive one is lowered as far as the width
allows. -/
def blockMinimum (bits : Nat) (minimum maximum : Int64) : Int64 :=
  if bits = 64 then 0
  else if 0 < minimum then max 0 (maximum - (maxValue bits).toInt64)
  else minimum

/-- The token of a block and its minimum, which the token carries when it is zero. -/
def blockHeader (bits : Nat) (minimum : Int64) : Bytes :=
  let token := UInt8.ofNat (2 * bits + if minimum = 0 then 1 else 0)
  token :: if minimum ≠ 0 then writeVlongSigned (zigZagEncode minimum - 1).toInt else []

/-- A block against its minimum. -/
def writeBlockPacked (values : List Int64) : Except Error Bytes :=
  if values.isEmpty then
    .error (.invalidFormat "a block-packed block holds at least one value")
  else do
    let minimum := values.min?.getD 0
    let maximum := values.max?.getD 0
    let bits := blockBits minimum maximum
    let minimum := blockMinimum bits minimum maximum
    let header := blockHeader bits minimum
    if 0 < bits then
      let packed ← writePacked (values.map fun value => (value - minimum).toUInt64) bits
      return header ++ packed
    else return header

/-- The single-precision arithmetic of a monotonic block: the bits of the average of a difference
over some steps, and the truncated product of an average with an index. -/
structure FloatLine where
  average : Int64 → Nat → UInt32
  expected : UInt32 → Nat → Int64

/-- The average that a monotonic block carries. -/
def blockAverage (line : FloatLine) (values : List Int64) (minimum : Int64) : UInt32 :=
  if values.length = 1 then 0
  else line.average (values.getLastD 0 - minimum) (values.length - 1)

/-- A block of a growing sequence against the line from its first value. -/
def writeMonotonicBlockPacked (line : FloatLine) (values : List Int64) : Except Error Bytes :=
  match values.head? with
  | none => .error (.invalidFormat "a monotonic block holds at least one value")
  | some minimum => do
    let average := blockAverage line values minimum
    let deltas := values.mapIdx fun index value =>
      zigZagEncode (value - minimum - line.expected average index)
    let widest := deltas.max?.getD 0
    let first ← writeVlong minimum.toInt
    let header := first ++ writeInt average.toInt32.toInt
    if widest = 0 then return header ++ writeVint 0
    else
      let bits := bitsRequired widest.toUInt64
      let packed ← writePacked (deltas.map Int64.toUInt64) bits
      return header ++ writeVint bits ++ packed

/-- The state of a stream that is packed in groups. -/
structure PackedGroups where
  group : List UInt64
  failure : Option Error
  written : Bytes

/-- The next value of a stream. -/
def PackedGroups.visit (encode : Int64 → Except Error UInt64) (bits : Nat) (state : PackedGroups)
    (value : Option Int64) : Except Error PackedGroups := do
  let encoded ← encode (value.getD 0)
  let group := state.group ++ [encoded]
  if group.length = 8 then
    match writePacked group bits with
    | .error error => return { state with group := [], failure := some error }
    | .ok packed => return { state with group := [], written := state.written ++ packed }
  else return { state with group := group }

/-- A stream in groups of eight. -/
def writePackedStream (stream : List (Option Int64)) (encode : Int64 → Except Error UInt64)
    (bits : Nat) : Except Error Bytes := do
  let state ← stream.foldlM (PackedGroups.visit encode bits) ⟨[], none, []⟩
  match state.failure with
  | some error => .error error
  | none =>
    if state.group.isEmpty then return state.written
    else
      let packed ← writePacked state.group bits
      return state.written ++ packed

end CodecOutput

/-! ## The readers -/

namespace CodecInput

def zigZagDecode (value : Int64) : Int64 := (value.toUInt64 >>> 1).toInt64 ^^^ -(value &&& 1)

/-- `BlockPackedReaderIterator.readVLong`: the ninth byte holds eight bits. -/
def readVlongSigned (bytes : Bytes) : Option (Int64 × Bytes) :=
  (Varint.readFull 8 bytes).map fun x => ((UInt64.ofNat x.1).toInt64, x.2)

/-- Values of one width without a header. -/
def readPacked (bits count : Nat) (bytes : Bytes) : Option (List UInt64 × Bytes) :=
  let size := CodecOutput.packedByteCount count bits
  if bytes.length < size then none
  else some ((readAll bits count (unpack (bytes.take size))).map UInt64.ofNat, bytes.drop size)

/-- A block of `BlockPackedWriter`. -/
def readBlockPacked (count : Nat) : Bytes → Option (List Int64 × Bytes)
  | [] => none
  | token :: bytes => do
    let bits := token.toNat / 2
    if 64 < bits then none
    else
      let (minimum, bytes) ←
        if token.toNat % 2 = 1 then some ((0 : Int64), bytes)
        else (readVlongSigned bytes).map fun x => (zigZagDecode (1 + x.1), x.2)
      if bits = 0 then some (List.replicate count minimum, bytes)
      else
        let (values, bytes) ← readPacked bits count bytes
        some (values.map fun value => value.toInt64 + minimum, bytes)

/-- A block of `MonotonicBlockPackedWriter`. -/
def readMonotonicBlockPacked (line : CodecOutput.FloatLine) (count : Nat) (bytes : Bytes) :
    Option (List Int64 × Bytes) := do
  let (minimum, bytes) ← readVlong bytes
  let (average, bytes) ← readInt bytes
  let (bits, bytes) ← readVint bytes
  let point (index : Nat) : Int64 :=
    Int64.ofInt minimum + line.expected (Int32.ofInt average).toUInt32 index
  if bits < 0 ∨ 64 < bits then none
  else if bits = 0 then some ((List.range count).map point, bytes)
  else
    let (values, bytes) ← readPacked bits.toNat count bytes
    some (values.mapIdx fun index value => point index + zigZagDecode value.toInt64, bytes)

end CodecInput

open CodecOutput CodecInput

/-- What a writer writes is read back, whatever follows it. -/
def Lossless {α : Type} (written : Except Error Bytes) (read : Bytes → Option (α × Bytes))
    (value : α) : Prop :=
  ∃ bytes, written = .ok bytes ∧ ∀ rest, read (bytes ++ rest) = some (value, rest)

def Refused (written : Except Error Bytes) : Prop := ∃ error, written = .error error

/-! ## Zigzag -/

theorem sshiftRight_sign (v : BitVec 64) :
    v.sshiftRight 63 = if v.msb then BitVec.allOnes 64 else 0#64 := by
  apply BitVec.eq_of_getLsbD_eq
  intro i hi
  rw [BitVec.getLsbD_sshiftRight]
  rcases Nat.eq_zero_or_pos i with rfl | hpos
  · cases hmsb : v.msb <;> simpa [BitVec.msb_eq_getLsbD_last] using hmsb
  · rw [if_neg (by omega)]
    cases hmsb : v.msb with
    | false => simp
    | true =>
      rw [if_pos rfl, BitVec.getLsbD_allOnes, Bool.and_true, decide_eq_true hi,
        decide_eq_false (Nat.not_le.mpr hi), Bool.not_false]

theorem and_one_cases (v : BitVec 64) :
    v.toNat % 2 = 0 ∧ v &&& 1#64 = 0#64 ∨ v.toNat % 2 = 1 ∧ v &&& 1#64 = 1#64 := by
  have hand : (v &&& 1#64).toNat = v.toNat % 2 := by
    rw [BitVec.toNat_and]
    exact Nat.and_one_is_mod _
  rcases Nat.mod_two_eq_zero_or_one v.toNat with h | h
  · exact .inl ⟨h, BitVec.eq_of_toNat_eq (hand.trans h)⟩
  · exact .inr ⟨h, BitVec.eq_of_toNat_eq (hand.trans h)⟩

theorem toNat_toUInt64 (value : Int64) : (value.toUInt64.toNat : Int) = value.toInt % 2 ^ 64 := by
  have hcond : value.toInt = _ := BitVec.toInt_eq_toNat_cond value.toBitVec
  have hnat : value.toUInt64.toNat = value.toBitVec.toNat := rfl
  have hlt := value.toBitVec.isLt
  rw [hcond, hnat]
  split <;> omega

theorem toNat_zigZagEncode (value : Int64) :
    ((zigZagEncode value).toUInt64.toNat : Int) =
      if 0 ≤ value.toInt then 2 * value.toInt else -2 * value.toInt - 1 := by
  have hcond : value.toInt = _ := BitVec.toInt_eq_toNat_cond value.toBitVec
  have hlt := value.toBitVec.isLt
  have hshift : (value.toBitVec <<< 1).toNat = 2 * value.toBitVec.toNat % 2 ^ 64 := by
    rw [BitVec.toNat_shiftLeft, Nat.shiftLeft_eq, Nat.mul_comm, pow_one]
  have hencode : (zigZagEncode value).toUInt64.toNat =
      (value.toBitVec.sshiftRight 63 ^^^ value.toBitVec <<< 1).toNat := rfl
  have hmsb := BitVec.msb_eq_decide value.toBitVec
  rw [hencode, sshiftRight_sign, hcond]
  rcases Nat.lt_or_ge value.toBitVec.toNat (2 ^ 63) with h | h
  · rw [hmsb, decide_eq_false (Nat.not_le.mpr h), if_neg nofun, BitVec.zero_xor, hshift]
    split <;> split <;> omega
  · rw [hmsb, decide_eq_true h, if_pos rfl, BitVec.allOnes_xor, BitVec.toNat_not, hshift]
    split <;> split <;> omega

theorem zigZagDecode_zigZagEncode (value : Int64) : zigZagDecode (zigZagEncode value) = value := by
  obtain ⟨n, hn⟩ : ∃ n, zigZagEncode value = n := ⟨_, rfl⟩
  have hencode := toNat_zigZagEncode value
  rw [hn] at hencode ⊢
  have hnat : n.toUInt64.toNat = n.toBitVec.toNat := rfl
  have hcond : value.toInt = _ := BitVec.toInt_eq_toNat_cond value.toBitVec
  have hlt := value.toBitVec.isLt
  have hshift : (n.toBitVec >>> 1).toNat = n.toBitVec.toNat / 2 := by
    rw [BitVec.toNat_ushiftRight, Nat.shiftRight_one]
  apply Int64.toBitVec_inj.mp
  apply BitVec.eq_of_toNat_eq
  have hdecode : (zigZagDecode n).toBitVec = n.toBitVec >>> 1 ^^^ -(n.toBitVec &&& 1#64) := rfl
  rw [hdecode]
  rw [hnat, hcond] at hencode
  rcases and_one_cases n.toBitVec with ⟨h, hand⟩ | ⟨h, hand⟩
  · rw [hand, BitVec.neg_zero, BitVec.xor_zero, hshift]
    revert hencode
    split <;> split <;> omega
  · rw [hand, show -(1#64) = BitVec.allOnes 64 from rfl, BitVec.xor_allOnes, BitVec.toNat_not,
      hshift]
    revert hencode
    split <;> split <;> omega

/-! ## Packed values -/

theorem foldl_putBit (values : List UInt64) (bits : Nat) (state : Bytes × Nat) :
    values.foldl (fun state value => (List.range bits).reverse.foldl (fun state offset =>
        putBit state (value.toNat.testBit offset)) state) state =
      ((values.map UInt64.toNat).flatMap (bitsOf bits)).foldl putBit state := by
  rw [List.foldl_flatMap, List.foldl_map]
  simp only [bitsOf, List.foldl_map]

variable {bits : Nat} {values : List Int64} {value minimum : Int64}
  {encode : Int64 → Except Error UInt64} {stream : List (Option Int64)}

theorem writePacked_spec (values : List UInt64) (hpos : 0 < bits) (hle : bits ≤ 64) :
    ∃ bytes, writePacked values bits = .ok bytes ∧
      bytes.length = packedByteCount values.length bits ∧
      unpack bytes = (values.map UInt64.toNat).flatMap (bitsOf bits) ++
        List.replicate (8 * bytes.length - values.length * bits) false := by
  obtain ⟨buffer, hbuffer⟩ : ∃ buffer : Bytes,
      List.replicate (packedByteCount values.length bits) 0 = buffer := ⟨_, rfl⟩
  have hlength : buffer.length = packedByteCount values.length bits := by
    rw [← hbuffer, List.length_replicate]
  have hempty : unpack buffer = [] ++ List.replicate (8 * buffer.length) false := by
    rw [hlength, ← hbuffer, unpack_replicate_zero, List.nil_append]
  have hcount : ((values.map UInt64.toNat).flatMap (bitsOf bits)).length = values.length * bits := by
    rw [length_flatMap_bitsOf, length_map]
  have hroom : ((values.map UInt64.toNat).flatMap (bitsOf bits)).length ≤ 8 * buffer.length := by
    rw [hcount, hlength, packedByteCount]
    omega
  obtain ⟨hsame, hbits⟩ := unpack_foldl_putBit hempty hroom
  refine ⟨_, ?_, hsame.trans hlength, ?_⟩
  · rw [writePacked, if_neg (by omega)]
    dsimp only
    rw [foldl_putBit, hbuffer]
    rfl
  · rw [hbits, hsame, hcount, List.nil_append]

theorem writePacked_refused (values : List UInt64) (h : bits = 0 ∨ 64 < bits) :
    writePacked values bits =
      .error (.invalidFormat s!"{bits} bits per value is outside 1..=64") :=
  if_pos h

theorem readPacked_writePacked {values : List UInt64} (hpos : 0 < bits)
    (hle : bits ≤ 64) (h : ∀ value ∈ values, value.toNat < 2 ^ bits) :
    Lossless (writePacked values bits) (readPacked bits values.length) values := by
  obtain ⟨bytes, hwrite, hlength, hbits⟩ := writePacked_spec values hpos hle
  refine ⟨bytes, hwrite, fun rest => ?_⟩
  have hnumbers : ∀ n ∈ values.map UInt64.toNat, n < 2 ^ bits := by
    intro n hmem
    obtain ⟨value, hvalue, rfl⟩ := mem_map.mp hmem
    exact h value hvalue
  have hread := readAll_bitsOf hnumbers
    (List.replicate (8 * bytes.length - values.length * bits) false)
  rw [length_map] at hread
  rw [readPacked, ← hlength, if_neg (by rw [List.length_append]; omega), List.take_left, List.drop_left, hbits,
    hread, List.map_map]
  refine congrArg some (Prod.ext ?_ rfl)
  exact (List.map_congr_left fun value _ => UInt64.ofNat_toNat).trans (List.map_id _)

/-! ## Widths -/

theorem toNat_maxValue (h : bits < 64) : (maxValue bits).toNat = 2 ^ bits - 1 := by
  have hall : ∀ bits < 64, (~~~(~~~0 <<< UInt64.ofNat bits) : UInt64).toNat = 2 ^ bits - 1 := by
    decide
  rw [maxValue, if_neg (Nat.not_le.mpr h), hall bits h]

theorem lt_pow_bitsRequired (value : UInt64) : value.toNat < 2 ^ bitsRequired value :=
  Nat.lt_of_lt_of_le (Nat.lt_size_self _) (Nat.pow_le_pow_right (by decide) (le_max_left _ _))

theorem bitsRequired_pos (value : UInt64) : 0 < bitsRequired value :=
  lt_max_of_lt_right Nat.one_pos

theorem bitsRequired_le {value : UInt64} (hpos : 0 < bits)
    (h : value.toNat < 2 ^ bits) : bitsRequired value ≤ bits :=
  max_le (Nat.size_le.mpr h) hpos

/-! ## Blocks -/

instance lawfulOrderMax_int64 : Std.LawfulOrderMax Int64 where
  max_eq_or a b := by
    rw [show max a b = if a ≤ b then b else a from rfl]
    split
    · exact .inr rfl
    · exact .inl rfl
  max_le_iff a b c := by
    rw [show max a b = if a ≤ b then b else a from rfl]
    split
    next hle => exact ⟨fun h => ⟨Int64.le_trans hle h, h⟩, And.right⟩
    next hle =>
      have hge : b ≤ a := (Int64.le_total b a).resolve_right hle
      exact ⟨fun h => ⟨h, Int64.le_trans hge h⟩, And.left⟩

/-- The bounds of a block. -/
theorem exists_bounds (h : values ≠ []) :
    ∃ minimum maximum, values.min? = some minimum ∧ values.max? = some maximum ∧
      maximum ∈ values ∧ ∀ value ∈ values, minimum.toInt ≤ value.toInt ∧
        value.toInt ≤ maximum.toInt := by
  obtain ⟨minimum, hmin⟩ := Option.ne_none_iff_exists'.mp (mt List.min?_eq_none_iff.mp h)
  obtain ⟨maximum, hmax⟩ := Option.ne_none_iff_exists'.mp (mt List.max?_eq_none_iff.mp h)
  have hlow := (List.min?_eq_some_iff.mp hmin).2
  obtain ⟨hmem, hhigh⟩ := List.max?_eq_some_iff.mp hmax
  exact ⟨minimum, maximum, hmin, hmax, hmem, fun value hvalue =>
    ⟨Int64.le_iff_toInt_le.mp (hlow value hvalue), Int64.le_iff_toInt_le.mp (hhigh value hvalue)⟩⟩

theorem toNat_sub_lt (hbits : bits ≤ 64)
    (hle : minimum.toInt ≤ value.toInt) (hlt : value.toInt - minimum.toInt < 2 ^ bits) :
    (value - minimum).toUInt64.toNat < 2 ^ bits := by
  have hsub : ((value - minimum).toUInt64.toNat : Int) = value.toInt - minimum.toInt := by
    have hwide : (2 : Int) ^ bits ≤ 2 ^ 64 := by
      exact_mod_cast Nat.pow_le_pow_right (Nat.succ_pos 1) hbits
    rw [toNat_toUInt64, Int64.toInt_sub, Int.bmod]
    split <;> omega
  have hcast : ((value - minimum).toUInt64.toNat : Int) < ((2 ^ bits : Nat) : Int) := by
    rw [hsub]
    exact_mod_cast hlt
  exact_mod_cast hcast

theorem toInt_toInt64 {value : UInt64} (h : value.toNat < 2 ^ 63) :
    value.toInt64.toInt = value.toNat := by
  have hcond : value.toInt64.toInt = _ := BitVec.toInt_eq_toNat_cond value.toBitVec
  have hnat : value.toBitVec.toNat = value.toNat := rfl
  rw [hcond, hnat, if_pos (by omega)]

/-- A positive minimum is lowered to one that still reaches the maximum. -/
theorem toInt_blockMinimum {bits : Nat} (hbits : bits < 64) {minimum maximum : Int64}
    (hle : minimum.toInt ≤ maximum.toInt) :
    (blockMinimum bits minimum maximum).toInt =
      if 0 < minimum.toInt then max 0 (maximum.toInt - (2 ^ bits - 1)) else minimum.toInt := by
  have hpow : 1 ≤ 2 ^ bits ∧ 2 ^ bits ≤ 2 ^ 63 :=
    ⟨Nat.one_le_two_pow, Nat.pow_le_pow_right (Nat.succ_pos 1) (by omega)⟩
  have hcast : ((2 : Int) ^ bits) = ((2 ^ bits : Nat) : Int) := by push_cast; rfl
  have hmaximum := maximum.toInt_lt
  have hlargest : (maxValue bits).toInt64.toInt = 2 ^ bits - 1 := by
    rw [toInt_toInt64 (by rw [toNat_maxValue hbits]; omega), toNat_maxValue hbits, hcast]
    omega
  have hpositive : 0 < minimum ↔ 0 < minimum.toInt := by
    rw [Int64.lt_iff_toInt_lt, Int64.toInt_zero]
  rw [blockMinimum, if_neg (by omega)]
  by_cases hpos : 0 < minimum
  · have hpos' := hpositive.mp hpos
    have hlowered : (maximum - (maxValue bits).toInt64).toInt =
        maximum.toInt - (2 ^ bits - 1) := by
      rw [Int64.toInt_sub, hlargest, hcast, Int.bmod]
      omega
    rw [if_pos hpos, if_pos hpos',
      show ∀ value : Int64, max 0 value = if 0 ≤ value then value else 0 from fun _ => rfl]
    split
    next hle' =>
      rw [Int64.le_iff_toInt_le, Int64.toInt_zero] at hle'
      rw [hlowered] at hle' ⊢
      exact (max_eq_right hle').symm
    next hgt =>
      rw [Int64.le_iff_toInt_le, Int64.toInt_zero, hlowered] at hgt
      rw [Int64.toInt_zero]
      exact (max_eq_left (by omega)).symm
  · rw [if_neg hpos, if_neg (mt hpositive.mpr hpos)]

/-- The width and the minimum of a block hold every value. -/
theorem block_fits {maximum : Int64} (hlow : minimum.toInt ≤ value.toInt)
    (hhigh : value.toInt ≤ maximum.toInt) :
    blockBits minimum maximum ≤ 64 ∧
      (blockBits minimum maximum = 0 →
        value = blockMinimum (blockBits minimum maximum) minimum maximum) ∧
      (value - blockMinimum (blockBits minimum maximum) minimum maximum).toUInt64.toNat <
        2 ^ blockBits minimum maximum := by
  have hdelta : (maximum - minimum).toInt = (maximum.toInt - minimum.toInt).bmod (2 ^ 64) :=
    Int64.toInt_sub ..
  have hminimum := minimum.le_toInt
  have hmaximum := maximum.toInt_lt
  rcases lt_or_ge (maximum - minimum).toInt 0 with hwide | hnarrow
  · have hbits : blockBits minimum maximum = 64 := if_pos (Int64.lt_iff_toInt_lt.mpr hwide)
    rw [hbits]
    exact ⟨Nat.le_refl _, nofun, UInt64.toNat_lt _⟩
  · have hspan : (maximum - minimum).toInt = maximum.toInt - minimum.toInt := by
      rw [hdelta, Int.bmod] at hnarrow
      rw [hdelta, Int.bmod]
      omega
    have hnot : ¬ maximum - minimum < 0 := fun hlt => by
      have hlt' := Int64.lt_iff_toInt_lt.mp hlt
      rw [Int64.toInt_zero] at hlt'
      omega
    by_cases hsame : maximum - minimum = 0
    · have hbits : blockBits minimum maximum = 0 := by
        rw [blockBits, if_neg hnot, if_pos hsame]
      have hequal : minimum = maximum := by
        have hzero := congrArg Int64.toInt hsame
        rw [Int64.toInt_zero] at hzero
        exact Int64.toInt_inj.mp (by omega)
      have hvalue : value = maximum := Int64.toInt_inj.mp (by rw [hequal] at hlow; omega)
      have hmin : blockMinimum 0 minimum maximum = maximum := by
        rw [blockMinimum, if_neg (by decide), hequal]
        split
        next hpos =>
          rw [show (maxValue 0).toInt64 = 0 from rfl, Int64.sub_zero]
          rw [show max 0 maximum = if (0 : Int64) ≤ maximum then maximum else 0 from rfl,
            if_pos (Int64.le_of_lt hpos)]
        next => rfl
      rw [hbits, hmin, hvalue]
      exact ⟨Nat.zero_le _, fun _ => rfl, by rw [Int64.sub_self]; decide⟩
    · have hpos : (maximum - minimum).toInt ≠ 0 := fun hzero =>
        hsame (Int64.toInt_inj.mp (hzero.trans Int64.toInt_zero.symm))
      have hunsigned : ((maximum - minimum).toUInt64.toNat : Int) =
          maximum.toInt - minimum.toInt := by
        rw [toNat_toUInt64, hspan]
        exact Int.emod_eq_of_lt (by omega) (by rw [hdelta, Int.bmod] at hspan; omega)
      have hbits : blockBits minimum maximum = bitsRequired (maximum - minimum).toUInt64 := by
        rw [blockBits, if_neg hnot, if_neg hsame]
      have hfits := lt_pow_bitsRequired (maximum - minimum).toUInt64
      have hshort : bitsRequired (maximum - minimum).toUInt64 ≤ 63 :=
        bitsRequired_le (by decide) (by rw [hdelta, Int.bmod] at hspan; omega)
      rw [hbits]
      obtain ⟨bits, hsize⟩ : ∃ bits, bitsRequired (maximum - minimum).toUInt64 = bits := ⟨_, rfl⟩
      have hpositive := bitsRequired_pos (maximum - minimum).toUInt64
      rw [hsize] at hfits hshort hpositive ⊢
      have hspan' : maximum.toInt - minimum.toInt < 2 ^ bits := by
        rw [← hunsigned]
        exact_mod_cast hfits
      have hlowered := @toInt_blockMinimum bits (by omega) minimum maximum (by omega)
      refine ⟨by omega, fun hzero => by omega, toNat_sub_lt (by omega) ?_ ?_⟩
      · rw [hlowered]
        split <;> omega
      · rw [hlowered]
        split <;> omega

theorem readVlongSigned_writeVlongSigned_int64 (value : Int64) (rest : Bytes) :
    readVlongSigned (writeVlongSigned value.toInt ++ rest) = some (value, rest) := by
  have hbits : (value.toInt % 2 ^ 64).toNat = value.toUInt64.toNat := by
    rw [← toNat_toUInt64, Int.toNat_natCast]
  rw [readVlongSigned, writeVlongSigned, hbits, Varint.readFull_groups (UInt64.toNat_lt _),
    map_some, UInt64.ofNat_toNat]
  rfl

theorem readBlockPacked_blockHeader (hbits : bits ≤ 64) (minimum : Int64)
    (count : Nat) (rest : Bytes) :
    readBlockPacked count (blockHeader bits minimum ++ rest) =
      if bits = 0 then some (List.replicate count minimum, rest)
      else (readPacked bits count rest).bind fun x =>
        some (x.1.map fun value => value.toInt64 + minimum, x.2) := by
  have htoken : (UInt8.ofNat (2 * bits + if minimum = 0 then 1 else 0)).toNat =
      2 * bits + if minimum = 0 then 1 else 0 := by
    rw [UInt8.toNat_ofNat']
    split <;> omega
  rw [blockHeader, List.cons_append, readBlockPacked, htoken]
  by_cases hzero : minimum = 0
  · rw [if_pos hzero, if_neg (not_not.mpr hzero), hzero, show (2 * bits + 1) / 2 = bits by omega,
      show (2 * bits + 1) % 2 = 1 by omega, if_neg (by omega), if_pos rfl]
    rfl
  · rw [if_neg hzero, if_pos hzero, Nat.add_zero, show 2 * bits / 2 = bits by omega,
      show 2 * bits % 2 = 0 by omega, if_neg (by omega), if_neg (by decide),
      readVlongSigned_writeVlongSigned_int64, map_some, bind_eq_bind,
      bind_some]
    dsimp only
    rw [Int64.add_comm, Int64.sub_add_cancel, zigZagDecode_zigZagEncode]
    rfl

theorem readBlockPacked_writeBlockPacked (h : values ≠ []) :
    Lossless (writeBlockPacked values) (readBlockPacked values.length) values := by
  obtain ⟨minimum, maximum, hmin, hmax, hmem, hbounds⟩ := exists_bounds h
  obtain ⟨bits, hbits⟩ : ∃ bits, blockBits minimum maximum = bits := ⟨_, rfl⟩
  obtain ⟨lowest, hlowest⟩ : ∃ lowest, blockMinimum bits minimum maximum = lowest := ⟨_, rfl⟩
  have hfits : ∀ value ∈ values, bits ≤ 64 ∧ (bits = 0 → value = lowest) ∧
      (value - lowest).toUInt64.toNat < 2 ^ bits := by
    intro value hvalue
    have hall := block_fits (hbounds value hvalue).1 (hbounds value hvalue).2
    rwa [hbits, hlowest] at hall
  have hle : bits ≤ 64 := (hfits maximum hmem).1
  rw [writeBlockPacked, if_neg (by rwa [List.isEmpty_iff]), hmin, hmax]
  dsimp only [Option.getD_some]
  rw [hbits, hlowest]
  rcases Nat.eq_zero_or_pos bits with hzero | hpos
  · rw [if_neg (by omega)]
    refine ⟨_, rfl, fun rest => ?_⟩
    rw [readBlockPacked_blockHeader hle, if_pos hzero]
    refine congrArg some (Prod.ext ?_ rfl)
    exact (List.eq_replicate_iff.mpr ⟨rfl, fun value hvalue => (hfits value hvalue).2.1 hzero⟩).symm
  · have hshifted : ∀ value ∈ values.map fun value => (value - lowest).toUInt64,
        value.toNat < 2 ^ bits := by
      intro value hvalue
      obtain ⟨original, horiginal, rfl⟩ := mem_map.mp hvalue
      exact (hfits original horiginal).2.2
    obtain ⟨packed, hpacked, hread⟩ := readPacked_writePacked hpos hle hshifted
    rw [length_map] at hread
    rw [if_pos hpos, hpacked]
    refine ⟨_, rfl, fun rest => ?_⟩
    rw [append_assoc, readBlockPacked_blockHeader hle, if_neg (by omega), hread,
      bind_some, List.map_map]
    refine congrArg some (Prod.ext ?_ rfl)
    refine (List.map_congr_left fun value _ => ?_).trans (List.map_id _)
    exact Int64.sub_add_cancel value lowest

/-! ## Monotonic blocks -/

theorem zigZagEncode_small (hlow : -2 ^ 62 ≤ value.toInt) (hhigh : value.toInt < 2 ^ 62) :
    0 ≤ (zigZagEncode value).toInt ∧
      ((zigZagEncode value).toUInt64.toNat : Int) = (zigZagEncode value).toInt := by
  have hencode := toNat_zigZagEncode value
  have hunsigned := toNat_toUInt64 (zigZagEncode value)
  have hle := (zigZagEncode value).le_toInt
  have hlt := (zigZagEncode value).toInt_lt
  split at hencode <;> omega

theorem zigZagEncode_eq_zero (h : zigZagEncode value = 0) : value = 0 := by
  rw [← zigZagDecode_zigZagEncode value, h]
  rfl

def deviation (line : FloatLine) (values : List Int64) (minimum : Int64) (index : Nat)
    (value : Int64) : Int64 :=
  value - minimum - line.expected (blockAverage line values minimum) index

variable (line : FloatLine)

theorem readMonotonicBlockPacked_header
    (hminimum : 0 ≤ minimum.toInt) (average : UInt32) (hbits : bits ≤ 64)
    (count : Nat) (rest : Bytes) :
    readMonotonicBlockPacked line count
        (writeVlongSigned minimum.toInt ++ writeInt average.toInt32.toInt ++ writeVint bits ++ rest) =
      if bits = 0 then
        some ((List.range count).map fun index => minimum + line.expected average index, rest)
      else (readPacked bits count rest).bind fun x =>
        some (x.1.mapIdx fun index value =>
          minimum + line.expected average index + zigZagDecode value.toInt64, x.2) := by
  obtain ⟨n, hn⟩ := Int.eq_ofNat_of_zero_le hminimum
  have hsmall : n < 2 ^ 63 := by
    have hlt := minimum.toInt_lt
    omega
  have hfirst : Int64.ofInt (n : Int) = minimum := by
    rw [← hn, Int64.ofInt_toInt]
  have haverage : (Int32.ofInt average.toInt32.toInt).toUInt32 = average := by
    rw [Int32.ofInt_toInt, UInt32.toUInt32_toInt32]
  have hmax : bits ≤ maximumI32 := hbits.trans (by decide)
  rw [readMonotonicBlockPacked, hn, append_assoc, append_assoc,
    readVlong_writeVlongSigned hsmall, bind_eq_bind, bind_some]
  dsimp only
  rw [readInt_writeInt (Int32.le_toInt _) (Int32.toInt_lt _), bind_eq_bind,
    bind_some]
  dsimp only
  rw [readVint_writeVint hmax, bind_eq_bind, bind_some]
  dsimp only
  rw [if_neg (by omega), hfirst, haverage, Int.toNat_natCast]
  by_cases hzero : bits = 0
  · rw [if_pos hzero, if_pos (by omega)]
  · rw [if_neg hzero, if_neg (by omega)]

/-- A block of a sequence that does not begin below zero and does not deviate widely from its line
is read back. -/
theorem readMonotonicBlockPacked_writeMonotonicBlockPacked (hhead : values.head? = some minimum) (hminimum : 0 ≤ minimum.toInt)
    (hnear : ∀ index value, values[index]? = some value →
      -2 ^ 62 ≤ (deviation line values minimum index value).toInt ∧
        (deviation line values minimum index value).toInt < 2 ^ 62) :
    Lossless (writeMonotonicBlockPacked line values)
      (readMonotonicBlockPacked line values.length) values := by
  obtain ⟨average, haverage⟩ : ∃ average, blockAverage line values minimum = average := ⟨_, rfl⟩
  obtain ⟨deltas, hdeltas⟩ : ∃ deltas, values.mapIdx (fun index value =>
      zigZagEncode (value - minimum - line.expected average index)) = deltas := ⟨_, rfl⟩
  have hdelta : ∀ delta ∈ deltas, ∃ deviation : Int64, delta = zigZagEncode deviation ∧
      -2 ^ 62 ≤ deviation.toInt ∧ deviation.toInt < 2 ^ 62 := by
    intro delta hmem
    rw [← hdeltas, List.mem_mapIdx] at hmem
    obtain ⟨index, hindex, rfl⟩ := hmem
    refine ⟨_, rfl, ?_⟩
    have hbounds := hnear index values[index] (List.getElem?_eq_getElem hindex)
    rwa [deviation, haverage] at hbounds
  have hne : deltas ≠ [] := by
    rintro rfl
    rw [List.mapIdx_eq_nil_iff] at hdeltas
    rw [hdeltas] at hhead
    cases hhead
  obtain ⟨widest, hwidest⟩ := Option.ne_none_iff_exists'.mp (mt List.max?_eq_none_iff.mp hne)
  obtain ⟨hmem, hmost⟩ := List.max?_eq_some_iff.mp hwidest
  have hsigned : ∀ delta ∈ deltas, 0 ≤ delta.toInt ∧ (delta.toUInt64.toNat : Int) = delta.toInt := by
    intro delta hdelta'
    obtain ⟨value, rfl, hlow, hhigh⟩ := hdelta delta hdelta'
    exact zigZagEncode_small hlow hhigh
  have hle : ∀ delta ∈ deltas, delta.toUInt64.toNat ≤ widest.toUInt64.toNat := by
    intro delta hdelta'
    have hbelow := Int64.le_iff_toInt_le.mp (hmost delta hdelta')
    have hone := (hsigned delta hdelta').2
    have hother := (hsigned widest hmem).2
    omega
  have hfirst : writeVlong minimum.toInt = .ok (writeVlongSigned minimum.toInt) :=
    writeVlong_of_nonneg hminimum
  rw [writeMonotonicBlockPacked, hhead]
  dsimp only
  rw [haverage, hdeltas, hwidest, hfirst, Except.ok_bind_eq, Option.getD_some]
  by_cases hzero : widest = 0
  · rw [if_pos hzero]
    refine ⟨_, rfl, fun rest => ?_⟩
    refine (readMonotonicBlockPacked_header line hminimum average (Nat.zero_le 64) _ rest).trans ?_
    rw [if_pos rfl]
    refine congrArg some (Prod.ext (List.ext_getElem? fun index => ?_) rfl)
    rw [List.getElem?_map]
    cases hvalue : values[index]? with
    | none =>
      rw [List.getElem?_eq_none (by simpa using List.getElem?_eq_none_iff.mp hvalue)]
      rfl
    | some value =>
      obtain ⟨hindex, rfl⟩ := List.getElem?_eq_some_iff.mp hvalue
      have hmem' : zigZagEncode (values[index] - minimum - line.expected average index) ∈ deltas := by
        rw [← hdeltas]
        exact List.mem_mapIdx.mpr ⟨index, hindex, rfl⟩
      have hzero' : zigZagEncode (values[index] - minimum - line.expected average index) = 0 := by
        have hbelow := Int64.le_iff_toInt_le.mp (hmost _ hmem')
        have habove := (hsigned _ hmem').1
        rw [hzero, Int64.toInt_zero] at hbelow
        exact Int64.toInt_inj.mp (by rw [Int64.toInt_zero]; omega)
      have hline := zigZagEncode_eq_zero hzero'
      rw [List.getElem?_range hindex, map_some]
      exact congrArg some (by grind)
  · rw [if_neg hzero]
    have hfits : ∀ value ∈ deltas.map Int64.toUInt64,
        value.toNat < 2 ^ bitsRequired widest.toUInt64 := by
      intro value hvalue
      obtain ⟨delta, hdelta', rfl⟩ := mem_map.mp hvalue
      exact Nat.lt_of_le_of_lt (hle delta hdelta') (lt_pow_bitsRequired _)
    have hbits : bitsRequired widest.toUInt64 ≤ 64 :=
      bitsRequired_le (by decide) (UInt64.toNat_lt _)
    have hpos := bitsRequired_pos widest.toUInt64
    obtain ⟨packed, hpacked, hread⟩ := readPacked_writePacked hpos hbits hfits
    rw [hpacked]
    refine ⟨_, rfl, fun rest => ?_⟩
    rw [length_map, ← hdeltas, List.length_mapIdx] at hread
    rw [append_assoc, readMonotonicBlockPacked_header line hminimum average hbits,
      if_neg (by omega), hread, bind_some]
    refine congrArg some (Prod.ext (List.mapIdx_eq_iff.mpr fun index => ?_) rfl)
    dsimp only
    rw [List.getElem?_map, List.getElem?_mapIdx]
    cases values[index]? with
    | none => rfl
    | some value =>
      rw [map_some, map_some, map_some, Int64.toInt64_toUInt64,
        zigZagDecode_zigZagEncode]
      exact congrArg some (by grind)

/-! ## Variable-length numbers -/

theorem readVint_writeVint_int32 (value : Int32) (rest : Bytes) :
    readVint (writeVint value.toInt ++ rest) = some (value.toInt, rest) := by
  have hlow := value.le_toInt
  have hhigh := value.toInt_lt
  rw [readVint, writeVint, Varint.read_groups (by omega), bind_some]
  dsimp only
  split
  · exact congrArg some (Prod.ext (by omega) rfl)
  · rw [if_pos (by omega)]
    exact congrArg some (Prod.ext (by omega) rfl)

theorem readVlong_writeVlong (h : 0 ≤ value.toInt) :
    Lossless (writeVlong value.toInt) readVlong value.toInt.toNat := by
  obtain ⟨n, hn⟩ := Int.eq_ofNat_of_zero_le h
  have hlt := value.toInt_lt
  refine ⟨_, writeVlong_of_nonneg h, fun rest => ?_⟩
  rw [hn, readVlong_writeVlongSigned (by omega), Int.toNat_natCast]

/-! ## Streams -/

/-- Behind some values of a stream, the whole groups are written and the rest is kept. -/
structure Grouped (bits : Nat) (done : List UInt64) (state : PackedGroups) : Prop where
  failure : state.failure = none
  split : ∃ full, done = full ++ state.group ∧
    unpack state.written = (full.map UInt64.toNat).flatMap (bitsOf bits)

theorem Grouped.visit {encode : Int64 → Except Error UInt64} {bits : Nat} (hpos : 0 < bits)
    (hle : bits ≤ 64) {done : List UInt64} {state : PackedGroups} (h : Grouped bits done state)
    {value : Option Int64} {encoded : UInt64} (hencode : encode (value.getD 0) = .ok encoded) :
    ∃ state', state.visit encode bits value = .ok state' ∧
      Grouped bits (done ++ [encoded]) state' := by
  obtain ⟨full, rfl, hwritten⟩ := h.split
  rw [PackedGroups.visit, hencode, Except.ok_bind_eq]
  dsimp only
  split
  next height =>
    obtain ⟨bytes, hwrite, hlength, hbits⟩ := writePacked_spec (state.group ++ [encoded]) hpos hle
    rw [hwrite]
    refine ⟨_, rfl, h.failure, full ++ (state.group ++ [encoded]), ?_, ?_⟩
    · rw [List.append_nil, append_assoc]
    · rw [height, packedByteCount] at hlength
      rw [unpack_append, hwritten, hbits, height, hlength,
        show 8 * ((8 * bits + 7) / 8) - 8 * bits = 0 by omega, List.replicate_zero,
        List.append_nil, ← List.flatMap_append, ← List.map_append]
  next => exact ⟨_, rfl, h.failure, full, append_assoc .., hwritten⟩

theorem Grouped.run (hpos : 0 < bits) (hle : bits ≤ 64) {values done : List UInt64}
    {state : PackedGroups} (h : Grouped bits done state)
    (hencode : stream.mapM (fun value => encode (value.getD 0)) = .ok values) :
    ∃ state', stream.foldlM (PackedGroups.visit encode bits) state = .ok state' ∧
      Grouped bits (done ++ values) state' := by
  induction stream generalizing values done state with
  | nil =>
    rw [List.mapM_nil] at hencode
    cases hencode
    rw [List.append_nil]
    exact ⟨state, rfl, h⟩
  | cons value stream ih =>
    obtain ⟨encoded, rest, hfirst, hrest, rfl⟩ := Except.mapM_cons_ok_iff.mp hencode
    obtain ⟨next, hvisit, hnext⟩ := h.visit hpos hle hfirst
    obtain ⟨last, hfold, hlast⟩ := ih hnext hrest
    rw [List.append_cons]
    exact ⟨last, Except.foldlM_cons_ok_iff.mpr ⟨next, hvisit, hfold⟩, hlast⟩

theorem Grouped.finish {bits : Nat} (hpos : 0 < bits) (hle : bits ≤ 64) {values : List UInt64}
    {state : PackedGroups} (h : Grouped bits values state) {packed whole : Bytes}
    (hpacked : writePacked state.group bits = .ok packed)
    (hwhole : writePacked values bits = .ok whole) : state.written ++ packed = whole := by
  obtain ⟨full, rfl, hwritten⟩ := h.split
  obtain ⟨bytes, hbytes, hlength, hbits⟩ := writePacked_spec state.group hpos hle
  obtain ⟨all, hall, hlength', hbits'⟩ := writePacked_spec (full ++ state.group) hpos hle
  obtain rfl : bytes = packed := Except.ok.inj (hbytes.symm.trans hpacked)
  obtain rfl : all = whole := Except.ok.inj (hall.symm.trans hwhole)
  have hcount := congrArg List.length hwritten
  rw [length_unpack, length_flatMap_bitsOf, length_map] at hcount
  rw [List.length_append, packedByteCount, Nat.add_mul] at hlength'
  rw [packedByteCount] at hlength
  apply unpack_injective
  rw [unpack_append, hwritten, hbits, hbits', List.map_append, List.flatMap_append,
    append_assoc, List.length_append, Nat.add_mul]
  rw [show 8 * all.length - (full.length * bits + state.group.length * bits) =
    8 * bytes.length - state.group.length * bits by omega]

/-- A stream in groups of eight is the packing of the whole sequence. -/
theorem writePackedStream_eq (hpos : 0 < bits) (hle : bits ≤ 64) {values : List UInt64}
    (hencode : stream.mapM (fun value => encode (value.getD 0)) = .ok values) :
    writePackedStream stream encode bits = writePacked values bits := by
  have hstart : Grouped bits [] ⟨[], none, []⟩ := ⟨rfl, [], rfl, rfl⟩
  obtain ⟨state, hfold, hstate⟩ := hstart.run hpos hle hencode
  rw [List.nil_append] at hstate
  obtain ⟨packed, hpacked, -⟩ := writePacked_spec state.group hpos hle
  obtain ⟨whole, hwhole, -⟩ := writePacked_spec values hpos hle
  have hfinish := hstate.finish hpos hle hpacked hwhole
  rw [writePackedStream, hfold, Except.ok_bind_eq, hwhole, ← hfinish, hstate.failure]
  dsimp only
  by_cases hempty : state.group = []
  · rw [hempty, writePacked, if_neg (by omega)] at hpacked
    cases hpacked
    rw [if_pos (List.isEmpty_iff.mpr hempty)]
    exact congrArg Except.ok (by simp [packedByteCount])
  · rw [if_neg (mt List.isEmpty_iff.mp hempty), hpacked]
    rfl

/-! ## All encodings -/

theorem writeMonotonicBlockPacked_refused (hhead : values.head? = some minimum) (h : minimum.toInt < 0) :
    Refused (writeMonotonicBlockPacked line values) := by
  have hfirst : writeVlong minimum.toInt = .error _ := if_pos h
  rw [writeMonotonicBlockPacked, hhead]
  dsimp only
  rw [hfirst]
  exact ⟨_, rfl⟩

/-- Packed values that their width holds are read back, and the required width holds every value
up to its own.  A block that is not empty is read back, and so is a monotonic block that does not
begin below zero and stays near its line; other block openings are refused.  Variable-length
numbers are read back, except that a negative long is refused, and a stream of packed values in
groups of eight is their packing. -/
theorem packed_lossless (line : FloatLine) :
    (∀ (values : List UInt64) (bits : Nat), 0 < bits → bits ≤ 64 →
      (∀ value ∈ values, value.toNat < 2 ^ bits) →
      Lossless (writePacked values bits) (readPacked bits values.length) values) ∧
    (∀ (values : List UInt64) (bits : Nat), bits = 0 ∨ 64 < bits →
      Refused (writePacked values bits)) ∧
    (∀ maximum value : UInt64, value ≤ maximum → 0 < bitsRequired maximum ∧
      bitsRequired maximum ≤ 64 ∧ value.toNat < 2 ^ bitsRequired maximum) ∧
    (∀ values : List Int64, values ≠ [] →
      Lossless (writeBlockPacked values) (readBlockPacked values.length) values) ∧
    Refused (writeBlockPacked []) ∧
    (∀ (values : List Int64) (minimum : Int64), values.head? = some minimum → 0 ≤ minimum.toInt →
      (∀ index value, values[index]? = some value →
        -2 ^ 62 ≤ (deviation line values minimum index value).toInt ∧
          (deviation line values minimum index value).toInt < 2 ^ 62) →
      Lossless (writeMonotonicBlockPacked line values)
        (readMonotonicBlockPacked line values.length) values) ∧
    Refused (writeMonotonicBlockPacked line []) ∧
    (∀ (values : List Int64) (minimum : Int64), values.head? = some minimum → minimum.toInt < 0 →
      Refused (writeMonotonicBlockPacked line values)) ∧
    (∀ value : Int32, Lossless (.ok (writeVint value.toInt)) readVint value.toInt) ∧
    (∀ value : Int64, 0 ≤ value.toInt →
      Lossless (writeVlong value.toInt) readVlong value.toInt.toNat) ∧
    (∀ value : Int64, value.toInt < 0 → Refused (writeVlong value.toInt)) ∧
    (∀ value : Int64, Lossless (.ok (writeVlongSigned value.toInt)) readVlongSigned value) ∧
    ∀ (stream : List (Option Int64)) (encode : Int64 → Except Error UInt64) (bits : Nat)
      (values : List UInt64), 0 < bits → bits ≤ 64 →
      stream.mapM (fun value => encode (value.getD 0)) = .ok values →
      writePackedStream stream encode bits = writePacked values bits := by
  refine ⟨fun _ _ => readPacked_writePacked, fun values _ h => ⟨_, writePacked_refused values h⟩,
    fun maximum value hle => ⟨bitsRequired_pos _, bitsRequired_le (by decide) (UInt64.toNat_lt _),
      Nat.lt_of_le_of_lt (UInt64.le_iff_toNat_le.mp hle) (lt_pow_bitsRequired _)⟩,
    fun _ => readBlockPacked_writeBlockPacked, ⟨_, rfl⟩,
    fun _ _ => readMonotonicBlockPacked_writeMonotonicBlockPacked line, ⟨_, rfl⟩,
    fun _ _ => writeMonotonicBlockPacked_refused line,
    fun value => ⟨_, rfl, readVint_writeVint_int32 value⟩, fun _ => readVlong_writeVlong,
    fun _ h => ⟨_, if_pos h⟩,
    fun value => ⟨_, rfl, readVlongSigned_writeVlongSigned_int64 value⟩,
    fun _ _ _ _ hpos hle => writePackedStream_eq hpos hle⟩

/-- The line through 0, 10 and 20, whose average has these bits. -/
def steepLine : FloatLine :=
  ⟨fun _ _ => 0x41200000, fun bits index => if bits = 0 then 0 else Int64.ofNat (10 * index)⟩

theorem packed_lossless_extremes :
    Lossless (writePacked [1, 2, 3] 2) (readPacked 2 3) [1, 2, 3] ∧
      Lossless (writeBlockPacked [-9223372036854775808, 9223372036854775807])
        (readBlockPacked 2) [-9223372036854775808, 9223372036854775807] ∧
      Lossless (writeMonotonicBlockPacked steepLine [0, 10, 20])
        (readMonotonicBlockPacked steepLine 3) [0, 10, 20] ∧
      Refused (writeMonotonicBlockPacked steepLine [-1]) := by
  obtain ⟨hpacked, -, -, hblock, -, hmonotonic, -, hrefused, -⟩ := packed_lossless steepLine
  refine ⟨hpacked _ 2 (by decide) (by decide) (List.all_iff_forall_prop.mp (by decide)),
    hblock _ (by decide),
    hmonotonic [0, 10, 20] 0 rfl (by decide) ?_, hrefused _ (-1) rfl (by decide)⟩
  intro index value hvalue
  match index, hvalue with
  | 0, hvalue => cases hvalue; decide +kernel
  | 1, hvalue => cases hvalue; decide +kernel
  | 2, hvalue => cases hvalue; decide +kernel

/-- A block that rises at once to the largest long. -/
def suddenRise : List Int64 :=
  [0, 9223372036854775807, 9223372036854775807, 9223372036854775807]

/-- Its line in single precision. -/
def suddenLine : FloatLine :=
  ⟨fun _ _ => 0x5E2AAAAB, fun bits index =>
    if bits = 0 then 0
    else [0, 3074457437244227584, 6148914874488455168, 9223372036854775807].getD index 0⟩

/-- Empty blocks and negative longs are refused, and a block far from its line is not read
back. -/
theorem packed_refused_or_lost :
    Refused (writeBlockPacked []) ∧ Refused (writeVlong (-1)) ∧
      Refused (writeMonotonicBlockPacked suddenLine [-1]) ∧
      ∃ bytes, writeMonotonicBlockPacked suddenLine suddenRise = .ok bytes ∧
        readMonotonicBlockPacked suddenLine 4 bytes ≠ some (suddenRise, []) := by
  refine ⟨⟨_, rfl⟩, ⟨_, rfl⟩, ⟨_, rfl⟩, _, rfl, ?_⟩
  decide +kernel

end Froe
