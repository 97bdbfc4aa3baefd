import Froe.Lib.Varint
import Froe.Segment.Identifier

/-!
# Lucene's output primitives

What `CodecOutput` writes: fixed-width numbers are big-endian, variable-length numbers
go in groups of seven bits.  Every write is modelled by the bytes it appends.
-/

namespace Froe

namespace CodecOutput

/-- `CodecUtil.CODEC_MAGIC`. -/
def codecMagic : Int := 0x3fd76c17

/-- The largest `i32`. -/
def maximumI32 : Nat := 2147483647

/-- A length as an `i32`, saturated. -/
def lengthOrMaximum (length : Nat) : Nat := if length ≤ maximumI32 then length else maximumI32

/-- A fixed four-byte big-endian integer. -/
def writeInt (value : Int) : Bytes := Bytes.be 4 (value % 2 ^ 32).toNat

/-- A fixed eight-byte big-endian long. -/
def writeLong (value : Int) : Bytes := Bytes.be 8 (value % 2 ^ 64).toNat

/-- A variable-length integer: the bits of the `i32` in groups of seven. -/
def writeVint (value : Int) : Bytes := Varint.groups 4 (value % 2 ^ 32).toNat

/-- The same encoding of a long, capped at nine bytes, which tolerates a negative value. -/
def writeVlongSigned (value : Int) : Bytes := Varint.groups 8 (value % 2 ^ 64).toNat

/-- A variable-length long, which is not negative. -/
def writeVlong (value : Int) : Except Error Bytes :=
  if value < 0 then
    .error (.invalidFormat (s!"a Lucene vlong is non-negative and {value} is not; the " ++
      "block-packed writer's own signed form is the one that accepts a negative value"))
  else .ok (writeVlongSigned value)

/-- A string: its length in bytes, then UTF-8. -/
def writeString (value : String) : Except Error Bytes :=
  let bytes := value.toUTF8.toList
  if maximumI32 < bytes.length then
    .error (.invalidFormat s!"a string of {bytes.length} bytes does not fit a vint")
  else .ok (writeVint bytes.length ++ bytes)

/-- A map of strings: a four-byte count, then the pairs. -/
def writeStringMap (entries : List (String × String)) : Except Error Bytes := do
  let written ← entries.mapM fun entry => do
    let key ← writeString entry.1
    let value ← writeString entry.2
    return key ++ value
  return writeInt (lengthOrMaximum entries.length) ++ written.flatten

/-- A set of strings: a four-byte count, then the values. -/
def writeStringSet (values : List String) : Except Error Bytes := do
  let written ← values.mapM writeString
  return writeInt (lengthOrMaximum values.length) ++ written.flatten

/-- `CodecUtil.writeHeader`: magic, name, version. -/
def writeHeader (codecName : String) (version : Int) : Except Error Bytes :=
  if ¬ codecName.toList.all (·.toNat < 128) ∨ 128 ≤ codecName.utf8ByteSize then
    .error (.invalidFormat ("a codec name is ASCII and under 128 characters; " ++
      s!"{repr codecName} is not, and header_length would be wrong for it"))
  else do
    let name ← writeString codecName
    return writeInt codecMagic ++ name ++ writeInt version

theorem writeVlong_of_nonneg {value : Int} (h : 0 ≤ value) :
    writeVlong value = .ok (writeVlongSigned value) :=
  if_neg (Int.not_lt.mpr h)

theorem length_writeVint_le (value : Int) : (writeVint value).length ≤ 5 :=
  Varint.length_groups_le 4 _

theorem length_writeVlongSigned_le (value : Int) : (writeVlongSigned value).length ≤ 9 :=
  Varint.length_groups_le 8 _

theorem lengthOrMaximum_of_le {length : Nat} (h : length ≤ maximumI32) :
    lengthOrMaximum length = length :=
  if_pos h

end CodecOutput

/-! ## Reading them back -/

namespace CodecInput

/-- `DataInput.readInt`. -/
def readInt (bytes : Bytes) : Option (Int × Bytes) :=
  if bytes.length < 4 then none
  else
    let value := Bytes.ofBe (bytes.take 4)
    some (if value < 2 ^ 31 then value else (value : Int) - 2 ^ 32, bytes.drop 4)

/-- `DataInput.readVInt`: the fifth byte holds the top four bits. -/
def readVint (bytes : Bytes) : Option (Int × Bytes) :=
  (Varint.read 4 bytes).bind fun x =>
    if x.1 < 2 ^ 31 then some ((x.1 : Int), x.2)
    else if x.1 < 2 ^ 32 then some ((x.1 : Int) - 2 ^ 32, x.2)
    else none

/-- `DataInput.readVLong`. -/
def readVlong (bytes : Bytes) : Option (Nat × Bytes) := Varint.read 8 bytes

/-- `DataInput.readBytes`. -/
def readBytes (length : Int) (bytes : Bytes) : Option (Bytes × Bytes) :=
  if length < 0 ∨ (bytes.length : Int) < length then none
  else some (bytes.take length.toNat, bytes.drop length.toNat)

/-- `CodecUtil.checkHeader` for one codec name and one version. -/
def checkHeader (codecName : String) (version : Int) (bytes : Bytes) : Option Bytes := do
  let (magic, bytes) ← readInt bytes
  if magic ≠ CodecOutput.codecMagic then none
  else
    let (length, bytes) ← readVint bytes
    let (name, bytes) ← readBytes length bytes
    let (found, bytes) ← readInt bytes
    if name = codecName.toUTF8.toList ∧ found = version then some bytes else none

theorem readInt_writeInt {value : Int} (hlow : -2 ^ 31 ≤ value) (hhigh : value < 2 ^ 31)
    (rest : Bytes) : readInt (CodecOutput.writeInt value ++ rest) = some (value, rest) := by
  have hlength : (CodecOutput.writeInt value).length = 4 := Bytes.length_be 4 _
  have hvalue : Bytes.ofBe (CodecOutput.writeInt value) = (value % 2 ^ 32).toNat :=
    Bytes.ofBe_be_of_lt (by omega)
  rw [readInt, if_neg (by rw [List.length_append, hlength]; omega), ← hlength, List.take_left,
    List.drop_left, hvalue]
  simp only [Option.some.injEq, Prod.mk.injEq, and_true]
  split <;> omega

theorem readVint_writeVint {length : Nat} (h : length ≤ CodecOutput.maximumI32) (rest : Bytes) :
    readVint (CodecOutput.writeVint length ++ rest) = some ((length : Int), rest) := by
  have hmax : length < 2 ^ 31 := Nat.lt_of_le_of_lt h (by decide)
  have hmod : (((length : Int) % 2 ^ 32).toNat) = length := by
    rw [Int.emod_eq_of_lt (by omega) (by omega), Int.toNat_natCast]
  rw [readVint, CodecOutput.writeVint, hmod,
    Varint.read_groups (Nat.lt_trans hmax (by decide)), Option.bind_some]
  exact if_pos hmax

/-- A number that may be negative. -/
theorem readVint_writeVint_int {value : Int} (hlow : -2 ^ 31 ≤ value) (hhigh : value < 2 ^ 31)
    (rest : Bytes) : readVint (CodecOutput.writeVint value ++ rest) = some (value, rest) := by
  have hlt : (value % 2 ^ 32).toNat < 128 ^ (4 + 1) :=
    Nat.lt_trans (show (value % 2 ^ 32).toNat < 2 ^ 32 by omega) (by decide)
  rw [readVint, CodecOutput.writeVint, Varint.read_groups hlt, Option.bind_some]
  by_cases hneg : (value % 2 ^ 32).toNat < 2 ^ 31
  · have hvalue : (((value % 2 ^ 32).toNat : Nat) : Int) = value := by omega
    exact (if_pos hneg).trans (congrArg (fun value => some (value, rest)) hvalue)
  · have hvalue : (((value % 2 ^ 32).toNat : Nat) : Int) - 2 ^ 32 = value := by omega
    rw [if_neg hneg]
    exact (if_pos (by omega)).trans (congrArg (fun value => some (value, rest)) hvalue)

theorem readVlong_writeVlongSigned {value : Nat} (h : value < 2 ^ 63) (rest : Bytes) :
    readVlong (CodecOutput.writeVlongSigned value ++ rest) = some (value, rest) := by
  have hmod : (((value : Int) % 2 ^ 64).toNat) = value := by
    rw [Int.emod_eq_of_lt (by omega) (by omega), Int.toNat_natCast]
  rw [readVlong, CodecOutput.writeVlongSigned, hmod]
  exact Varint.read_groups h rest

theorem readBytes_append (bytes rest : Bytes) :
    readBytes bytes.length (bytes ++ rest) = some (bytes, rest) := by
  rw [readBytes, if_neg (by simp), Int.toNat_natCast, List.take_left, List.drop_left]

/-- A header is read back. -/
theorem checkHeader_writeHeader {codecName : String} {version : Int}
    (hascii : codecName.toList.all (·.toNat < 128)) (hsize : codecName.utf8ByteSize < 128)
    (hlength : codecName.toUTF8.toList.length = codecName.utf8ByteSize)
    (hlow : -2 ^ 31 ≤ version) (hhigh : version < 2 ^ 31) :
    ∃ header, CodecOutput.writeHeader codecName version = .ok header ∧
      ∀ rest, checkHeader codecName version (header ++ rest) = some rest := by
  obtain ⟨name, hname⟩ : ∃ name, codecName.toUTF8.toList = name := ⟨_, rfl⟩
  rw [hname] at hlength
  have hshort : name.length ≤ CodecOutput.maximumI32 := by
    rw [CodecOutput.maximumI32]
    omega
  refine ⟨CodecOutput.writeInt CodecOutput.codecMagic ++ (CodecOutput.writeVint name.length ++ name)
    ++ CodecOutput.writeInt version, ?_, fun rest => ?_⟩
  · have hadmitted : ¬ (¬ codecName.toList.all (·.toNat < 128) ∨ 128 ≤ codecName.utf8ByteSize) := by
      rintro (h | h)
      · exact h hascii
      · exact Nat.not_le.mpr hsize h
    rw [CodecOutput.writeHeader, if_neg hadmitted, CodecOutput.writeString, hname,
      if_neg (Nat.not_lt.mpr hshort)]
    rfl
  · simp only [List.append_assoc]
    rw [checkHeader, readInt_writeInt (by decide) (by decide)]
    simp only [Option.bind_eq_bind, Option.bind_some, readVint_writeVint hshort,
      readBytes_append, readInt_writeInt hlow hhigh, hname]
    rw [if_neg (fun h => h rfl), if_pos ⟨trivial, trivial⟩]

end CodecInput

end Froe
