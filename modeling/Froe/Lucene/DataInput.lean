import Froe.Lib.Cursor
import Froe.Lucene.DataOutput

/-!
# Reading Lucene files

Bounded reads over one file: every length is checked against a bound and against what
remains of the file before it is believed.  Each read takes back what `CodecOutput` wrote.
-/

namespace Froe

open StateT (bind_ok_iff)

open Reading
open CodecOutput (maximumI32 writeHeader writeInt writeLong writeString writeVint)

/-- What a Lucene file can be wrong about. -/
inductive LuceneReadError where
  | truncated (file : String) (offset needed remaining : Nat)
  | notALuceneFile (file : String) (offset : Nat) (found : Int32)
  | wrongCodecName (file : String) (offset : Nat) (expected found : String)
  | unsupportedFormatVersion (file : String) (offset : Nat) (codec : String)
      (version minimum maximum : Int32)
  | implausibleLength (file : String) (offset length bound : Nat)
  | malformedVariableInteger (file : String) (offset : Nat)
  | notUtf8 (file : String) (offset : Nat)
  | malformed (file : String) (offset : Nat) (details : String)
  | source (file : String) (details : String)
deriving DecidableEq

abbrev LuceneReader (α : Type) := Reader LuceneReadError α

namespace LuceneReader

def fileName : LuceneReader String := do
  return (← get).fileName

/-- The current offset. -/
def position : LuceneReader Nat := do
  return (← get).position

/-- How many bytes remain. -/
def remaining : LuceneReader Nat := do
  return (← get).rest.length

/-- Reads exactly `count` bytes. -/
def readExact (count : Nat) : LuceneReader Bytes := do
  let cursor ← get
  if cursor.rest.length < count then
    throw (.truncated cursor.fileName cursor.position count cursor.rest.length)
  else
    set (cursor.past (cursor.rest.take count) (cursor.rest.drop count))
    return cursor.rest.take count

def readByte : LuceneReader UInt8 := do
  let bytes ← readExact 1
  return bytes.headD 0

/-- A big-endian 32-bit integer. -/
def readInt : LuceneReader Int32 := do
  let bytes ← readExact 4
  return (UInt32.ofNat (Bytes.ofBe bytes)).toInt32

/-- A big-endian 64-bit integer. -/
def readLong : LuceneReader Int64 := do
  let bytes ← readExact 8
  return (UInt64.ofNat (Bytes.ofBe bytes)).toInt64

/-- The groups of a number that may still follow.  The bits of a group are above those of the
groups before it, and what does not fit the 32 bits is cut off. -/
def readGroups (offset : Nat) : Nat → Nat → Nat → LuceneReader Int32
  | 0, _, _ => do throw (.malformedVariableInteger (← fileName) offset)
  | more + 1, group, value => do
    let byte ← readByte
    let value := (value + byte.toNat % 128 * 2 ^ (7 * group)) % 2 ^ 32
    if byte.toNat < 128 then return (UInt32.ofNat value).toInt32
    else readGroups offset more (group + 1) value

/-- A variable-length integer, low group first, of at most five bytes. -/
def readVariableInt : LuceneReader Int32 := do
  readGroups (← position) 5 0 0

/-- A length-prefixed UTF-8 string, refused above `bound` bytes and above what remains. -/
def readString (bound : Nat) : LuceneReader String := do
  let offset ← position
  let length ← readVariableInt
  if length < 0 then throw (.implausibleLength (← fileName) offset 0 bound)
  else
    let length := length.toInt.toNat
    let effectiveBound := min bound (← remaining)
    if effectiveBound < length then
      throw (.implausibleLength (← fileName) offset length effectiveBound)
    else
      let bytes ← readExact length
      match String.fromUTF8? (ByteArray.mk bytes.toArray) with
      | some text => return text
      | none => throw (.notUtf8 (← fileName) offset)

/-- A count, refused when it is negative or beyond what the file could hold. -/
def readCountedLength : LuceneReader Nat := do
  let offset ← position
  let count ← readInt
  let remaining ← remaining
  if count < 0 then throw (.implausibleLength (← fileName) offset 0 remaining)
  else if remaining < count.toInt.toNat then
    throw (.implausibleLength (← fileName) offset count.toInt.toNat remaining)
  else return count.toInt.toNat

/-- A counted set of strings. -/
def readStringSet (bound : Nat) : LuceneReader (List String) := do
  let count ← readCountedLength
  times (readString bound) count

/-- A counted map of string to string, in file order. -/
def readStringMap (bound : Nat) : LuceneReader (List (String × String)) := do
  let count ← readCountedLength
  times (do return (← readString bound, ← readString bound)) count

/-! ## What a writer wrote -/

theorem reads_exact (bytes : Bytes) : Reads (readExact bytes.length) bytes bytes := by
  intro fileName position rest
  refine bind_ok_iff.mpr ⟨_, _, StateT.get_ok_iff.mpr ⟨rfl, rfl⟩, ?_⟩
  dsimp only
  rw [if_neg (by simp), List.take_left, List.drop_left]
  rfl

theorem reads_byte (byte : UInt8) : Reads readByte [byte] byte :=
  (reads_exact [byte]).andThen (reads_pure byte)

variable {α : Type} {bytes : Bytes} {condition : Prop} {text : String} {cursor cursor' : Cursor}
  {texts : List String} {entries : List (String × String)}

theorem refuses_fileName (error : String → LuceneReadError) (bytes : Bytes) :
    Refuses (do throw (error (← fileName)) : LuceneReader α) bytes :=
  fun name _ _ => ⟨error name, rfl⟩

variable {f : Nat → LuceneReader α} {a : α}

/-- A step that only looks at the cursor. -/
theorem reads_position (h : ∀ offset, ReadsIff (f offset) bytes a condition) :
    ReadsIff (position >>= f) bytes a condition :=
  ⟨fun hcondition name offset rest => (h offset).1 hcondition name offset rest,
    fun hcondition name offset rest => (h offset).2 hcondition name offset rest⟩

/-- A step that looks at what remains, which is at least what is read. -/
theorem reads_remaining (h : ∀ n, bytes.length ≤ n → ReadsIff (f n) bytes a condition) :
    ReadsIff (remaining >>= f) bytes a condition := by
  have hle : ∀ rest : Bytes, bytes.length ≤ (bytes ++ rest).length := fun rest => by
    rw [List.length_append]
    exact Nat.le_add_right _ _
  exact ⟨fun hcondition name offset rest => (h _ (hle rest)).1 hcondition name offset rest,
    fun hcondition name offset rest => (h _ (hle rest)).2 hcondition name offset rest⟩

variable (value : Int)

theorem toInt32_ofNat :
    (UInt32.ofNat (value % 2 ^ 32).toNat).toInt32 = Int32.ofInt value := by
  refine Int32.toBitVec_inj.mp (BitVec.eq_of_toNat_eq ?_)
  have hlt : (value % 2 ^ 32).toNat < 2 ^ 32 := by omega
  rw [Int32.toBitVec_ofInt, BitVec.toNat_ofInt]
  change (BitVec.ofNat 32 _).toNat = _
  rw [BitVec.toNat_ofNat, Nat.mod_eq_of_lt hlt]
  rfl

theorem toInt64_ofNat :
    (UInt64.ofNat (value % 2 ^ 64).toNat).toInt64 = Int64.ofInt value := by
  refine Int64.toBitVec_inj.mp (BitVec.eq_of_toNat_eq ?_)
  have hlt : (value % 2 ^ 64).toNat < 2 ^ 64 := by omega
  rw [Int64.toBitVec_ofInt, BitVec.toNat_ofInt]
  change (BitVec.ofNat 64 _).toNat = _
  rw [BitVec.toNat_ofNat, Nat.mod_eq_of_lt hlt]
  rfl

theorem reads_int : Reads readInt (writeInt value) (Int32.ofInt value) := by
  have hlength : (writeInt value).length = 4 := Bytes.length_be 4 _
  have hvalue : Bytes.ofBe (writeInt value) = (value % 2 ^ 32).toNat :=
    Bytes.ofBe_be_of_lt (by omega)
  rw [readInt, ← hlength]
  refine (reads_exact _).andThen ?_
  rw [hvalue, toInt32_ofNat]
  exact reads_pure _

theorem reads_long :
    Reads readLong (writeLong value) (Int64.ofInt value) := by
  have hlength : (writeLong value).length = 8 := Bytes.length_be 8 _
  have hvalue : Bytes.ofBe (writeLong value) = (value % 2 ^ 64).toNat :=
    Bytes.ofBe_be_of_lt (by omega)
  rw [readLong, ← hlength]
  refine (reads_exact _).andThen ?_
  rw [hvalue, toInt64_ofNat]
  exact reads_pure _

theorem reads_lastGroup (offset more : Nat) {n : Nat} (hn : n < 128) (group value : Nat) :
    Reads (readGroups offset (more + 1) group value) [UInt8.ofNat n]
      (UInt32.ofNat ((value + n * 2 ^ (7 * group)) % 2 ^ 32)).toInt32 := by
  have hbyte : (UInt8.ofNat n).toNat = n := by
    rw [UInt8.toNat_ofNat']
    omega
  rw [readGroups]
  refine (reads_byte _).andThen ?_
  rw [hbyte, Nat.mod_eq_of_lt hn, if_pos hn]
  exact reads_pure _

theorem reads_groups (offset : Nat) {limit n : Nat} (h : n < 128 ^ (limit + 1)) (group value : Nat) :
    Reads (readGroups offset (limit + 1) group value) (Varint.groups limit n)
      (UInt32.ofNat ((value + n * 2 ^ (7 * group)) % 2 ^ 32)).toInt32 := by
  induction limit generalizing n group value with
  | zero => exact reads_lastGroup offset 0 (by simpa using h) group value
  | succ limit ih =>
    rw [Varint.groups]
    by_cases hn : n < 128
    · rw [if_pos hn]
      exact reads_lastGroup offset _ hn group value
    · have hbyte : (UInt8.ofNat (n % 128 + 128)).toNat = n % 128 + 128 := by
        rw [UInt8.toNat_ofNat']
        omega
      have hrest : n / 128 < 128 ^ (limit + 1) := by
        rw [pow_succ] at h
        exact Nat.div_lt_of_lt_mul (by rwa [Nat.mul_comm] at h)
      have hvalue : ((value + n % 128 * 2 ^ (7 * group)) % 2 ^ 32 +
          n / 128 * 2 ^ (7 * (group + 1))) % 2 ^ 32 = (value + n * 2 ^ (7 * group)) % 2 ^ 32 := by
        have hsplit : n * 2 ^ (7 * group) =
            n % 128 * 2 ^ (7 * group) + n / 128 * 2 ^ (7 * (group + 1)) := by
          rw [Nat.mul_add, Nat.pow_add, Nat.mul_comm (2 ^ (7 * group)), ← Nat.mul_assoc,
            ← Nat.add_mul]
          refine congrArg (· * 2 ^ (7 * group)) ?_
          omega
        rw [Nat.mod_add_mod, hsplit, Nat.add_assoc]
      rw [if_neg hn, readGroups, ← List.singleton_append]
      refine (reads_byte _).bind ?_
      have hlater := ih hrest (group + 1) ((value + n % 128 * 2 ^ (7 * group)) % 2 ^ 32)
      rw [hvalue] at hlater
      rw [hbyte, if_neg (by omega), Nat.add_mod_right, Nat.mod_mod]
      exact hlater

/-- A variable-length integer is read as the number of its 32 bits. -/
theorem reads_variableInt :
    Reads readVariableInt (writeVint value) (Int32.ofInt value) := by
  intro name offset rest
  have hgroups := @reads_groups offset 4 (value % 2 ^ 32).toNat (by omega) 0 0 name offset rest
  rw [Nat.zero_add, Nat.mul_zero, Nat.pow_zero, Nat.mul_one, Nat.mod_eq_of_lt (by omega),
    toInt32_ofNat] at hgroups
  exact hgroups

/-! ## Strings -/

theorem toList_loop (bytes : ByteArray) (i : Nat) (taken : List UInt8) :
    ByteArray.toList.loop bytes i taken = taken.reverse ++ bytes.data.toList.drop i := by
  induction i, taken using ByteArray.toList.loop.induct bytes with
  | case1 i taken hi ih =>
    have hlength : i < bytes.data.toList.length := by simpa using hi
    have hget : bytes.get! i = bytes.data.toList[i] := by
      change bytes.data[i]! = _
      rw [getElem!_pos bytes.data i hi, Array.getElem_toList]
    rw [ByteArray.toList.loop, if_pos hi, ih, List.reverse_cons, List.append_assoc, hget,
      List.drop_eq_getElem_cons hlength]
    rfl
  | case2 i taken hi =>
    rw [ByteArray.toList.loop, if_neg hi, List.drop_eq_nil_of_le (by simpa using hi),
      List.append_nil]

theorem toUTF8_toList (text : String) : text.toUTF8.toList = text.utf8 := toList_loop _ 0 []

theorem fromUTF8?_utf8 (text : String) :
    String.fromUTF8? (ByteArray.mk text.utf8.toArray) = some text := by
  have hbytes : ByteArray.mk text.utf8.toArray = text.toByteArray := by simp [String.utf8]
  rw [hbytes, String.fromUTF8?, dif_pos text.isValidUTF8]
  rfl

/-- The bytes of a string that can be written. -/
theorem writeString_ok_iff :
    writeString text = .ok bytes ↔
      text.utf8.length ≤ maximumI32 ∧
        bytes = writeVint text.utf8.length ++ text.utf8 := by
  rw [writeString, toUTF8_toList]
  by_cases h : maximumI32 < text.utf8.length
  · rw [if_pos h]
    exact ⟨(by rintro ⟨⟩), fun hle => absurd hle.1 (Nat.not_le.mpr h)⟩
  · rw [if_neg h]
    exact ⟨fun hok => ⟨Nat.le_of_not_lt h, (Except.ok.inj hok).symm⟩, fun hle => by rw [hle.2]⟩

theorem toInt_ofInt_length {length : Nat} (h : length ≤ maximumI32) :
    (Int32.ofInt length).toInt = length := by
  rw [maximumI32] at h
  exact Int32.toInt_ofInt_of_le (by omega) (by omega)

/-- A string is read back when its bytes are within the bound. -/
theorem readsIff_string (h : writeString text = .ok bytes)
    (bound : Nat) : ReadsIff (readString bound) bytes text (text.utf8.length ≤ bound) := by
  obtain ⟨hlength, rfl⟩ := writeString_ok_iff.mp h
  have hint := toInt_ofInt_length hlength
  have hneg : ¬ Int32.ofInt (text.utf8.length : Int) < 0 := by
    rw [Int32.lt_iff_toInt_lt, hint]
    exact Int.not_lt.mpr (Int.natCast_nonneg _)
  refine reads_position fun offset => (reads_variableInt _).bindIff ?_
  rw [if_neg hneg, hint, Int.toNat_natCast]
  refine reads_remaining fun remaining hremaining => ?_
  by_cases hbound : text.utf8.length ≤ bound
  · rw [if_neg (Nat.not_lt.mpr (le_min hbound hremaining))]
    refine (Reads.iff ((reads_exact text.utf8).andThen ?_)).congr (iff_of_true trivial hbound)
    rw [fromUTF8?_utf8]
    exact reads_pure _
  · rw [if_pos ((min_le_left _ _).trans_lt (Nat.lt_of_not_le hbound))]
    exact ⟨fun h => absurd h hbound, fun _ => refuses_fileName _ _⟩

/-! ## Counted strings -/

/-- A count is read back before as many bytes or more. -/
theorem readsIff_counted {count : Nat} {later : Bytes} (hcount : count ≤ maximumI32) (hlater : count ≤ later.length)
    (hf : ReadsIff (f count) later a condition) :
    ReadsIff (readCountedLength >>= f) (writeInt count ++ later) a condition := by
  have hint := toInt_ofInt_length hcount
  have hneg : ¬ Int32.ofInt (count : Int) < 0 := by
    rw [Int32.lt_iff_toInt_lt, hint]
    exact Int.not_lt.mpr (Int.natCast_nonneg _)
  rw [readCountedLength, bind_assoc]
  refine reads_position fun offset => ?_
  rw [bind_assoc]
  refine (reads_int _).bindIff ?_
  rw [bind_assoc]
  refine reads_remaining fun remaining hremaining => ?_
  rw [if_neg hneg, hint, Int.toNat_natCast, if_neg (Nat.not_lt.mpr (hlater.trans hremaining)),
    pure_bind]
  exact hf

/-- A count that is read fits the 32 bits. -/
theorem readCountedLength_le {count : Nat}
    (h : readCountedLength.run cursor = .ok (count, cursor')) :
    count ≤ maximumI32 := by
  obtain ⟨offset, cursor₁, -, h⟩ := bind_ok_iff.mp h
  obtain ⟨value, cursor₂, -, h⟩ := bind_ok_iff.mp h
  obtain ⟨remaining, cursor₃, -, h⟩ := bind_ok_iff.mp h
  split at h
  · obtain ⟨name, cursor₄, -, h⟩ := bind_ok_iff.mp h
    cases h
  · split at h
    · obtain ⟨name, cursor₄, -, h⟩ := bind_ok_iff.mp h
      cases h
    · obtain ⟨rfl, -⟩ := StateT.pure_ok_iff.mp h
      have hlt := value.toInt_lt
      rw [maximumI32]
      omega

theorem length_readStringSet_le {bound : Nat}
    (h : (readStringSet bound).run cursor = .ok (texts, cursor')) :
    texts.length ≤ maximumI32 := by
  obtain ⟨count, cursor₁, hcount, h⟩ := bind_ok_iff.mp h
  rw [length_times h]
  exact readCountedLength_le hcount

theorem length_readStringMap_le {bound : Nat} (h : (readStringMap bound).run cursor = .ok (entries, cursor')) :
    entries.length ≤ maximumI32 := by
  obtain ⟨count, cursor₁, hcount, h⟩ := bind_ok_iff.mp h
  rw [length_times h]
  exact readCountedLength_le hcount

/-- What is written for values takes at least one byte for each. -/
theorem length_le_flatten {condition : α → Prop} {x : LuceneReader α}
    {written : List Bytes} {values : List α}
    (h : List.Forall₂ (fun bytes a => bytes ≠ [] ∧ ReadsIff x bytes a (condition a)) written
      values) : values.length ≤ written.flatten.length := by
  induction h with
  | nil => exact Nat.le_refl 0
  | @cons bytes a written values hfirst _ ih =>
    have hpos : 0 < bytes.length := List.length_pos_iff.mpr hfirst.1
    rw [List.length_cons, List.flatten_cons, List.length_append]
    omega

theorem writeString_ne_nil (h : writeString text = .ok bytes) : bytes ≠ [] := by
  rw [(writeString_ok_iff.mp h).2]
  exact List.append_ne_nil_of_left_ne_nil (Varint.groups_ne_nil _ _) _

/-- A set is read back when its strings are within the bound. -/
theorem readsIff_stringSet (h : CodecOutput.writeStringSet texts = .ok bytes)
    (hlength : texts.length ≤ maximumI32) (bound : Nat) :
    ReadsIff (readStringSet bound) bytes texts (∀ text ∈ texts, text.utf8.length ≤ bound) := by
  obtain ⟨written, hwritten, h⟩ := Except.bind_ok_iff.mp h
  cases h
  have hstrings : List.Forall₂ (fun bytes text => bytes ≠ [] ∧ ReadsIff (readString bound) bytes
      text (text.utf8.length ≤ bound)) written texts :=
    ((Except.mapM_ok_iff.mp hwritten).imp fun _ _ hstring =>
      ⟨writeString_ne_nil hstring, readsIff_string hstring bound⟩).flip
  rw [CodecOutput.lengthOrMaximum_of_le hlength]
  exact readsIff_counted hlength (length_le_flatten hstrings)
    (timesIff (hstrings.imp fun _ _ h => h.2))

/-- A map is read back when its strings are within the bound. -/
theorem readsIff_stringMap (h : CodecOutput.writeStringMap entries = .ok bytes)
    (hlength : entries.length ≤ maximumI32) (bound : Nat) :
    ReadsIff (readStringMap bound) bytes entries
      (∀ entry ∈ entries, entry.1.utf8.length ≤ bound ∧ entry.2.utf8.length ≤ bound) := by
  obtain ⟨written, hwritten, h⟩ := Except.bind_ok_iff.mp h
  cases h
  have hentries : List.Forall₂ (fun bytes entry => bytes ≠ [] ∧
      ReadsIff (do return (← readString bound, ← readString bound) : LuceneReader (String × String))
        bytes entry (entry.1.utf8.length ≤ bound ∧ entry.2.utf8.length ≤ bound)) written entries := by
    refine ((Except.mapM_ok_iff.mp hwritten).imp fun entry bytes hentry => ?_).flip
    obtain ⟨key, hkey, hentry⟩ := Except.bind_ok_iff.mp hentry
    obtain ⟨value, hvalue, hentry⟩ := Except.bind_ok_iff.mp hentry
    cases hentry
    refine ⟨List.append_ne_nil_of_left_ne_nil (writeString_ne_nil hkey) _, ?_⟩
    exact (readsIff_string hkey bound).bind fun _ =>
      (readsIff_string hvalue bound).andThen (reads_pure _)
  rw [CodecOutput.lengthOrMaximum_of_le hlength]
  exact readsIff_counted hlength (length_le_flatten hentries)
    (timesIff (hentries.imp fun _ _ h => h.2))

end LuceneReader

/-! ## Codec headers -/

/-- The longest codec name of a header. -/
def maximumCodecNameBytes : Nat := 127

/-- A header that was read. -/
structure CodecHeader where
  name : String
  version : Int32

section

open LuceneReader

/-- Reads a header after the magic, requiring a name and a version in a range. -/
def readCodecHeaderWithoutMagic (expectedName : String) (minimumVersion maximumVersion : Int32) :
    LuceneReader CodecHeader := do
  let offset ← position
  let name ← readString maximumCodecNameBytes
  if name ≠ expectedName then throw (.wrongCodecName (← fileName) offset expectedName name)
  else
    let version ← readInt
    if version < minimumVersion ∨ maximumVersion < version then
      throw (.unsupportedFormatVersion (← fileName) offset name version minimumVersion
        maximumVersion)
    else return ⟨name, version⟩

def readCodecHeader (expectedName : String) (minimumVersion maximumVersion : Int32) :
    LuceneReader CodecHeader := do
  let offset ← position
  let magic ← readInt
  if magic ≠ Int32.ofInt CodecOutput.codecMagic then
    throw (.notALuceneFile (← fileName) offset magic)
  else readCodecHeaderWithoutMagic expectedName minimumVersion maximumVersion

variable {codecName : String} {version : Int}

/-- What a header is made of. -/
theorem writeHeader_ok {bytes : Bytes} (h : writeHeader codecName version = .ok bytes) :
    codecName.utf8.length ≤ maximumCodecNameBytes ∧ ∃ name,
      writeString codecName = .ok name ∧
        bytes = writeInt CodecOutput.codecMagic ++
          (name ++ writeInt version) := by
  rw [writeHeader] at h
  split at h
  · cases h
  · rename_i hadmitted
    obtain ⟨name, hname, h⟩ := Except.bind_ok_iff.mp h
    cases h
    refine ⟨Nat.le_of_lt_succ (Nat.lt_of_not_le fun hle => hadmitted (.inr hle)), name, hname, ?_⟩
    exact List.append_assoc _ _ _

/-- A short ASCII name has a header of nine bytes and the name. -/
theorem exists_writeHeader {codecName : String} (version : Int)
    (hascii : codecName.toList.all (·.toNat < 128) = true) (hsize : codecName.utf8.length < 128) :
    ∃ bytes, writeHeader codecName version = .ok bytes ∧
      bytes.length = 9 + codecName.utf8.length := by
  have hname : writeString codecName =
      .ok (writeVint codecName.utf8.length ++ codecName.utf8) :=
    writeString_ok_iff.mpr ⟨hsize.le.trans (by decide), rfl⟩
  have hvint : (writeVint codecName.utf8.length).length = 1 := by
    have hmod : ((codecName.utf8.length : Int) % 2 ^ 32).toNat = codecName.utf8.length := by omega
    rw [writeVint, hmod, Varint.groups, if_pos hsize]
    rfl
  have hbytes : codecName.utf8ByteSize < 128 := hsize
  refine ⟨writeInt CodecOutput.codecMagic ++
    (writeVint codecName.utf8.length ++ codecName.utf8) ++
    writeInt version, ?_, ?_⟩
  · rw [writeHeader, if_neg (not_or.mpr ⟨not_not.mpr hascii, Nat.not_le.mpr hbytes⟩)]
    exact Except.bind_ok_iff.mpr ⟨_, hname, rfl⟩
  · rw [List.length_append, List.length_append, List.length_append, hvint, writeInt,
      writeInt, Bytes.length_be, Bytes.length_be]
    omega

theorem reads_headerWithoutMagic {name : Bytes}
    {minimum maximum : Int32} (hlength : codecName.utf8.length ≤ maximumCodecNameBytes)
    (hname : writeString codecName = .ok name)
    (hminimum : ¬ Int32.ofInt version < minimum) (hmaximum : ¬ maximum < Int32.ofInt version) :
    Reads (readCodecHeaderWithoutMagic codecName minimum maximum)
      (name ++ writeInt version) ⟨codecName, Int32.ofInt version⟩ := by
  refine ((reads_position fun offset => Reads.iff ?_).1 trivial)
  refine ((readsIff_string hname _).1 hlength).bind ?_
  rw [if_neg (not_not.mpr rfl)]
  refine (reads_int version).andThen ?_
  rw [if_neg (not_or.mpr ⟨hminimum, hmaximum⟩)]
  exact reads_pure _

theorem reads_header {bytes : Bytes} {minimum maximum : Int32}
    (h : writeHeader codecName version = .ok bytes)
    (hminimum : ¬ Int32.ofInt version < minimum) (hmaximum : ¬ maximum < Int32.ofInt version) :
    Reads (readCodecHeader codecName minimum maximum) bytes ⟨codecName, Int32.ofInt version⟩ := by
  obtain ⟨hlength, name, hname, rfl⟩ := writeHeader_ok h
  refine ((reads_position fun offset => Reads.iff ?_).1 trivial)
  refine (reads_int _).bind ?_
  rw [if_neg (not_not.mpr rfl)]
  exact reads_headerWithoutMagic hlength hname hminimum hmaximum

end

end Froe
