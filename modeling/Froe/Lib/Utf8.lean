import Froe.Lib.Bytes

/-!
# Text as UTF-8 bytes

Text is stored as UTF-8.  Decoding is lenient: a byte string that is not valid
UTF-8 is decoded with one replacement character for every maximal broken part,
so the decoder never fails.  On what an encoder wrote the decoder is the inverse
(`decodeLossy_utf8`).
-/

def String.utf8 (s : String) : Bytes := s.toByteArray.data.toList

namespace Utf8

open String (utf8EncodeChar)

/-- A continuation byte, `10xxxxxx`. -/
def isContinuation (x : UInt8) : Bool := 0x80 ≤ x && x ≤ 0xBF

/-- Whether `y` may follow the first byte `x` of a three-byte sequence. -/
def validSecondOfThree (x y : UInt8) : Bool :=
  (x == 0xE0 && 0xA0 ≤ y && y ≤ 0xBF) || (0xE1 ≤ x && x ≤ 0xEC && isContinuation y) ||
    (x == 0xED && 0x80 ≤ y && y ≤ 0x9F) || (0xEE ≤ x && x ≤ 0xEF && isContinuation y)

/-- Whether `y` may follow the first byte `x` of a four-byte sequence. -/
def validSecondOfFour (x y : UInt8) : Bool :=
  (x == 0xF0 && 0x90 ≤ y && y ≤ 0xBF) || (0xF1 ≤ x && x ≤ 0xF3 && isContinuation y) ||
    (x == 0xF4 && 0x80 ≤ y && y ≤ 0x8F)

/-- The replacement character. -/
def replacement : Char := Char.ofNat 0xFFFD

/-- The six payload bits of a continuation byte. -/
def payload (x : UInt8) : Nat := x.toNat % 64

/-- Decodes one character after its first byte `x`.  A broken sequence yields the
replacement character, and the scan resumes at the byte that broke it. -/
def decodeOne (x : UInt8) (rest : Bytes) : Char × Bytes :=
  if x < 0x80 then (Char.ofNat x.toNat, rest)
  else if 0xC2 ≤ x ∧ x ≤ 0xDF then
    match rest with
    | y :: r =>
      if isContinuation y then (Char.ofNat (x.toNat % 32 * 64 + payload y), r)
      else (replacement, rest)
    | [] => (replacement, rest)
  else if 0xE0 ≤ x ∧ x ≤ 0xEF then
    match rest with
    | y :: r =>
      if validSecondOfThree x y then
        match r with
        | z :: r' =>
          if isContinuation z then
            (Char.ofNat (x.toNat % 16 * 4096 + payload y * 64 + payload z), r')
          else (replacement, r)
        | [] => (replacement, r)
      else (replacement, rest)
    | [] => (replacement, rest)
  else if 0xF0 ≤ x ∧ x ≤ 0xF4 then
    match rest with
    | y :: r =>
      if validSecondOfFour x y then
        match r with
        | z :: r' =>
          if isContinuation z then
            match r' with
            | w :: r'' =>
              if isContinuation w then
                (Char.ofNat (x.toNat % 8 * 262144 + payload y * 4096 + payload z * 64 + payload w),
                  r'')
              else (replacement, r')
            | [] => (replacement, r')
          else (replacement, r)
        | [] => (replacement, r)
      else (replacement, rest)
    | [] => (replacement, rest)
  else (replacement, rest)

/-- Decodes with replacement characters.  The fuel bounds the number of characters,
of which there are at most as many as bytes. -/
def decodeChars : Nat → Bytes → List Char
  | 0, _ => []
  | _ + 1, [] => []
  | fuel + 1, x :: rest =>
    (decodeOne x rest).1 :: decodeChars fuel (decodeOne x rest).2

/-- Lenient decoding: valid UTF-8 is taken as it is, anything else is decoded with
replacement characters. -/
def decodeLossy (b : Bytes) : String :=
  if h : (ByteArray.mk b.toArray).validateUTF8 then
    String.ofByteArray (ByteArray.mk b.toArray) (ByteArray.validateUTF8_eq_true_iff.mp h)
  else String.ofList (decodeChars b.length b)

theorem utf8_injective {s t : String} (h : s.utf8 = t.utf8) : s = t := by
  rw [← String.toByteArray_inj]
  exact ByteArray.ext (Array.toList_inj.mp h)

/-- Decoding undoes encoding. -/
@[simp] theorem decodeLossy_utf8 (s : String) : decodeLossy s.utf8 = s := by
  have hb : ByteArray.mk s.utf8.toArray = s.toByteArray := by simp [String.utf8]
  have hv : (ByteArray.mk s.utf8.toArray).validateUTF8 = true := by
    rw [hb]
    exact ByteArray.validateUTF8_eq_true_iff.mpr s.isValidUTF8
  apply utf8_injective
  rw [decodeLossy, dif_pos hv]
  simp [String.utf8]

/-! ## ASCII -/

def ascii (b : Bytes) : String := String.ofList (b.map fun x => Char.ofNat x.toNat)

theorem utf8EncodeChar_ascii {n : Nat} (h : n < 128) :
    utf8EncodeChar (Char.ofNat n) = [UInt8.ofNat n] := by
  have hv : (Char.ofNat n).val.toNat = n := by
    rw [Char.ofNat, dif_pos (Or.inl (by omega))]
    rfl
  simp only [utf8EncodeChar, hv]
  rw [if_pos (by omega)]

theorem utf8_ofList (l : List Char) :
    (String.ofList l).utf8 = l.flatMap utf8EncodeChar := by
  rw [String.utf8, String.toByteArray_ofList, List.utf8Encode]
  simp

variable {b : Bytes} {x : UInt8}

theorem utf8_ascii (h : ∀ x ∈ b, x.toNat < 128) : (ascii b).utf8 = b := by
  rw [ascii, utf8_ofList]
  induction b with
  | nil => rfl
  | cons x b ih =>
    rw [List.map_cons, List.flatMap_cons, utf8EncodeChar_ascii (h x (by simp)),
      ih fun y hy => h y (List.mem_cons_of_mem x hy), UInt8.ofNat_toNat]
    rfl

@[simp] theorem utf8_append (s t : String) : (s ++ t).utf8 = s.utf8 ++ t.utf8 := by
  rw [String.utf8, String.toByteArray_append]
  simp [String.utf8]

theorem decodeLossy_ascii (h : ∀ x ∈ b, x.toNat < 128) : decodeLossy b = ascii b := by
  conv_lhs => rw [← utf8_ascii h]
  rw [decodeLossy_utf8]

/-! ## The start of a decoded text -/

theorem ofNat_toNat {n : Nat} (h : n < 0xD800 ∨ 0xDFFF < n ∧ n < 0x110000) :
    (Char.ofNat n).val.toNat = n := by
  rw [Char.ofNat, dif_pos h]
  rfl

/-- The first byte of a character outside ASCII is outside ASCII. -/
theorem utf8EncodeChar_head {c : Char} (h : 128 ≤ c.val.toNat) :
    ∃ x rest, utf8EncodeChar c = x :: rest ∧ 128 ≤ x.toNat := by
  simp only [utf8EncodeChar]
  rw [if_neg (by omega)]
  split
  · refine ⟨_, _, rfl, ?_⟩
    rw [UInt8.toNat_ofNat']
    omega
  · split
    · refine ⟨_, _, rfl, ?_⟩
      rw [UInt8.toNat_ofNat']
      omega
    · refine ⟨_, _, rfl, ?_⟩
      rw [UInt8.toNat_ofNat']
      omega

theorem replacement_toNat : replacement.val.toNat = 0xFFFD := ofNat_toNat (by decide)

theorem three_bytes_toNat {y z : UInt8} (h : validSecondOfThree x y = true) :
    128 ≤ (Char.ofNat (x.toNat % 16 * 4096 + payload y * 64 + payload z)).val.toNat := by
  simp only [validSecondOfThree, isContinuation, Bool.or_eq_true, Bool.and_eq_true, beq_iff_eq,
    decide_eq_true_eq, UInt8.le_iff_toNat_le, ← UInt8.toNat_inj] at h
  simp at h
  have hvalue : x.toNat % 16 * 4096 + payload y * 64 + payload z < 0xD800 ∨
      0xDFFF < x.toNat % 16 * 4096 + payload y * 64 + payload z ∧
        x.toNat % 16 * 4096 + payload y * 64 + payload z < 0x110000 := by
    unfold payload
    omega
  rw [ofNat_toNat hvalue]
  unfold payload
  omega

theorem four_bytes_toNat {y z w : UInt8} (h : validSecondOfFour x y = true) :
    128 ≤ (Char.ofNat (x.toNat % 8 * 262144 + payload y * 4096 + payload z * 64 +
      payload w)).val.toNat := by
  simp only [validSecondOfFour, isContinuation, Bool.or_eq_true, Bool.and_eq_true, beq_iff_eq,
    decide_eq_true_eq, UInt8.le_iff_toNat_le, ← UInt8.toNat_inj] at h
  simp at h
  have hvalue : 0xDFFF <
        x.toNat % 8 * 262144 + payload y * 4096 + payload z * 64 + payload w ∧
      x.toNat % 8 * 262144 + payload y * 4096 + payload z * 64 + payload w < 0x110000 := by
    unfold payload
    omega
  rw [ofNat_toNat (Or.inr hvalue)]
  omega

/-- What decodes from a byte outside ASCII is a character outside ASCII. -/
theorem decodeOne_head (rest : Bytes) (h : ¬ x < 0x80) :
    128 ≤ (decodeOne x rest).1.val.toNat := by
  have hrep : 128 ≤ replacement.val.toNat := by rw [replacement_toNat]; omega
  fun_cases decodeOne x rest with
  | case1 => contradiction
  | case2 _ htwo y r _ =>
    obtain ⟨hlow, hhigh⟩ := htwo
    rw [UInt8.le_iff_toNat_le] at hlow hhigh
    simp at hlow hhigh
    rw [ofNat_toNat (Or.inl (by unfold payload; omega))]
    omega
  | case5 => exact three_bytes_toNat (by assumption)
  | case10 => exact four_bytes_toNat (by assumption)
  | _ => exact hrep

theorem decodeChars_take_ascii {k fuel : Nat}
    (hlength : k ≤ ((decodeChars fuel b).flatMap utf8EncodeChar).length)
    (hascii : ∀ x ∈ ((decodeChars fuel b).flatMap utf8EncodeChar).take k, x.toNat < 128) :
    b.take k = ((decodeChars fuel b).flatMap utf8EncodeChar).take k := by
  induction k generalizing fuel b with
  | zero => rfl
  | succ k ih =>
    cases fuel with
    | zero => simp [decodeChars] at hlength
    | succ fuel =>
      cases b with
      | nil => simp [decodeChars] at hlength
      | cons x rest =>
        rw [decodeChars, List.flatMap_cons] at hlength hascii ⊢
        by_cases hx : x < 0x80
        · have hn : x.toNat < 128 := UInt8.lt_iff_toNat_lt.mp hx
          have hone : decodeOne x rest = (Char.ofNat x.toNat, rest) := by
            rw [decodeOne.eq_def, if_pos hx]
          rw [hone, utf8EncodeChar_ascii hn, UInt8.ofNat_toNat] at hlength hascii ⊢
          simp only [List.cons_append, List.nil_append, List.length_cons, List.take_succ_cons,
            List.mem_cons, forall_eq_or_imp, List.cons.injEq, true_and] at hlength hascii ⊢
          exact ih (by omega) hascii.2
        · obtain ⟨y, more, hencode, hy⟩ := utf8EncodeChar_head (decodeOne_head rest hx)
          have hsmall : y.toNat < 128 := hascii y (by rw [hencode]; simp)
          omega

/-- An ASCII start of the decoded text is the start of the bytes. -/
theorem decodeLossy_take_ascii {k : Nat} (hlength : k ≤ (decodeLossy b).utf8.length)
    (hascii : ∀ x ∈ (decodeLossy b).utf8.take k, x.toNat < 128) :
    b.take k = (decodeLossy b).utf8.take k := by
  by_cases hvalid : (ByteArray.mk b.toArray).validateUTF8
  · have hsame : (decodeLossy b).utf8 = b := by
      rw [decodeLossy, dif_pos hvalid]
      simp [String.utf8]
    rw [hsame]
  · rw [decodeLossy, dif_neg hvalid, utf8_ofList] at hlength hascii ⊢
    exact decodeChars_take_ascii hlength hascii

end Utf8
