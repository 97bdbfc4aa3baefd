import Froe.Lib.Utf8

/-!
# Lossy decoding and separators

Lossy decoding never touches an ASCII byte: it decodes what stands before and
behind one separately (`utf8_decodeLossy_append`).  So a text can be split at
ASCII separators before or after it is decoded (`splitOnP_decodeLossy`), and a
parser of ASCII texts reads the same from the bytes (`parse_decodeLossy`).
-/

namespace Utf8

open List (cons_append length_cons)
open UInt8 (le_iff_toNat_le lt_iff_toNat_lt toNat_ofNat')
open String (utf8EncodeChar)

/-! ## Valid texts -/

/-- Whether some bytes are a text. -/
def isValid (b : Bytes) : Bool := (ByteArray.mk b.toArray).validateUTF8

variable {b : Bytes} {y x c : UInt8} {n fuel : Nat}

theorem utf8_decodeLossy_of_isValid (h : isValid b = true) :
    (decodeLossy b).utf8 = b := by
  have hvalid : (ByteArray.mk b.toArray).validateUTF8 = true := h
  rw [decodeLossy, dif_pos hvalid]
  simp [String.utf8]

theorem isValid_utf8 (s : String) : isValid s.utf8 = true := by
  have hbytes : ByteArray.mk s.utf8.toArray = s.toByteArray := by simp [String.utf8]
  rw [isValid, hbytes]
  exact ByteArray.validateUTF8_eq_true_iff.mpr s.isValidUTF8

theorem isValid_of_ascii (h : ∀ x ∈ b, x.toNat < 128) : isValid b = true := by
  rw [← utf8_ascii h]
  exact isValid_utf8 _

/-! ## Single characters -/

/-- The bytes of a character outside ASCII are outside ASCII. -/
theorem utf8EncodeChar_high {c : Char} (h : 128 ≤ c.val.toNat) :
    ∀ x ∈ utf8EncodeChar c, 128 ≤ x.toNat := by
  simp only [utf8EncodeChar]
  rw [if_neg (by omega)]
  split
  · simp only [List.mem_cons, List.not_mem_nil, or_false, forall_eq_or_imp, forall_eq,
      toNat_ofNat']
    omega
  · split
    · simp only [List.mem_cons, List.not_mem_nil, or_false, forall_eq_or_imp, forall_eq,
        toNat_ofNat']
      omega
    · simp only [List.mem_cons, List.not_mem_nil, or_false, forall_eq_or_imp, forall_eq,
        toNat_ofNat']
      omega

theorem char_range (c : Char) :
    c.val.toNat < 0xD800 ∨ 0xDFFF < c.val.toNat ∧ c.val.toNat < 0x110000 := c.valid

theorem char_ofNat (c : Char) : Char.ofNat c.val.toNat = c := by
  refine Char.ext (UInt32.toNat_inj.mp ?_)
  exact ofNat_toNat (char_range c)

theorem isContinuation_of_toNat {k : Nat} (hk : k < 64) (hy : y.toNat = k + 0x80) :
    isContinuation y = true := by
  rw [isContinuation, Bool.and_eq_true, decide_eq_true_eq, decide_eq_true_eq,
    le_iff_toNat_le, le_iff_toNat_le, hy]
  exact ⟨Nat.le_add_left _ _, by simp; omega⟩

/-- A byte below the continuation bytes continues nothing. -/
theorem not_continuation (h : y.toNat < 128) : isContinuation y = false := by
  rw [isContinuation, Bool.and_eq_false_iff, decide_eq_false_iff_not, le_iff_toNat_le]
  exact .inl (by simp; omega)

theorem not_validSecondOfThree (h : y.toNat < 128) :
    validSecondOfThree x y = false := by
  have hlow : ¬ (0xA0 : UInt8) ≤ y := by rw [le_iff_toNat_le]; simp; omega
  have hlow' : ¬ (0x80 : UInt8) ≤ y := by rw [le_iff_toNat_le]; simp; omega
  simp [validSecondOfThree, not_continuation h, hlow, hlow']

theorem not_validSecondOfFour (h : y.toNat < 128) :
    validSecondOfFour x y = false := by
  have hlow : ¬ (0x90 : UInt8) ≤ y := by rw [le_iff_toNat_le]; simp; omega
  have hlow' : ¬ (0x80 : UInt8) ≤ y := by rw [le_iff_toNat_le]; simp; omega
  simp [validSecondOfFour, not_continuation h, hlow, hlow']

variable (rest : Bytes)

theorem decodeOne_ascii (h : x.toNat < 128) :
    decodeOne x rest = (Char.ofNat x.toNat, rest) := by
  rw [decodeOne.eq_def, if_pos (lt_iff_toNat_lt.mpr h)]

theorem decodeOne_two (hlow : 0x80 ≤ n) (hhigh : n ≤ 0x7FF)
    (hx : x.toNat = n / 64 + 0xC0) (hy : y.toNat = n % 64 + 0x80) :
    decodeOne x (y :: rest) = (Char.ofNat n, rest) := by
  have hvalue : x.toNat % 32 * 64 + payload y = n := by
    rw [payload, hx, hy]
    omega
  rw [decodeOne.eq_def, if_neg (by rw [lt_iff_toNat_lt, hx]; simp),
    if_pos (by rw [le_iff_toNat_le, le_iff_toNat_le, hx]; simp; omega)]
  dsimp only
  rw [if_pos (isContinuation_of_toNat (Nat.mod_lt _ (by decide)) hy), hvalue]

theorem decodeOne_three {z : UInt8} (hlow : 0x800 ≤ n)
    (hhigh : n ≤ 0xFFFF) (hrange : n < 0xD800 ∨ 0xDFFF < n)
    (hx : x.toNat = n / 4096 + 0xE0) (hy : y.toNat = n / 64 % 64 + 0x80)
    (hz : z.toNat = n % 64 + 0x80) :
    decodeOne x (y :: z :: rest) = (Char.ofNat n, rest) := by
  have hvalue : x.toNat % 16 * 4096 + payload y * 64 + payload z = n := by
    rw [payload, payload, hx, hy, hz]
    omega
  have hsecond : validSecondOfThree x y = true := by
    simp only [validSecondOfThree, isContinuation, Bool.or_eq_true, Bool.and_eq_true, beq_iff_eq,
      decide_eq_true_eq, le_iff_toNat_le, ← UInt8.toNat_inj, hx, hy]
    simp
    omega
  rw [decodeOne.eq_def, if_neg (by rw [lt_iff_toNat_lt, hx]; simp),
    if_neg (by rw [le_iff_toNat_le, le_iff_toNat_le, hx]; simp),
    if_pos (by rw [le_iff_toNat_le, le_iff_toNat_le, hx]; simp; omega)]
  dsimp only
  rw [if_pos hsecond, if_pos (isContinuation_of_toNat (Nat.mod_lt _ (by decide)) hz), hvalue]

theorem decodeOne_four {z w : UInt8} (hlow : 0x10000 ≤ n)
    (hhigh : n < 0x110000) (hx : x.toNat = n / 262144 + 0xF0) (hy : y.toNat = n / 4096 % 64 + 0x80)
    (hz : z.toNat = n / 64 % 64 + 0x80) (hw : w.toNat = n % 64 + 0x80) :
    decodeOne x (y :: z :: w :: rest) = (Char.ofNat n, rest) := by
  have hvalue : x.toNat % 8 * 262144 + payload y * 4096 + payload z * 64 + payload w = n := by
    rw [payload, payload, payload, hx, hy, hz, hw]
    omega
  have hsecond : validSecondOfFour x y = true := by
    simp only [validSecondOfFour, isContinuation, Bool.or_eq_true, Bool.and_eq_true, beq_iff_eq,
      decide_eq_true_eq, le_iff_toNat_le, ← UInt8.toNat_inj, hx, hy]
    simp
    omega
  rw [decodeOne.eq_def, if_neg (by rw [lt_iff_toNat_lt, hx]; simp),
    if_neg (by rw [le_iff_toNat_le, le_iff_toNat_le, hx]; simp),
    if_neg (by rw [le_iff_toNat_le, le_iff_toNat_le, hx]; simp),
    if_pos (by rw [le_iff_toNat_le, le_iff_toNat_le, hx]; simp; omega)]
  dsimp only
  rw [if_pos hsecond, if_pos (isContinuation_of_toNat (Nat.mod_lt _ (by decide)) hz),
    if_pos (isContinuation_of_toNat (Nat.mod_lt _ (by decide)) hw), hvalue]

theorem decodeOne_encode (c : Char) (rest : Bytes) :
    ∃ x tail, utf8EncodeChar c = x :: tail ∧ decodeOne x (tail ++ rest) = (c, rest) := by
  have hrange := char_range c
  have hchar := char_ofNat c
  obtain ⟨n, hn⟩ : ∃ n, n = c.val.toNat := ⟨_, rfl⟩
  simp only [utf8EncodeChar]
  rw [← hn] at hrange hchar ⊢
  split
  · refine ⟨_, _, rfl, ?_⟩
    have hbyte : (UInt8.ofNat n).toNat = n := by rw [toNat_ofNat']; omega
    rw [List.nil_append, decodeOne_ascii _ (by omega), hbyte, hchar]
  · split
    · refine ⟨_, _, rfl, ?_⟩
      refine (decodeOne_two (n := n) rest (by omega) (by omega) ?_ ?_).trans (by rw [hchar])
      all_goals
        rw [toNat_ofNat']
        omega
    · split
      · refine ⟨_, _, rfl, ?_⟩
        refine (decodeOne_three (n := n) rest (by omega) (by omega) (by omega) ?_ ?_ ?_).trans
          (by rw [hchar])
        all_goals
          rw [toNat_ofNat']
          omega
      · refine ⟨_, _, rfl, ?_⟩
        refine (decodeOne_four (n := n) rest (by omega) (by omega) ?_ ?_ ?_ ?_).trans
          (by rw [hchar])
        all_goals
          rw [toNat_ofNat']
          omega

section

variable (x : UInt8) (rest : Bytes)

/-- What is left behind a character. -/
theorem length_decodeOne :
    (decodeOne x rest).2.length ≤ rest.length := by
  fun_cases decodeOne x rest with
  | _ => simp <;> omega

theorem suffix_decodeOne : (decodeOne x rest).2 <:+ rest := by
  fun_cases decodeOne x rest with
  | case5 => exact (List.suffix_cons _ _).trans (List.suffix_cons _ _)
  | case10 =>
    exact ((List.suffix_cons _ _).trans (List.suffix_cons _ _)).trans (List.suffix_cons _ _)
  | case11 => exact (List.suffix_cons _ _).trans (List.suffix_cons _ _)
  | _ => simp

/-- An ASCII byte behind a character is not looked at. -/
theorem decodeOne_append (hc : c.toNat < 128) (behind : Bytes) :
    decodeOne x (rest ++ c :: behind) =
      ((decodeOne x rest).1, (decodeOne x rest).2 ++ c :: behind) := by
  have hcontinuation := not_continuation hc
  have hthree : validSecondOfThree x c = false := not_validSecondOfThree hc
  have hfour : validSecondOfFour x c = false := not_validSecondOfFour hc
  fun_cases decodeOne x rest with
  | _ => simp [decodeOne.eq_def, *]

end

/-! ## Whole texts -/

/-- More fuel than bytes changes nothing. -/
theorem decodeChars_fuel {fuel fuel' : Nat} {b : Bytes} (h : b.length ≤ fuel)
    (h' : b.length ≤ fuel') : decodeChars fuel b = decodeChars fuel' b := by
  induction fuel generalizing fuel' b with
  | zero =>
    obtain rfl := List.length_eq_zero_iff.mp (Nat.le_zero.mp h)
    cases fuel' <;> rfl
  | succ fuel ih =>
    cases b with
    | nil => cases fuel' <;> rfl
    | cons x rest =>
      cases fuel' with
      | zero => exact absurd h' (Nat.not_succ_le_zero _)
      | succ fuel' =>
        have hle := length_decodeOne x rest
        rw [length_cons] at h h'
        rw [decodeChars, decodeChars, @ih fuel' _ (by omega) (by omega)]

theorem decodeChars_encode (l : List Char) (h : (l.flatMap utf8EncodeChar).length ≤ fuel) :
    decodeChars fuel (l.flatMap utf8EncodeChar) = l := by
  induction l generalizing fuel with
  | nil => cases fuel <;> rfl
  | cons c l ih =>
    obtain ⟨x, tail, hencode, hdecode⟩ := decodeOne_encode c (l.flatMap utf8EncodeChar)
    rw [List.flatMap_cons, hencode, cons_append] at h ⊢
    cases fuel with
    | zero => exact absurd h (Nat.not_succ_le_zero _)
    | succ fuel =>
      rw [length_cons, List.length_append] at h
      rw [decodeChars, hdecode, ih (by omega)]

/-- The decoded text, character by character. -/
theorem utf8_decodeLossy (b : Bytes) :
    (decodeLossy b).utf8 = (decodeChars b.length b).flatMap utf8EncodeChar := by
  by_cases hvalid : isValid b = true
  · obtain ⟨l, hl⟩ : ∃ l, (decodeLossy b) = String.ofList l := ⟨_, (String.ofList_toList).symm⟩
    have hbytes : b = l.flatMap utf8EncodeChar := by
      rw [← utf8_ofList, ← hl, utf8_decodeLossy_of_isValid hvalid]
    rw [utf8_decodeLossy_of_isValid hvalid]
    conv_rhs => rw [hbytes, decodeChars_encode l le_rfl]
    exact hbytes
  · have hvalid : ¬ (ByteArray.mk b.toArray).validateUTF8 = true := hvalid
    rw [decodeLossy, dif_neg hvalid, utf8_ofList]

/-! ## Separators -/

theorem decodeChars_append {fuel' : Nat} (a : Bytes) (hc : c.toNat < 128)
    (b : Bytes) (hfuel : (a ++ c :: b).length ≤ fuel) (hfuel' : b.length ≤ fuel') :
    decodeChars fuel (a ++ c :: b) =
      decodeChars a.length a ++ Char.ofNat c.toNat :: decodeChars fuel' b := by
  induction hn : a.length using Nat.strong_induction_on generalizing a fuel with
  | _ n ih =>
    cases a with
    | nil =>
      cases fuel with
      | zero => exact absurd hfuel (Nat.not_succ_le_zero _)
      | succ fuel =>
        subst hn
        rw [List.nil_append, length_cons] at hfuel
        rw [List.nil_append, decodeChars, decodeOne_ascii b hc]
        dsimp only
        rw [decodeChars_fuel (by omega) hfuel']
        rfl
    | cons x rest =>
      cases fuel with
      | zero => exact absurd hfuel (Nat.not_succ_le_zero _)
      | succ fuel =>
        have hle := length_decodeOne x rest
        rw [length_cons] at hn
        rw [cons_append, length_cons, List.length_append, length_cons] at hfuel
        rw [cons_append, decodeChars, decodeOne_append x rest hc b, ← hn]
        dsimp only
        rw [ih _ (by omega) (decodeOne x rest).2
          (by rw [List.length_append, length_cons]; omega) rfl, decodeChars,
          @decodeChars_fuel _ rest.length _ le_rfl (by omega), cons_append]

/-- What stands before and behind an ASCII byte is decoded by itself. -/
theorem utf8_decodeLossy_append (a : Bytes) (hc : c.toNat < 128) (b : Bytes) :
    (decodeLossy (a ++ c :: b)).utf8 = (decodeLossy a).utf8 ++ c :: (decodeLossy b).utf8 := by
  rw [utf8_decodeLossy, utf8_decodeLossy, utf8_decodeLossy,
    decodeChars_append a hc b le_rfl le_rfl, List.flatMap_append, List.flatMap_cons,
    utf8EncodeChar_ascii hc, UInt8.ofNat_toNat]
  rfl

/-- The ASCII bytes of a decoded text are in the bytes. -/
theorem mem_of_mem_decodeChars (hc : c.toNat < 128)
    (h : c ∈ (decodeChars fuel b).flatMap utf8EncodeChar) : c ∈ b := by
  induction fuel generalizing b with
  | zero => cases h
  | succ fuel ih =>
    cases b with
    | nil => cases h
    | cons x rest =>
      rw [decodeChars, List.flatMap_cons, List.mem_append] at h
      by_cases hx : x < 0x80
      · have hascii : x.toNat < 128 := lt_iff_toNat_lt.mp hx
        rw [decodeOne_ascii rest hascii, utf8EncodeChar_ascii hascii, UInt8.ofNat_toNat,
          List.mem_singleton] at h
        rcases h with rfl | h
        · exact List.mem_cons_self ..
        · exact List.mem_cons_of_mem _ (ih h)
      · rcases h with h | h
        · exact absurd (utf8EncodeChar_high (decodeOne_head rest hx) c h) (by omega)
        · exact List.mem_cons_of_mem _ (suffix_decodeOne x rest |>.subset (ih h))

theorem mem_of_mem_decodeLossy (hc : c.toNat < 128) (h : c ∈ (decodeLossy b).utf8) : c ∈ b := by
  rw [utf8_decodeLossy] at h
  exact mem_of_mem_decodeChars hc h

/-- A text can be split at ASCII separators before it is decoded. -/
theorem splitOnP_decodeLossy {p : UInt8 → Bool} (hp : ∀ c, p c = true → c.toNat < 128) (b : Bytes) :
    (decodeLossy b).utf8.splitOnP p = (b.splitOnP p).map fun part => (decodeLossy part).utf8 := by
  induction hn : b.length using Nat.strong_induction_on generalizing b with
  | _ n ih =>
    by_cases hfound : ∃ c ∈ b, p c = true
    · obtain ⟨c, hmem, hc⟩ := hfound
      obtain ⟨before, behind, rfl⟩ := List.append_of_mem hmem
      rw [List.length_append, length_cons] at hn
      rw [utf8_decodeLossy_append before (hp c hc) behind, List.splitOnP_append_cons _ _ hc,
        List.splitOnP_append_cons _ _ hc, List.map_append, ih _ (by omega) before rfl,
        ih _ (by omega) behind rfl]
    · have hnone : ∀ c ∈ b, p c = false := fun c hmem =>
        Bool.eq_false_iff.mpr fun hc => hfound ⟨c, hmem, hc⟩
      have hdecoded : ∀ c ∈ (decodeLossy b).utf8, p c = false := fun c hmem =>
        Bool.eq_false_iff.mpr fun hc => hfound ⟨c, mem_of_mem_decodeLossy (hp c hc) hmem, hc⟩
      rw [List.splitOnP_eq_singleton hnone, List.splitOnP_eq_singleton hdecoded]
      rfl

/-! ## Parsers of ASCII texts -/

theorem ascii_of_decodeChars (hfuel : b.length ≤ fuel)
    (h : ∀ x ∈ (decodeChars fuel b).flatMap utf8EncodeChar, x.toNat < 128) :
    ∀ x ∈ b, x.toNat < 128 := by
  induction fuel generalizing b with
  | zero =>
    obtain rfl := List.length_eq_zero_iff.mp (Nat.le_zero.mp hfuel)
    nofun
  | succ fuel ih =>
    cases b with
    | nil => nofun
    | cons x rest =>
      rw [decodeChars, List.flatMap_cons] at h
      by_cases hx : x < 0x80
      · have hascii : x.toNat < 128 := lt_iff_toNat_lt.mp hx
        rw [decodeOne_ascii rest hascii] at h
        rw [List.forall_mem_cons]
        rw [length_cons] at hfuel
        exact ⟨hascii, ih (by omega) fun y hy => h y (List.mem_append_right _ hy)⟩
      · obtain ⟨y, more, hencode, hy⟩ := utf8EncodeChar_head (decodeOne_head rest hx)
        have hsmall : y.toNat < 128 := h y (by rw [hencode]; simp)
        omega

/-- A parser that takes ASCII texts only reads the same from the bytes, if they are a text. -/
theorem parse_decodeLossy {α : Type} {f : Bytes → Option α}
    (hf : ∀ b a, f b = some a → ∀ x ∈ b, x.toNat < 128) (b : Bytes) :
    f (decodeLossy b).utf8 = if isValid b = true then f b else none := by
  split
  · rename_i hvalid
    rw [utf8_decodeLossy_of_isValid hvalid]
  · rename_i hinvalid
    cases hresult : f (decodeLossy b).utf8 with
    | none => rfl
    | some a =>
      have hascii := hf _ a hresult
      rw [utf8_decodeLossy] at hascii
      exact absurd (isValid_of_ascii (ascii_of_decodeChars le_rfl hascii)) hinvalid

end Utf8
