import Froe.Lib.Bytes
import Mathlib.Data.Nat.Log

/-!
# Digits in ASCII

Numbers as ASCII digits of a base up to sixteen, as tar headers (octal) and
UUIDs and checksums (hexadecimal) hold them.  `fixed` writes a fixed number of
digits, `padded` at least a given number, and `parse` reads a digit string back.
-/

namespace Digits

/-- The ASCII character of a digit, in lower case from ten on. -/
def digitByte (d : Nat) : UInt8 := if d < 10 then UInt8.ofNat (48 + d) else UInt8.ofNat (87 + d)

/-- The digit an ASCII character stands for, when it is one below `base`. -/
def digit? (base : Nat) (c : UInt8) : Option Nat :=
  let d := if c.toNat < 58 then c.toNat - 48 else c.toNat - 87
  if (48 ≤ c.toNat ∧ c.toNat < 58 ∨ 97 ≤ c.toNat) ∧ d < base then some d else none

/-- The low `w` digits of `n`, most significant first. -/
def fixed (base : Nat) : Nat → Nat → Bytes
  | 0, _ => []
  | w + 1, n => digitByte (n / base ^ w % base) :: fixed base w n

/-- All digits of `n`, filled with zeros up to `w` of them. -/
def padded (base w n : Nat) : Bytes := fixed base (max w (Nat.log base n + 1)) n

/-- The number a digit string denotes, continued from `n`. -/
def parseFrom (base : Nat) : Nat → Bytes → Option Nat
  | n, [] => some n
  | n, c :: b => (digit? base c).bind fun d => parseFrom base (n * base + d) b

/-- The number a digit string denotes, or `none` when a character is no digit. -/
def parse (base : Nat) (b : Bytes) : Option Nat := parseFrom base 0 b

/-! ## Single digits -/

variable {d base w n : Nat} {c : UInt8} {b : Bytes}

theorem toNat_digitByte (h : d < 16) :
    (digitByte d).toNat = if d < 10 then 48 + d else 87 + d := by
  unfold digitByte
  split <;> rw [UInt8.toNat_ofNat'] <;> omega

theorem digit?_digitByte (hb : base ≤ 16) (h : d < base) :
    digit? base (digitByte d) = some d := by
  have hd := toNat_digitByte (show d < 16 by omega)
  unfold digit?
  split at hd <;> simp only [hd] <;> split <;> simp_all <;> omega

theorem digitByte_lt (h : d < 16) : (digitByte d).toNat < 128 := by
  rw [toNat_digitByte h]
  split <;> omega

/-! ## Digit strings -/

@[simp] theorem length_fixed (base w n : Nat) : (fixed base w n).length = w := by
  induction w with
  | zero => rfl
  | succ w ih => simp [fixed, ih]

theorem fixed_mem (hb : 0 < base) (h : c ∈ fixed base w n) :
    ∃ d < base, c = digitByte d := by
  induction w with
  | zero => simp [fixed] at h
  | succ w ih =>
    rcases List.mem_cons.mp h with rfl | h
    · exact ⟨_, Nat.mod_lt _ hb, rfl⟩
    · exact ih h

section

variable (hb : 0 < base) (hb' : base ≤ 16)
include hb hb'

theorem fixed_ascii (h : c ∈ fixed base w n) : c.toNat < 128 := by
  obtain ⟨d, hd, rfl⟩ := fixed_mem hb h
  exact digitByte_lt (by omega)

theorem parseFrom_fixed (w n m : Nat) :
    parseFrom base m (fixed base w n) = some (m * base ^ w + n % base ^ w) := by
  induction w generalizing m with
  | zero => simp [fixed, parseFrom, Nat.mod_one]
  | succ w ih =>
    rw [fixed, parseFrom, digit?_digitByte hb' (Nat.mod_lt _ hb), Option.bind_some, ih]
    congr 1
    rw [pow_succ, Nat.mod_mul]
    ring

theorem parse_fixed (w n : Nat) :
    parse base (fixed base w n) = some (n % base ^ w) := by
  rw [parse, parseFrom_fixed hb hb']
  simp

end

theorem parse_fixed_of_lt (hb' : base ≤ 16) (h : n < base ^ w) :
    parse base (fixed base w n) = some n := by
  rcases Nat.eq_zero_or_pos base with rfl | hb
  · rcases Nat.eq_zero_or_pos w with rfl | hw
    · simp only [pow_zero, Nat.lt_one_iff] at h
      simp [parse, fixed, parseFrom, h]
    · rw [zero_pow (by omega)] at h
      omega
  · rw [parse_fixed hb hb', Nat.mod_eq_of_lt h]

/-- Every character of a digit string is a digit. -/
theorem parse_mem (h : parse base b = some n) (hc : c ∈ b) : ∃ d, digit? base c = some d := by
  rw [parse] at h
  generalize 0 = start at h
  induction b generalizing start with
  | nil => cases hc
  | cons x b ih =>
    rw [parseFrom, Option.bind_eq_some_iff] at h
    obtain ⟨d, hd, hrest⟩ := h
    rcases List.mem_cons.mp hc with rfl | hc
    · exact ⟨d, hd⟩
    · exact ih hc _ hrest

/-- A hexadecimal digit is a printable character of ASCII. -/
theorem digit?_range (h : digit? 16 c = some d) :
    48 ≤ c.toNat ∧ c.toNat < 128 := by
  simp only [digit?, Option.ite_none_right_eq_some] at h
  obtain ⟨⟨hrange, hdigit⟩, _⟩ := h
  split at hdigit <;> omega

/-- A number that fits in the padding is written with exactly that many digits. -/
theorem padded_of_lt (hw : 0 < w) (h : n < base ^ w) :
    padded base w n = fixed base w n := by
  have hlog : Nat.log base n < w := Nat.log_lt_of_lt_pow' (by omega) h
  rw [padded, max_eq_left (by omega)]

/-! ## What a digit string denotes -/

/-- A digit has one character. -/
theorem digitByte_of_digit? (hb : base ≤ 16)
    (h : digit? base c = some d) : d < base ∧ c = digitByte d := by
  simp only [digit?, Option.ite_none_right_eq_some, Option.some.injEq] at h
  obtain ⟨⟨hrange, hlt⟩, hd⟩ := h
  rw [hd] at hlt
  refine ⟨hlt, UInt8.toNat_inj.mp ?_⟩
  rw [toNat_digitByte (by omega)]
  split at hd <;> split <;> omega

theorem fixed_mod {w' : Nat} (hw : w ≤ w') (n : Nat) :
    fixed base w (n % base ^ w') = fixed base w n := by
  induction w with
  | zero => rfl
  | succ w ih =>
    have hdigit : n % base ^ w' / base ^ w % base = n / base ^ w % base := by
      obtain ⟨k, rfl⟩ : ∃ k, w' = w + (k + 1) := ⟨w' - w - 1, by omega⟩
      rw [pow_add, Nat.mod_mul_right_div_self, Nat.mod_mod_of_dvd]
      exact Dvd.intro_left (base ^ k) rfl
    rw [fixed, fixed, hdigit, ih (by omega)]

/-- What parses is the number written with that many digits. -/
theorem fixed_of_parseFrom {m : Nat} (hb : base ≤ 16) (h : parseFrom base m b = some n) :
    ∃ k < base ^ b.length, n = m * base ^ b.length + k ∧ b = fixed base b.length k := by
  induction b generalizing m with
  | nil =>
    cases h
    exact ⟨0, by simp, by simp, rfl⟩
  | cons c b ih =>
    rw [parseFrom, Option.bind_eq_some_iff] at h
    obtain ⟨d, hd, hrest⟩ := h
    obtain ⟨hlt, rfl⟩ := digitByte_of_digit? hb hd
    obtain ⟨k, hk, rfl, hfixed⟩ := ih hrest
    have hhigh : (d * base ^ b.length + k) / base ^ b.length = d := by
      rw [Nat.mul_comm, Nat.mul_add_div (by omega), Nat.div_eq_of_lt hk, Nat.add_zero]
    have hlow : (d * base ^ b.length + k) % base ^ b.length = k := by
      rw [Nat.mul_comm, Nat.mul_add_mod, Nat.mod_eq_of_lt hk]
    refine ⟨d * base ^ b.length + k, ?_, by rw [List.length_cons]; ring, ?_⟩
    · calc d * base ^ b.length + k < (d + 1) * base ^ b.length := by rw [Nat.succ_mul]; omega
        _ ≤ base * base ^ b.length := Nat.mul_le_mul_right _ hlt
        _ = base ^ (digitByte d :: b).length := by rw [List.length_cons, pow_succ']
    · rw [List.length_cons, fixed, hhigh, Nat.mod_eq_of_lt hlt, ← fixed_mod le_rfl, hlow, ← hfixed]

theorem fixed_of_parse (hb : base ≤ 16) (h : parse base b = some n) :
    n < base ^ b.length ∧ b = fixed base b.length n := by
  obtain ⟨k, hk, hn, hfixed⟩ := fixed_of_parseFrom hb h
  rw [Nat.zero_mul, Nat.zero_add] at hn
  rw [hn]
  exact ⟨hk, hfixed⟩

section

variable (hb : 1 < base) (hb' : base ≤ 16)
include hb hb'

theorem parse_padded (w n : Nat) :
    parse base (padded base w n) = some n := by
  rw [padded]
  refine parse_fixed_of_lt hb' ?_
  exact lt_of_lt_of_le (Nat.lt_pow_succ_log_self hb n) (Nat.pow_le_pow_right (by omega)
    (le_max_right _ _))

theorem padded_inj {w n m : Nat} (h : padded base w n = padded base w m) : n = m := by
  have hparse := parse_padded hb hb' w n
  rw [h, parse_padded hb hb'] at hparse
  exact (Option.some.inj hparse).symm

/-- The bytes of a padded number are digits. -/
theorem not_mem_padded {x : UInt8} {w n : Nat} (hx : digit? base x = none) :
    x ∉ padded base w n := by
  intro hmem
  obtain ⟨digit, hdigit⟩ := parse_mem (parse_padded hb hb' w n) hmem
  rw [hx] at hdigit
  cases hdigit

/-- A digit string of at least `w` digits that has no leading zero beyond them is the
padded number. -/
theorem padded_of_parse
    (hw : 0 < w) (hlength : w ≤ b.length) (hzero : w < b.length → b.head? ≠ some 48)
    (h : parse base b = some n) : b = padded base w n := by
  obtain ⟨hlt, hfixed⟩ := fixed_of_parse hb' h
  rcases Nat.lt_or_eq_of_le hlength with hlong | hexact
  · -- the first digit is not zero, so that the number has as many digits as the string
    obtain ⟨l, hl⟩ : ∃ l, b.length = l + 1 := ⟨b.length - 1, by omega⟩
    have hdigit : n / base ^ l ≠ 0 := by
      intro hnone
      refine hzero hlong ?_
      rw [hfixed, hl, fixed, hnone, Nat.zero_mod]
      rfl
    have hn : n ≠ 0 := by
      rintro rfl
      exact hdigit (Nat.zero_div _)
    have hpow : base ^ l ≤ n := by
      by_contra hsmall
      exact hdigit (Nat.div_eq_of_lt (by omega))
    have hlog : Nat.log base n = l :=
      (Nat.log_eq_iff (Or.inr ⟨hb, hn⟩)).mpr ⟨hpow, by rw [← hl]; exact hlt⟩
    rw [padded, hlog, max_eq_right (by omega), ← hl]
    exact hfixed
  · rw [hexact, padded_of_lt (by omega) hlt]
    exact hfixed

/-- A padded number has no leading zero beyond the padding. -/
theorem padded_head (hw : 0 < w)
    (hlength : w < (padded base w n).length) : (padded base w n).head? ≠ some 48 := by
  rw [padded, length_fixed] at hlength
  have hmax : max w (Nat.log base n + 1) = Nat.log base n + 1 := by omega
  have hn : n ≠ 0 := by
    rintro rfl
    rw [Nat.log_zero_right] at hlength
    omega
  have hdigit : 0 < n / base ^ Nat.log base n :=
    Nat.div_pos (Nat.pow_log_le_self base hn) (Nat.pow_pos (by omega))
  have hsmall : n / base ^ Nat.log base n < base := by
    rw [Nat.div_lt_iff_lt_mul (Nat.pow_pos (by omega)), ← pow_succ']
    exact Nat.lt_pow_succ_log_self hb n
  rw [padded, hmax, fixed, Nat.mod_eq_of_lt hsmall, List.head?_cons]
  intro h
  have hbyte := congrArg UInt8.toNat (Option.some.inj h)
  rw [toNat_digitByte (by omega)] at hbyte
  split at hbyte
  · have : (48 : UInt8).toNat = 48 := rfl
    omega
  · have : (48 : UInt8).toNat = 48 := rfl
    omega

end

end Digits
