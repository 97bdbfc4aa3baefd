import Mathlib.Data.List.Basic
import Froe.Lib.Utf8

/-!
# UTF-16

The code units of a text, and a decoder that puts a replacement character in the place of an
unpaired surrogate.  A text reads back from its units, since the units of a character never
look like half of another one.
-/

namespace Utf16

/-- The UTF-16 code units of a character. -/
def charUtf16 (c : Char) : List UInt16 :=
  if c.toNat < 0x10000 then [UInt16.ofNat c.toNat]
  else
    let rest := c.toNat - 0x10000
    [UInt16.ofNat (0xD800 + rest / 0x400), UInt16.ofNat (0xDC00 + rest % 0x400)]

/-- The UTF-16 code units of a text. -/
def encodeUtf16 (text : String) : List UInt16 := text.toList.flatMap charUtf16

/-- The text of code units, with a replacement character for an unpaired surrogate. -/
def decodeUtf16 : List UInt16 → List Char
  | [] => []
  | [unit] =>
    [if 0xD800 ≤ unit ∧ unit ≤ 0xDFFF then Utf8.replacement else Char.ofNat unit.toNat]
  | unit :: next :: rest =>
    if 0xD800 ≤ unit ∧ unit ≤ 0xDBFF ∧ 0xDC00 ≤ next ∧ next ≤ 0xDFFF then
      Char.ofNat (0x10000 + (unit.toNat - 0xD800) * 0x400 + (next.toNat - 0xDC00)) ::
        decodeUtf16 rest
    else if 0xD800 ≤ unit ∧ unit ≤ 0xDFFF then Utf8.replacement :: decodeUtf16 (next :: rest)
    else Char.ofNat unit.toNat :: decodeUtf16 (next :: rest)

/-- The units of a character outside the first plane. -/
theorem charUtf16_pair {c : Char} (h : 0x10000 ≤ c.toNat) :
    ∃ unit next, charUtf16 c = [unit, next] ∧ (0xD800 ≤ unit ∧ unit ≤ 0xDBFF) ∧
      (0xDC00 ≤ next ∧ next ≤ 0xDFFF) ∧ decodeUtf16 [unit, next] = [c] := by
  have hmax : c.toNat < 0x110000 := by
    rcases c.valid with hc | hc
    · exact lt_trans hc (by decide)
    · exact hc.2
  have hhigh : (UInt16.ofNat (0xD800 + (c.toNat - 0x10000) / 0x400)).toNat =
      0xD800 + (c.toNat - 0x10000) / 0x400 := by
    rw [UInt16.toNat_ofNat']
    omega
  have hlow : (UInt16.ofNat (0xDC00 + (c.toNat - 0x10000) % 0x400)).toNat =
      0xDC00 + (c.toNat - 0x10000) % 0x400 := by
    rw [UInt16.toNat_ofNat']
    omega
  have hunit : 0xD800 ≤ UInt16.ofNat (0xD800 + (c.toNat - 0x10000) / 0x400) ∧
      UInt16.ofNat (0xD800 + (c.toNat - 0x10000) / 0x400) ≤ 0xDBFF := by
    simp only [UInt16.le_iff_toNat_le, hhigh]
    simp
    omega
  have hnext : 0xDC00 ≤ UInt16.ofNat (0xDC00 + (c.toNat - 0x10000) % 0x400) ∧
      UInt16.ofNat (0xDC00 + (c.toNat - 0x10000) % 0x400) ≤ 0xDFFF := by
    simp only [UInt16.le_iff_toNat_le, hlow]
    simp
    omega
  refine ⟨_, _, by rw [charUtf16, if_neg (by omega)], hunit, hnext, ?_⟩
  have hcode : 0x10000 + (0xD800 + (c.toNat - 0x10000) / 0x400 - 0xD800) * 0x400 +
      (0xDC00 + (c.toNat - 0x10000) % 0x400 - 0xDC00) = c.toNat := by omega
  rw [decodeUtf16, if_pos ⟨hunit.1, hunit.2, hnext⟩, hhigh, hlow, hcode, Char.ofNat_toNat,
    decodeUtf16]

/-- The unit of a character of the first plane is no surrogate. -/
theorem charUtf16_single {c : Char} (h : c.toNat < 0x10000) :
    ∃ unit, charUtf16 c = [unit] ∧ unit.toNat = c.toNat ∧ ¬ (0xD800 ≤ unit ∧ unit ≤ 0xDFFF) := by
  have hunit : (UInt16.ofNat c.toNat).toNat = c.toNat := by
    rw [UInt16.toNat_ofNat']
    omega
  refine ⟨_, by rw [charUtf16, if_pos h], hunit, ?_⟩
  simp only [UInt16.le_iff_toNat_le, hunit]
  rcases c.valid with hc | hc
  · have : c.toNat < 0xD800 := hc
    simp
    omega
  · have : 0xDFFF < c.toNat := hc.1
    simp
    omega

theorem encodeUtf16_append (first second : String) :
    encodeUtf16 (first ++ second) = encodeUtf16 first ++ encodeUtf16 second := by
  rw [encodeUtf16, String.toList_append, List.flatMap_append]
  rfl

/-- A text reads back from its code units. -/
theorem decodeUtf16_chars (chars : List Char) : decodeUtf16 (chars.flatMap charUtf16) = chars := by
  induction chars with
  | nil => rfl
  | cons c chars ih =>
    rw [List.flatMap_cons]
    rcases Nat.lt_or_ge c.toNat 0x10000 with hsmall | hlarge
    · obtain ⟨unit, hunits, hcode, hsurrogate⟩ := charUtf16_single hsmall
      have hpair : ∀ next : UInt16,
          ¬ (0xD800 ≤ unit ∧ unit ≤ 0xDBFF ∧ 0xDC00 ≤ next ∧ next ≤ 0xDFFF) :=
        fun _ h => hsurrogate ⟨h.1, UInt16.le_trans h.2.1 (by decide)⟩
      rw [hunits, List.singleton_append]
      cases hrest : chars.flatMap charUtf16 with
      | nil =>
        rw [hrest] at ih
        rw [decodeUtf16, if_neg hsurrogate, hcode, Char.ofNat_toNat, ← ih]
        rfl
      | cons next rest =>
        rw [hrest] at ih
        rw [decodeUtf16, if_neg (hpair next), if_neg hsurrogate, ih, hcode, Char.ofNat_toNat]
    · obtain ⟨unit, next, hunits, hhigh, hlow, hdecode⟩ := charUtf16_pair hlarge
      have hboth := And.intro hhigh.1 (And.intro hhigh.2 hlow)
      rw [decodeUtf16, if_pos hboth, decodeUtf16, List.cons.injEq] at hdecode
      rw [hunits, List.cons_append, List.cons_append, List.nil_append, decodeUtf16, if_pos hboth,
        hdecode.1, ih]

end Utf16
