import Froe.Lib.Bytes
import Froe.Lib.Positional

/-!
# Numeric terms

`index/lucene/analysis/numeric.rs` writes a number as one term for every fourth shift: a byte
for the shift, and what is left of the number's sortable bits in groups of seven.  The sortable
bits are the number with its sign flipped, so that a level of terms is ordered as the quotients
by its power of two are.
-/

namespace Froe

namespace Numeric

open Positional

/-- `NumericUtils.PRECISION_STEP_DEFAULT`. -/
def precisionStep : Nat := 4

/-- `NumericUtils.SHIFT_START_LONG`. -/
def shiftStartLong : UInt8 := 0x20

/-- `NumericUtils.SHIFT_START_INT`. -/
def shiftStartInt : UInt8 := 0x60

structure NumericTerm where
  bytes : Bytes
  positionIncrement : Nat
deriving DecidableEq, Repr

/-- The groups of `prefix_coded`, filled from the end. -/
def groups : Nat → UInt64 → Bytes
  | 0, _ => []
  | count + 1, remaining => groups count (remaining >>> 7) ++ [(remaining &&& 0x7f).toUInt8]

/-- `NumericUtils.longToPrefixCodedBytes`. -/
def prefixCoded (highestBit : Nat) (shiftStart : UInt8) (sortable : UInt64) (shift : Nat) : Bytes :=
  let groupCount := (highestBit - shift) / 7 + 1
  (shiftStart + UInt8.ofNat shift) :: groups groupCount (sortable >>> UInt64.ofNat shift)

/-- The loop of `terms` over the shifts. -/
def termsFrom (highestBit : Nat) (shiftStart : UInt8) (sortable : UInt64) (shift : Nat)
    (produced : List NumericTerm) : List NumericTerm :=
  if shift ≤ highestBit then
    termsFrom highestBit shiftStart sortable (shift + precisionStep)
      (produced ++ [{
        bytes := prefixCoded highestBit shiftStart sortable shift
        positionIncrement := if produced.isEmpty then 1 else 0 }])
  else produced
termination_by highestBit + 1 - shift
decreasing_by
  simp only [precisionStep]
  omega

/-- The shift levels of one value in its sortable form. -/
def terms (highestBit : Nat) (shiftStart : UInt8) (sortable : UInt64) : List NumericTerm :=
  termsFrom highestBit shiftStart sortable 0 []

/-- Every term of a `LongField`. -/
def longTerms (value : Int64) : List NumericTerm :=
  terms 63 shiftStartLong (value ^^^ Int64.minValue).toUInt64

/-- Every term of an `IntField`, whose sortable bits are 32 wide. -/
def integerTerms (value : Int32) : List NumericTerm :=
  terms 31 shiftStartInt (value ^^^ Int32.minValue).toUInt32.toUInt64

/-! ## The terms of one value -/

theorem termsFrom_eq (highestBit : Nat) (shiftStart : UInt8) (sortable : UInt64) (level : Nat)
    (produced : List NumericTerm) (hproduced : produced.isEmpty = decide (level = 0)) :
    termsFrom highestBit shiftStart sortable (precisionStep * level) produced =
      produced ++ (List.range' level (highestBit / precisionStep + 1 - level)).map fun level =>
        { bytes := prefixCoded highestBit shiftStart sortable (precisionStep * level)
          positionIncrement := if level = 0 then 1 else 0 } := by
  induction hleft : highestBit / precisionStep + 1 - level generalizing level produced with
  | zero =>
    rw [termsFrom, if_neg (by simp only [precisionStep] at hleft ⊢; omega)]
    exact (List.append_nil produced).symm
  | succ left ih =>
    have hnext := ih (level + 1) (produced ++ [{
        bytes := prefixCoded highestBit shiftStart sortable (precisionStep * level)
        positionIncrement := if produced.isEmpty then 1 else 0 }])
      (by
        rw [decide_eq_false (Nat.succ_ne_zero level), List.isEmpty_eq_false_iff]
        exact List.append_ne_nil_of_right_ne_nil _ (List.cons_ne_nil _ _))
      (by omega)
    rw [termsFrom, if_pos (by simp only [precisionStep] at hleft ⊢; omega), ← Nat.mul_succ, hnext,
      hproduced, List.append_assoc, List.range'_succ, List.map_cons]
    simp only [decide_eq_true_eq, List.singleton_append]

/-- The terms of a value, level by level. -/
theorem terms_eq (highestBit : Nat) (shiftStart : UInt8) (sortable : UInt64) :
    terms highestBit shiftStart sortable =
      (List.range (highestBit / precisionStep + 1)).map fun level =>
        { bytes := prefixCoded highestBit shiftStart sortable (precisionStep * level)
          positionIncrement := if level = 0 then 1 else 0 } := by
  have hall := termsFrom_eq highestBit shiftStart sortable 0 [] rfl
  rwa [Nat.mul_zero, List.nil_append, Nat.sub_zero, ← List.range_eq_range'] at hall

/-- The groups are the digits of the number to the base 128. -/
theorem groups_eq (count : Nat) (remaining : UInt64) :
    groups count remaining = spelled UInt8.ofNat 128 count remaining.toNat := by
  induction count generalizing remaining with
  | zero => rfl
  | succ count ih =>
    have hshift : (remaining >>> 7).toNat = remaining.toNat / 128 := by
      rw [UInt64.toNat_shiftRight]
      exact Nat.shiftRight_eq_div_pow remaining.toNat 7
    have hlow : (remaining &&& 0x7f).toUInt8 = UInt8.ofNat (remaining.toNat % 128) := by
      refine UInt8.toNat_inj.mp ?_
      rw [UInt64.toNat_toUInt8, UInt64.toNat_and, UInt8.toNat_ofNat']
      exact congrArg (· % 2 ^ 8) (Nat.and_two_pow_sub_one_eq_mod remaining.toNat 7)
    rw [groups, spelled, ih, hshift, hlow]

/-! ## Order -/

theorem digit_inj (a b : Nat) (ha : a < 128) (hb : b < 128) (h : UInt8.ofNat a = UInt8.ofNat b) :
    a = b := by
  have htoNat := congrArg UInt8.toNat h
  rw [UInt8.toNat_ofNat', UInt8.toNat_ofNat'] at htoNat
  omega

theorem digit_lt_iff (a b : Nat) (ha : a < 128) (hb : b < 128) :
    UInt8.ofNat a < UInt8.ofNat b ↔ a < b := by
  rw [UInt8.lt_iff_toNat_lt, UInt8.toNat_ofNat', UInt8.toNat_ofNat']
  omega

/-- Two byte strings compare as two numbers do. -/
structure ComparesAs (x y : Bytes) (m n : Int) : Prop where
  less : x < y ↔ m < n
  equal : x = y ↔ m = n
  greater : y < x ↔ n < m

variable {highestBit level : Nat} {term : NumericTerm}

/-- At one shift, the bytes of two values compare as what is left of them. -/
theorem prefixCoded_comparesAs {shift : Nat} (shiftStart : UInt8) {a b : UInt64}
    (hshift : shift ≤ highestBit) (hbits : highestBit < 64) (ha : a.toNat < 2 ^ (highestBit + 1))
    (hb : b.toNat < 2 ^ (highestBit + 1)) :
    ComparesAs (prefixCoded highestBit shiftStart a shift) (prefixCoded highestBit shiftStart b shift)
      (a.toNat / 2 ^ shift : Nat) (b.toNat / 2 ^ shift : Nat) := by
  have hof : (UInt64.ofNat shift).toNat = shift := by
    rw [UInt64.toNat_ofNat']
    omega
  have hleft : ∀ c : UInt64, (c >>> UInt64.ofNat shift).toNat = c.toNat / 2 ^ shift := by
    intro c
    rw [UInt64.toNat_shiftRight, hof, Nat.mod_eq_of_lt (by omega), Nat.shiftRight_eq_div_pow]
  have hroom : ∀ c : UInt64, c.toNat < 2 ^ (highestBit + 1) →
      c.toNat / 2 ^ shift < 128 ^ ((highestBit - shift) / 7 + 1) := by
    intro c hc
    have hbase : (128 : Nat) ^ ((highestBit - shift) / 7 + 1) =
        2 ^ (7 * ((highestBit - shift) / 7 + 1)) := (pow_mul 2 7 _).symm
    rw [hbase]
    refine Nat.div_lt_of_lt_mul (Nat.lt_of_lt_of_le hc ?_)
    rw [← pow_add]
    exact Nat.pow_le_pow_right (by decide) (by omega)
  have hgroups : ∀ c : UInt64, prefixCoded highestBit shiftStart c shift =
      (shiftStart + UInt8.ofNat shift) ::
        spelled UInt8.ofNat 128 ((highestBit - shift) / 7 + 1) (c.toNat / 2 ^ shift) := by
    intro c
    rw [prefixCoded, groups_eq, hleft]
  have hless : ∀ c d : UInt64, c.toNat < 2 ^ (highestBit + 1) → d.toNat < 2 ^ (highestBit + 1) →
      (prefixCoded highestBit shiftStart c shift < prefixCoded highestBit shiftStart d shift ↔
        c.toNat / 2 ^ shift < d.toNat / 2 ^ shift) := by
    intro c d hc hd
    rw [hgroups, hgroups, List.cons_lt_cons_iff,
      spelled_lt_iff (by decide) digit_inj digit_lt_iff (hroom c hc) (hroom d hd)]
    exact ⟨fun h => h.elim (fun hirrefl => absurd hirrefl (UInt8.lt_irrefl _)) fun h => h.2,
      fun h => .inr ⟨rfl, h⟩⟩
  constructor
  case less => exact (hless a b ha hb).trans Int.ofNat_lt.symm
  case greater => exact (hless b a hb ha).trans Int.ofNat_lt.symm
  case equal =>
    rw [hgroups, hgroups, Int.natCast_inj]
    constructor
    · intro h
      exact spelled_inj (by decide) digit_inj (hroom a ha) (hroom b hb) (List.cons.inj h).2
    · intro h
      rw [h]

/-! ## The sortable forms -/

/-- The sortable bits of a long are the long, moved up by half of the range. -/
theorem toNat_sortableLong (value : Int64) :
    (((value ^^^ Int64.minValue).toUInt64.toNat : Nat) : Int) = value.toInt + 2 ^ 63 := by
  have hbits : (value ^^^ Int64.minValue).toUInt64.toNat = value.toBitVec.toNat ^^^ 2 ^ 63 := rfl
  have hlt : value.toBitVec.toNat < 2 ^ (63 + 1) := value.toBitVec.isLt
  have htoInt : value.toInt = value.toBitVec.toInt := rfl
  rw [hbits, xor_two_pow hlt, htoInt, BitVec.toInt_eq_toNat_cond]
  split <;> split <;> omega

theorem toNat_sortableInteger (value : Int32) :
    (((value ^^^ Int32.minValue).toUInt32.toUInt64.toNat : Nat) : Int) = value.toInt + 2 ^ 31 := by
  have hbits : (value ^^^ Int32.minValue).toUInt32.toUInt64.toNat =
      value.toBitVec.toNat ^^^ 2 ^ 31 := rfl
  have hlt : value.toBitVec.toNat < 2 ^ (31 + 1) := value.toBitVec.isLt
  have htoInt : value.toInt = value.toBitVec.toInt := rfl
  rw [hbits, xor_two_pow hlt, htoInt, BitVec.toInt_eq_toNat_cond]
  split <;> split <;> omega

/-- Moving a number up by a multiple of a power of two moves its quotient. -/
theorem quotient_add {value : Int} {sortable shift : Nat}
    (h : (sortable : Int) = value + 2 ^ highestBit) (hshift : shift ≤ highestBit) :
    ((sortable / 2 ^ shift : Nat) : Int) = value / 2 ^ shift + 2 ^ (highestBit - shift) := by
  have hpower : (2 : Int) ^ highestBit = 2 ^ (highestBit - shift) * 2 ^ shift := by
    rw [← pow_add, Nat.sub_add_cancel hshift]
  rw [Int.natCast_ediv, h, hpower, Nat.cast_pow, Nat.cast_ofNat,
    Int.add_mul_ediv_right _ _ (pow_ne_zero shift (by decide))]

theorem ComparesAs.of_add {x y : Bytes} {m n c : Int} (h : ComparesAs x y (m + c) (n + c)) :
    ComparesAs x y m n where
  less := h.less.trans (by omega)
  equal := h.equal.trans (by omega)
  greater := h.greater.trans (by omega)

theorem longTerms_level (value : Int64) (h : level < 16) :
    ∃ term, (longTerms value)[level]? = some term ∧
      term.bytes = prefixCoded 63 shiftStartLong (value ^^^ Int64.minValue).toUInt64
        (precisionStep * level) := by
  rw [longTerms, terms_eq, List.getElem?_map,
    List.getElem?_range (show level < 63 / precisionStep + 1 from h)]
  exact ⟨_, rfl, rfl⟩

theorem integerTerms_level (value : Int32) (h : level < 8) :
    ∃ term, (integerTerms value)[level]? = some term ∧
      term.bytes = prefixCoded 31 shiftStartInt (value ^^^ Int32.minValue).toUInt32.toUInt64
        (precisionStep * level) := by
  rw [integerTerms, terms_eq, List.getElem?_map,
    List.getElem?_range (show level < 31 / precisionStep + 1 from h)]
  exact ⟨_, rfl, rfl⟩

/-- A level of long terms is ordered as the quotients by its power of two. -/
theorem longTerms_comparesAs (h : level < 16) (a b : Int64) {x y : NumericTerm}
    (hx : (longTerms a)[level]? = some x) (hy : (longTerms b)[level]? = some y) :
    ComparesAs x.bytes y.bytes (a.toInt / 2 ^ (4 * level)) (b.toInt / 2 ^ (4 * level)) := by
  obtain ⟨term, hterm, hbytes⟩ := longTerms_level a h
  obtain ⟨term', hterm', hbytes'⟩ := longTerms_level b h
  cases hx.symm.trans hterm
  cases hy.symm.trans hterm'
  have hshift : 4 * level ≤ 63 := by omega
  have hcompares := prefixCoded_comparesAs shiftStartLong hshift (by decide)
    (UInt64.toNat_lt (a ^^^ Int64.minValue).toUInt64)
    (UInt64.toNat_lt (b ^^^ Int64.minValue).toUInt64)
  rw [quotient_add (toNat_sortableLong a) hshift, quotient_add (toNat_sortableLong b) hshift]
    at hcompares
  rw [hbytes, hbytes']
  exact hcompares.of_add

theorem integerTerms_comparesAs (h : level < 8) (a b : Int32) {x y : NumericTerm}
    (hx : (integerTerms a)[level]? = some x) (hy : (integerTerms b)[level]? = some y) :
    ComparesAs x.bytes y.bytes (a.toInt / 2 ^ (4 * level)) (b.toInt / 2 ^ (4 * level)) := by
  obtain ⟨term, hterm, hbytes⟩ := integerTerms_level a h
  obtain ⟨term', hterm', hbytes'⟩ := integerTerms_level b h
  cases hx.symm.trans hterm
  cases hy.symm.trans hterm'
  have hshift : 4 * level ≤ 31 := by omega
  have hcompares := prefixCoded_comparesAs shiftStartInt hshift (by decide)
    (show (a ^^^ Int32.minValue).toUInt32.toUInt64.toNat < 2 ^ 32 from
      (a ^^^ Int32.minValue).toUInt32.toNat_lt)
    (show (b ^^^ Int32.minValue).toUInt32.toUInt64.toNat < 2 ^ 32 from
      (b ^^^ Int32.minValue).toUInt32.toNat_lt)
  rw [quotient_add (toNat_sortableInteger a) hshift, quotient_add (toNat_sortableInteger b) hshift]
    at hcompares
  rw [hbytes, hbytes']
  exact hcompares.of_add

/-! ## Levels and widths apart -/

/-- The first byte of a term tells its width and its shift. -/
theorem headByte_of_longTerm {value : Int64} (h : (longTerms value)[level]? = some term) :
    level < 16 ∧ term.bytes.head? = some (UInt8.ofNat (32 + 4 * level)) := by
  have hlevel : level < 16 := by
    have hlt := (List.getElem?_eq_some_iff.mp h).1
    rw [longTerms, terms_eq, List.length_map, List.length_range] at hlt
    exact hlt
  obtain ⟨found, hfound, hbytes⟩ := longTerms_level value hlevel
  cases h.symm.trans hfound
  refine ⟨hlevel, ?_⟩
  rw [hbytes, prefixCoded, List.head?_cons, UInt8.ofNat_add]
  rfl

theorem headByte_of_integerTerm {value : Int32} (h : (integerTerms value)[level]? = some term) :
    level < 8 ∧ term.bytes.head? = some (UInt8.ofNat (96 + 4 * level)) := by
  have hlevel : level < 8 := by
    have hlt := (List.getElem?_eq_some_iff.mp h).1
    rw [integerTerms, terms_eq, List.length_map, List.length_range] at hlt
    exact hlt
  obtain ⟨found, hfound, hbytes⟩ := integerTerms_level value hlevel
  cases h.symm.trans hfound
  refine ⟨hlevel, ?_⟩
  rw [hbytes, prefixCoded, List.head?_cons, UInt8.ofNat_add]
  rfl

theorem byte_inj {m n : Nat} (hm : m < 128) (hn : n < 128)
    (h : some (UInt8.ofNat m) = some (UInt8.ofNat n)) : m = n :=
  digit_inj m n hm hn (Option.some.inj h)

/-- Every byte of a term after the first is below `0x80`. -/
theorem lt_of_mem_tail_terms {shiftStart : UInt8} {sortable : UInt64} (h : term ∈ terms highestBit shiftStart sortable) {byte : UInt8}
    (hbyte : byte ∈ term.bytes.tail) : byte < 0x80 := by
  rw [terms_eq] at h
  obtain ⟨level, _, rfl⟩ := List.mem_map.mp h
  rw [prefixCoded, List.tail_cons, groups_eq] at hbyte
  obtain ⟨m, rfl⟩ := mem_spelled UInt8.ofNat 128 hbyte
  rw [UInt8.lt_iff_toNat_lt, UInt8.toNat_ofNat']
  exact Nat.lt_of_le_of_lt (Nat.mod_le _ _) (Nat.mod_lt m (by decide))

/-! ## Numeric terms sort like numbers -/

/-- At every level the terms of longs, and those of integers, are ordered as the numbers divided
by the level's power of two; terms of two levels or of two widths differ, and all bytes but the
first are below `0x80`. -/
theorem numericTerms_sort :
    (∀ a : Int64, (longTerms a).length = 16) ∧ (∀ a : Int32, (integerTerms a).length = 8) ∧
    (∀ (a b : Int64) (level : Nat) (x y : NumericTerm), (longTerms a)[level]? = some x →
      (longTerms b)[level]? = some y →
      ComparesAs x.bytes y.bytes (a.toInt / 2 ^ (4 * level)) (b.toInt / 2 ^ (4 * level))) ∧
    (∀ (a b : Int32) (level : Nat) (x y : NumericTerm), (integerTerms a)[level]? = some x →
      (integerTerms b)[level]? = some y →
      ComparesAs x.bytes y.bytes (a.toInt / 2 ^ (4 * level)) (b.toInt / 2 ^ (4 * level))) ∧
    (∀ (a b : Int64) (level level' : Nat) (x y : NumericTerm), level ≠ level' →
      (longTerms a)[level]? = some x → (longTerms b)[level']? = some y → x.bytes ≠ y.bytes) ∧
    (∀ (a b : Int32) (level level' : Nat) (x y : NumericTerm), level ≠ level' →
      (integerTerms a)[level]? = some x → (integerTerms b)[level']? = some y →
      x.bytes ≠ y.bytes) ∧
    (∀ (a : Int64) (b : Int32), ∀ x ∈ longTerms a, ∀ y ∈ integerTerms b, x.bytes ≠ y.bytes) ∧
    (∀ (a : Int64), ∀ x ∈ longTerms a, ∀ byte ∈ x.bytes.tail, byte < 0x80) ∧
    (∀ (a : Int32), ∀ x ∈ integerTerms a, ∀ byte ∈ x.bytes.tail, byte < 0x80) := by
  refine ⟨fun a => ?_, fun a => ?_, fun a b level x y hx hy => ?_, fun a b level x y hx hy => ?_,
    fun a b level level' x y hne hx hy heq => ?_, fun a b level level' x y hne hx hy heq => ?_,
    fun a b x hx y hy heq => ?_, fun a x hx byte hbyte => lt_of_mem_tail_terms hx hbyte,
    fun a x hx byte hbyte => lt_of_mem_tail_terms hx hbyte⟩
  · rw [longTerms, terms_eq, List.length_map, List.length_range]
    rfl
  · rw [integerTerms, terms_eq, List.length_map, List.length_range]
    rfl
  · exact longTerms_comparesAs (headByte_of_longTerm hx).1 a b hx hy
  · exact integerTerms_comparesAs (headByte_of_integerTerm hx).1 a b hx hy
  · obtain ⟨hlevel, hhead⟩ := headByte_of_longTerm hx
    obtain ⟨hlevel', hhead'⟩ := headByte_of_longTerm hy
    rw [heq, hhead'] at hhead
    have hsame := byte_inj (by omega) (by omega) hhead
    omega
  · obtain ⟨hlevel, hhead⟩ := headByte_of_integerTerm hx
    obtain ⟨hlevel', hhead'⟩ := headByte_of_integerTerm hy
    rw [heq, hhead'] at hhead
    have hsame := byte_inj (by omega) (by omega) hhead
    omega
  · obtain ⟨level, hlevelAt⟩ := List.mem_iff_getElem?.mp hx
    obtain ⟨level', hlevelAt'⟩ := List.mem_iff_getElem?.mp hy
    obtain ⟨hlevel, hhead⟩ := headByte_of_longTerm hlevelAt
    obtain ⟨hlevel', hhead'⟩ := headByte_of_integerTerm hlevelAt'
    rw [heq, hhead'] at hhead
    have hsame := byte_inj (by omega) (by omega) hhead
    omega

end Numeric

end Froe
