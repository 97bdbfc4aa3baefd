import Froe.Lib.Bytes
import Mathlib.Data.List.Flatten
import Mathlib.Data.Nat.Bitwise

/-!
# Bits in bytes

A stream of bits fills bytes from their highest bit on.  Numbers of one width, written
highest bit first, are read back from the stream wherever they begin.
-/

namespace BitPacking

open List (foldl_cons length_append length_cons)

/-! ## Numbers as bits -/

/-- The lowest `width` bits of a number, highest first. -/
def bitsOf (width n : Nat) : List Bool := (List.range width).reverse.map n.testBit

def ofBits (bits : List Bool) : Nat := bits.foldl (fun n bit => 2 * n + bit.toNat) 0

@[simp] theorem length_bitsOf (width n : Nat) : (bitsOf width n).length = width := by
  rw [bitsOf, List.length_map, List.length_reverse, List.length_range]

variable {width bit : Nat}

theorem getElem_bitsOf {n i : Nat} (h : i < (bitsOf width n).length) :
    (bitsOf width n)[i] = n.testBit (width - 1 - i) := by
  simp only [bitsOf, List.getElem_map, List.getElem_reverse, List.getElem_range, List.length_range]

theorem bitsOf_succ (width n : Nat) : bitsOf (width + 1) n = n.testBit width :: bitsOf width n := by
  rw [bitsOf, List.range_succ, List.reverse_append, List.reverse_singleton, List.singleton_append,
    List.map_cons, bitsOf]

theorem foldl_bits (bits : List Bool) (n : Nat) :
    bits.foldl (fun n bit => 2 * n + bit.toNat) n = 2 ^ bits.length * n + ofBits bits := by
  induction bits generalizing n with
  | nil => simp [ofBits]
  | cons bit bits ih =>
    rw [ofBits, foldl_cons, foldl_cons, ih, ih (2 * 0 + bit.toNat), length_cons,
      pow_succ]
    ring

theorem ofBits_cons (bit : Bool) (bits : List Bool) :
    ofBits (bit :: bits) = 2 ^ bits.length * bit.toNat + ofBits bits := by
  rw [ofBits, foldl_cons, foldl_bits, Nat.mul_zero, Nat.zero_add]

theorem ofBits_bitsOf_mod (width n : Nat) : ofBits (bitsOf width n) = n % 2 ^ width := by
  induction width with
  | zero => rw [pow_zero, Nat.mod_one]; rfl
  | succ width ih =>
    rw [bitsOf_succ, ofBits_cons, length_bitsOf, ih, Nat.toNat_testBit, Nat.mod_pow_succ,
      Nat.add_comm]

/-- A number that has the width is read back. -/
theorem ofBits_bitsOf {n : Nat} (h : n < 2 ^ width) : ofBits (bitsOf width n) = n := by
  rw [ofBits_bitsOf_mod, Nat.mod_eq_of_lt h]

/-! ## Bytes as bits -/

/-- The bits of some bytes, highest first. -/
def unpack (bytes : Bytes) : List Bool := bytes.flatMap fun byte => bitsOf 8 byte.toNat

@[simp] theorem unpack_nil : unpack [] = [] := rfl

theorem unpack_cons (byte : UInt8) (bytes : Bytes) :
    unpack (byte :: bytes) = bitsOf 8 byte.toNat ++ unpack bytes :=
  List.flatMap_cons

theorem unpack_append (left right : Bytes) : unpack (left ++ right) = unpack left ++ unpack right :=
  List.flatMap_append

@[simp] theorem length_unpack (bytes : Bytes) : (unpack bytes).length = 8 * bytes.length := by
  induction bytes with
  | nil => rfl
  | cons byte bytes ih =>
    rw [unpack_cons, length_append, length_bitsOf, ih, length_cons]
    omega

theorem unpack_injective : Function.Injective unpack := by
  intro left
  induction left with
  | nil =>
    intro right h
    have hlength := congrArg List.length h
    rw [length_unpack, length_unpack, List.length_nil] at hlength
    exact (List.length_eq_zero_iff.mp (by omega)).symm
  | cons byte left ih =>
    intro right h
    cases right with
    | nil => cases congrArg List.length h
    | cons other right =>
      rw [unpack_cons, unpack_cons] at h
      obtain ⟨hbyte, hrest⟩ := List.append_inj h (by rw [length_bitsOf, length_bitsOf])
      have hnumber := congrArg ofBits hbyte
      rw [ofBits_bitsOf byte.toNat_lt, ofBits_bitsOf other.toNat_lt] at hnumber
      rw [UInt8.toNat_inj.mp hnumber, ih hrest]

theorem unpack_replicate_zero (n : Nat) :
    unpack (List.replicate n 0) = List.replicate (8 * n) false := by
  induction n with
  | zero => rfl
  | succ n ih =>
    rw [List.replicate_succ, unpack_cons, ih, Nat.mul_succ, Nat.add_comm, List.replicate_add]
    rfl

/-! ## Writing bits -/

def setBit (bytes : Bytes) (bit : Nat) : Bytes :=
  bytes.modify (bit / 8) fun byte => byte ||| UInt8.ofNat (0x80 >>> (bit % 8))

/-- Writes a bit at a position and goes on to the next. -/
def putBit (state : Bytes × Nat) (bit : Bool) : Bytes × Nat :=
  (if bit then setBit state.1 state.2 else state.1, state.2 + 1)

theorem testBit_highBit {i : Nat} (h : bit < 8) (hi : i < 8) :
    (0x80 >>> bit).testBit (8 - 1 - i) = decide (bit = i) := by
  rw [Nat.testBit_shiftRight, show (0x80 : Nat) = 2 ^ 7 from rfl, Nat.testBit_two_pow]
  exact decide_eq_decide.mpr ⟨fun heq => by omega, fun heq => by omega⟩

theorem bitsOf_or_bit {byte : UInt8} (h : bit < 8) :
    bitsOf 8 (byte ||| UInt8.ofNat (0x80 >>> bit)).toNat = (bitsOf 8 byte.toNat).set bit true := by
  have hbit : 0x80 >>> bit < 2 ^ 8 := Nat.lt_of_le_of_lt (Nat.shiftRight_le _ _) (by decide)
  rw [UInt8.toNat_or, UInt8.toNat_ofNat', Nat.mod_eq_of_lt hbit]
  refine List.ext_getElem (by simp) fun i hi _ => ?_
  rw [length_bitsOf] at hi
  rw [List.getElem_set, getElem_bitsOf, getElem_bitsOf, Nat.testBit_or, testBit_highBit h hi]
  by_cases heq : bit = i
  · rw [if_pos heq, decide_eq_true heq, Bool.or_true]
  · rw [if_neg heq, decide_eq_false heq, Bool.or_false]

theorem unpack_setBit {bytes : Bytes} (h : bit < 8 * bytes.length) :
    unpack (setBit bytes bit) = (unpack bytes).set bit true := by
  induction bytes generalizing bit with
  | nil => exact absurd h (Nat.not_lt_zero _)
  | cons byte bytes ih =>
    rw [length_cons] at h
    rcases Nat.lt_or_ge bit 8 with hfirst | hlater
    · rw [setBit, Nat.div_eq_of_lt hfirst, Nat.mod_eq_of_lt hfirst, List.modify_zero_cons,
        unpack_cons, unpack_cons, bitsOf_or_bit hfirst, List.set_append_left _ _ (by simpa)]
    · obtain ⟨rest, rfl⟩ := Nat.exists_eq_add_of_le' hlater
      have hrest := @ih rest (by omega)
      rw [setBit] at hrest
      rw [setBit, Nat.add_div_right _ (by decide), Nat.add_mod_right, List.modify_succ_cons,
        unpack_cons, hrest, unpack_cons, List.set_append_right _ _ (by simp), length_bitsOf,
        Nat.add_sub_cancel]

theorem length_setBit (bytes : Bytes) (bit : Nat) : (setBit bytes bit).length = bytes.length :=
  List.length_modify ..

/-- Bits that are put where there are none yet. -/
theorem unpack_foldl_putBit {bytes : Bytes} {done bits : List Bool} {room : Nat}
    (h : unpack bytes = done ++ List.replicate room false) (hroom : bits.length ≤ room) :
    (bits.foldl putBit (bytes, done.length)).1.length = bytes.length ∧
      unpack (bits.foldl putBit (bytes, done.length)).1 =
        done ++ bits ++ List.replicate (room - bits.length) false := by
  induction bits generalizing bytes done room with
  | nil =>
    rw [List.append_nil]
    exact ⟨rfl, h⟩
  | cons bit bits ih =>
    obtain ⟨room, rfl⟩ := Nat.exists_eq_add_of_lt (Nat.lt_of_lt_of_le (Nat.succ_pos _) hroom)
    rw [Nat.zero_add] at h hroom
    rw [length_cons] at hroom
    have hlength := congrArg List.length h
    rw [length_unpack, length_append, List.length_replicate] at hlength
    have hfree : done.length < 8 * bytes.length := by omega
    have hput : unpack (putBit (bytes, done.length) bit).1 =
        (done ++ [bit]) ++ List.replicate room false := by
      rw [List.append_assoc, List.singleton_append]
      cases bit with
      | false => exact h
      | true =>
        rw [putBit, if_pos rfl, unpack_setBit hfree, h, List.replicate_succ,
          List.set_append_right _ _ (Nat.le_refl _), Nat.sub_self, List.set_cons_zero]
    have hstate : putBit (bytes, done.length) bit =
        ((putBit (bytes, done.length) bit).1, (done ++ [bit]).length) := by
      rw [length_append]
      rfl
    obtain ⟨hsame, hbits⟩ := ih hput (Nat.le_of_succ_le_succ hroom)
    rw [foldl_cons, hstate, Nat.zero_add, length_cons]
    refine ⟨hsame.trans ?_, ?_⟩
    · cases bit with
      | false => rfl
      | true => exact length_setBit _ _
    · rw [hbits, List.append_assoc done, List.singleton_append, Nat.add_sub_add_right]

/-! ## Numbers of one width -/

/-- The numbers of a width in a stream of bits. -/
def readAll (width : Nat) : Nat → List Bool → List Nat
  | 0, _ => []
  | count + 1, bits => ofBits (bits.take width) :: readAll width count (bits.drop width)

theorem readAll_bitsOf {values : List Nat} (h : ∀ n ∈ values, n < 2 ^ width) (rest : List Bool) :
    readAll width values.length (values.flatMap (bitsOf width) ++ rest) = values := by
  induction values with
  | nil => rfl
  | cons n values ih =>
    rw [List.forall_mem_cons] at h
    rw [List.flatMap_cons, length_cons, readAll, List.append_assoc,
      List.take_left' (length_bitsOf width n), List.drop_left' (length_bitsOf width n),
      ofBits_bitsOf h.1, ih h.2]

theorem length_flatMap_bitsOf (width : Nat) (values : List Nat) :
    (values.flatMap (bitsOf width)).length = values.length * width := by
  induction values with
  | nil => exact (Nat.zero_mul _).symm
  | cons n values ih =>
    rw [List.flatMap_cons, length_append, length_bitsOf, ih, length_cons, Nat.succ_mul,
      Nat.add_comm]

end BitPacking
