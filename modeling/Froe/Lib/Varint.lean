import Froe.Lib.Bytes

/-!
# Variable-length numbers

A number as groups of seven bits, lowest first, where every byte but the last has its
high bit set.  Writer and reader carry the number of bytes that may still say that
another one follows.
-/

namespace Varint

/-- The groups of `n`, with at most `limit` bytes before the last. -/
def groups : Nat → Nat → Bytes
  | 0, n => [UInt8.ofNat n]
  | limit + 1, n =>
    if n < 128 then [UInt8.ofNat n] else UInt8.ofNat (n % 128 + 128) :: groups limit (n / 128)

/-- The number at the start of the bytes, and what follows it. -/
def read : Nat → Bytes → Option (Nat × Bytes)
  | _, [] => none
  | 0, b :: rest => if b.toNat < 128 then some (b.toNat, rest) else none
  | limit + 1, b :: rest =>
    if b.toNat < 128 then some (b.toNat, rest)
    else (read limit rest).map fun x => (b.toNat - 128 + 128 * x.1, x.2)

/-- The number at the start of the bytes, where the last byte that may come holds eight bits. -/
def readFull : Nat → Bytes → Option (Nat × Bytes)
  | _, [] => none
  | 0, b :: rest => some (b.toNat, rest)
  | limit + 1, b :: rest =>
    if b.toNat < 128 then some (b.toNat, rest)
    else (readFull limit rest).map fun x => (b.toNat - 128 + 128 * x.1, x.2)

theorem length_groups_le (limit n : Nat) : (groups limit n).length ≤ limit + 1 := by
  induction limit generalizing n with
  | zero => exact Nat.le_refl 1
  | succ limit ih =>
    rw [groups]
    split
    · exact Nat.le_add_left 1 _
    · exact Nat.succ_le_succ (ih _)

theorem groups_ne_nil (limit n : Nat) : groups limit n ≠ [] := by
  cases limit with
  | zero => exact List.cons_ne_nil _ _
  | succ limit =>
    rw [groups]
    split <;> exact List.cons_ne_nil _ _

theorem read_groups {limit n : Nat} (h : n < 128 ^ (limit + 1)) (rest : Bytes) :
    read limit (groups limit n ++ rest) = some (n, rest) := by
  induction limit generalizing n with
  | zero =>
    have hbyte : (UInt8.ofNat n).toNat = n := by
      rw [UInt8.toNat_ofNat']
      omega
    rw [groups, List.singleton_append, read, hbyte, if_pos (by simpa using h)]
  | succ limit ih =>
    rw [groups]
    split
    next hn =>
      have hbyte : (UInt8.ofNat n).toNat = n := by
        rw [UInt8.toNat_ofNat']
        omega
      rw [List.singleton_append, read, hbyte, if_pos hn]
    next hn =>
      have hbyte : (UInt8.ofNat (n % 128 + 128)).toNat = n % 128 + 128 := by
        rw [UInt8.toNat_ofNat']
        omega
      have hrest : n / 128 < 128 ^ (limit + 1) := by
        rw [pow_succ] at h
        exact Nat.div_lt_of_lt_mul (by rwa [Nat.mul_comm] at h)
      rw [List.cons_append, read, hbyte, if_neg (by omega), ih hrest]
      simp only [Option.map_some, Option.some.injEq, Prod.mk.injEq, and_true]
      omega

theorem readFull_groups {limit n : Nat} (h : n < 256 * 128 ^ limit) (rest : Bytes) :
    readFull limit (groups limit n ++ rest) = some (n, rest) := by
  induction limit generalizing n with
  | zero =>
    have hbyte : (UInt8.ofNat n).toNat = n := by
      rw [UInt8.toNat_ofNat']
      omega
    rw [groups, List.singleton_append, readFull, hbyte]
  | succ limit ih =>
    rw [groups]
    split
    next hn =>
      have hbyte : (UInt8.ofNat n).toNat = n := by
        rw [UInt8.toNat_ofNat']
        omega
      rw [List.singleton_append, readFull, hbyte, if_pos hn]
    next hn =>
      have hbyte : (UInt8.ofNat (n % 128 + 128)).toNat = n % 128 + 128 := by
        rw [UInt8.toNat_ofNat']
        omega
      have hrest : n / 128 < 256 * 128 ^ limit := by
        rw [pow_succ, ← Nat.mul_assoc] at h
        exact Nat.div_lt_of_lt_mul (by rwa [Nat.mul_comm] at h)
      rw [List.cons_append, readFull, hbyte, if_neg (by omega), ih hrest]
      simp only [Option.map_some, Option.some.injEq, Prod.mk.injEq, and_true]
      omega

end Varint
