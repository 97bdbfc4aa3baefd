import Mathlib.Data.Nat.Bitwise
import Mathlib.Algebra.Order.Ring.Nat
import Mathlib.Tactic.Ring

/-!
# Positional notation

A number as a fixed number of digits, most significant first, where a digit stands for itself
as a value of any ordered type.  Numbers of equally many digits are ordered as their digits
are, lexicographically.
-/

namespace Positional

section Spelled

variable {α : Type} (digit : Nat → α) (base : Nat)

/-- The low `count` digits of a number. -/
def spelled : Nat → Nat → List α
  | 0, _ => []
  | count + 1, n => spelled count (n / base) ++ [digit (n % base)]

theorem length_spelled (count n : Nat) : (spelled digit base count n).length = count := by
  induction count generalizing n with
  | zero => rfl
  | succ count ih => rw [spelled, List.length_append, ih, List.length_singleton]

theorem mem_spelled {count n : Nat} {x : α} (h : x ∈ spelled digit base count n) :
    ∃ m, x = digit (m % base) := by
  induction count generalizing n with
  | zero => exact absurd h List.not_mem_nil
  | succ count ih =>
    cases List.mem_append.mp h with
    | inl hinit => exact ih hinit
    | inr hlast => exact ⟨n, List.mem_singleton.mp hlast⟩

variable {digit base}

theorem spelled_inj (hbase : 0 < base)
    (hdigit : ∀ a b, a < base → b < base → digit a = digit b → a = b) {count n m : Nat}
    (hn : n < base ^ count) (hm : m < base ^ count)
    (h : spelled digit base count n = spelled digit base count m) : n = m := by
  induction count generalizing n m with
  | zero =>
    rw [pow_zero] at hn hm
    omega
  | succ count ih =>
    obtain ⟨hinit, hlast⟩ := List.append_inj' h rfl
    have hquotient := ih (Nat.div_lt_of_lt_mul (by rwa [pow_succ'] at hn))
      (Nat.div_lt_of_lt_mul (by rwa [pow_succ'] at hm)) hinit
    have hremainder := hdigit _ _ (Nat.mod_lt n hbase) (Nat.mod_lt m hbase) (List.cons.inj hlast).1
    rw [← Nat.div_add_mod n base, ← Nat.div_add_mod m base, hquotient, hremainder]

/-- Two lists of one length are compared by their last elements only when they agree before. -/
theorem concat_lt_concat [LT α] {x y : List α} {a b : α} (h : x.length = y.length) :
    x ++ [a] < y ++ [b] ↔ x < y ∨ x = y ∧ a < b := by
  induction x generalizing y with
  | nil =>
    cases y with
    | nil =>
      rw [List.nil_append, List.nil_append, List.cons_lt_cons_iff]
      constructor
      · rintro (hlt | ⟨_, hnil⟩)
        · exact .inr ⟨rfl, hlt⟩
        · exact absurd hnil (List.not_lt_nil [])
      · rintro (hnil | ⟨_, hlt⟩)
        · exact absurd hnil (List.not_lt_nil [])
        · exact .inl hlt
    | cons => cases h
  | cons c x ih =>
    cases y with
    | nil => cases h
    | cons d y =>
      rw [List.cons_append, List.cons_append, List.cons_lt_cons_iff, List.cons_lt_cons_iff,
        ih (Nat.succ.inj h), List.cons.injEq]
      constructor
      · rintro (hlt | ⟨rfl, hlt | ⟨rfl, hlt⟩⟩)
        · exact .inl (.inl hlt)
        · exact .inl (.inr ⟨rfl, hlt⟩)
        · exact .inr ⟨⟨rfl, rfl⟩, hlt⟩
      · rintro ((hlt | ⟨rfl, hlt⟩) | ⟨⟨rfl, rfl⟩, hlt⟩)
        · exact .inl hlt
        · exact .inr ⟨rfl, .inl hlt⟩
        · exact .inr ⟨rfl, .inr ⟨rfl, hlt⟩⟩

/-- Numbers that fit their digits are ordered as they are spelled. -/
theorem spelled_lt_iff [LT α] (hbase : 0 < base)
    (hdigit : ∀ a b, a < base → b < base → digit a = digit b → a = b)
    (hlt : ∀ a b, a < base → b < base → (digit a < digit b ↔ a < b)) {count n m : Nat}
    (hn : n < base ^ count) (hm : m < base ^ count) :
    spelled digit base count n < spelled digit base count m ↔ n < m := by
  induction count generalizing n m with
  | zero =>
    rw [pow_zero] at hn hm
    exact iff_of_false (List.not_lt_nil []) (by omega)
  | succ count ih =>
    have hnQuotient : n / base < base ^ count :=
      Nat.div_lt_of_lt_mul (by rwa [pow_succ'] at hn)
    have hmQuotient : m / base < base ^ count :=
      Nat.div_lt_of_lt_mul (by rwa [pow_succ'] at hm)
    have hsame : spelled digit base count (n / base) = spelled digit base count (m / base) ↔
        n / base = m / base :=
      ⟨spelled_inj hbase hdigit hnQuotient hmQuotient, fun heq => heq ▸ rfl⟩
    rw [spelled, spelled,
      concat_lt_concat ((length_spelled ..).trans (length_spelled ..).symm),
      ih hnQuotient hmQuotient, hsame, hlt _ _ (Nat.mod_lt n hbase) (Nat.mod_lt m hbase)]
    have hnSplit := Nat.div_add_mod n base
    have hmSplit := Nat.div_add_mod m base
    have hnMod := Nat.mod_lt n hbase
    have hmMod := Nat.mod_lt m hbase
    constructor
    · rintro (hdiv | ⟨heq, hmod⟩)
      · have hmul : base * (n / base) + base ≤ base * (m / base) := by
          rw [← Nat.mul_succ]
          exact Nat.mul_le_mul_left base hdiv
        omega
      · rw [heq] at hnSplit
        omega
    · intro hless
      have hle : n / base ≤ m / base := Nat.div_le_div_right (Nat.le_of_lt hless)
      cases Nat.lt_or_eq_of_le hle with
      | inl hdiv => exact .inl hdiv
      | inr heq =>
        rw [heq] at hnSplit
        exact .inr ⟨heq, by omega⟩

end Spelled

/-! ## Flipping the highest bit -/

/-- Flipping the highest bit adds half of the range, or takes it away. -/
theorem xor_two_pow {n k : Nat} (h : n < 2 ^ (k + 1)) :
    n ^^^ 2 ^ k = if n < 2 ^ k then n + 2 ^ k else n - 2 ^ k := by
  have hpos : 0 < 2 ^ k := Nat.two_pow_pos k
  have hquotient := Nat.xor_div_two_pow (a := n) (b := 2 ^ k) (n := k)
  have hremainder := Nat.xor_mod_two_pow (a := n) (b := 2 ^ k) (n := k)
  rw [Nat.div_self hpos] at hquotient
  rw [Nat.mod_self, Nat.xor_zero] at hremainder
  have hsplit := Nat.div_add_mod (n ^^^ 2 ^ k) (2 ^ k)
  rw [hquotient, hremainder] at hsplit
  have hn := Nat.div_add_mod n (2 ^ k)
  rw [pow_succ] at h
  split
  next hlow =>
    rw [Nat.div_eq_of_lt hlow] at hsplit
    rw [Nat.mod_eq_of_lt hlow, Nat.zero_xor, Nat.mul_one] at hsplit
    omega
  next hhigh =>
    have hone : n / 2 ^ k = 1 := Nat.div_eq_of_lt_le (by omega) (by omega)
    rw [hone, Nat.xor_self, Nat.mul_zero] at hsplit
    rw [hone, Nat.mul_one] at hn
    omega

end Positional
