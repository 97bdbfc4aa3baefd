import Mathlib.Data.List.Sort
import Mathlib.Order.Basic

/-!
# Binary search over a strictly sorted list

The search keeps a window `[base, base + size)` and halves it, as the standard
library does.  On a list whose keys strictly increase it finds exactly the
element with the key sought (`binarySearch_eq_some_iff`).
-/

namespace Search

variable {α β : Type*} [LinearOrder β]

def StrictlySorted (key : α → β) (xs : List α) : Prop := xs.Pairwise fun a b => key a < key b

/-- Halves the window until one element is left, and returns its position. -/
def narrow (key : α → β) (target : β) (xs : List α) : Nat → Nat → Nat → Nat
  | 0, base, _ => base
  | fuel + 1, base, size =>
    if size ≤ 1 then base
    else
      let middle := base + size / 2
      let above := (xs[middle]?.map fun x => decide (target < key x)).getD true
      narrow key target xs fuel (if above then base else middle) (size - size / 2)

def binarySearch (key : α → β) (target : β) (xs : List α) : Option α :=
  xs[narrow key target xs xs.length 0 xs.length]?.filter fun x => key x = target

variable {key : α → β} {xs : List α} {target : β}

section

variable (hs : StrictlySorted key xs)
include hs

theorem StrictlySorted.lt_of_getElem?
    {i j : Nat} {a b : α} (hij : i < j) (hi : xs[i]? = some a) (hj : xs[j]? = some b) :
    key a < key b := by
  obtain ⟨hi', rfl⟩ := List.getElem?_eq_some_iff.mp hi
  obtain ⟨hj', rfl⟩ := List.getElem?_eq_some_iff.mp hj
  exact List.pairwise_iff_getElem.mp hs i j hi' hj' hij

/-- The element sought stays in the window. -/
theorem narrow_of_getElem?
    {i : Nat} {x : α} (hx : xs[i]? = some x) (hkey : key x = target) (fuel base size : Nat)
    (hfuel : size ≤ fuel + 1) (hbase : base ≤ i) (hsize : i < base + size) :
    narrow key target xs fuel base size = i := by
  induction fuel generalizing base size with
  | zero =>
    rw [narrow]
    omega
  | succ fuel ih =>
    rw [narrow]
    by_cases hone : size ≤ 1
    · rw [if_pos hone]
      omega
    rw [if_neg hone]
    obtain ⟨m, hm⟩ : ∃ m, m = base + size / 2 := ⟨_, rfl⟩
    simp only [← hm]
    -- the window moves to the half on the side of `i`
    have habove : (xs[m]?.map fun y => decide (target < key y)).getD true = true ↔ i < m := by
      cases hy : xs[m]? with
      | none =>
        have := List.getElem?_eq_none_iff.mp hy
        obtain ⟨hi, -⟩ := List.getElem?_eq_some_iff.mp hx
        simp only [Option.map_none, Option.getD_none, true_iff]
        omega
      | some y =>
        simp only [Option.map_some, Option.getD_some, decide_eq_true_eq]
        constructor
        · intro hlt
          by_contra hge
          rcases Nat.lt_or_ge m i with hmi | him
          · exact absurd (hs.lt_of_getElem? hmi hy hx) (by rw [hkey]; exact not_lt_of_gt hlt)
          · have hmi : m = i := by omega
            rw [hmi, hx] at hy
            cases hy
            exact absurd hkey (ne_of_gt hlt)
        · intro him
          rw [← hkey]
          exact hs.lt_of_getElem? him hx hy
    by_cases him : i < m
    · rw [if_pos (habove.mpr him)]
      exact ih base (size - size / 2) (by omega) hbase (by omega)
    · rw [if_neg (mt habove.mp him)]
      exact ih m (size - size / 2) (by omega) (by omega) (by omega)

/-- On a strictly sorted list the search finds exactly the element sought. -/
theorem binarySearch_eq_some_iff {x : α} :
    binarySearch key target xs = some x ↔ x ∈ xs ∧ key x = target := by
  rw [binarySearch, Option.filter_eq_some_iff]
  constructor
  · rintro ⟨hx, hkey⟩
    exact ⟨List.mem_of_getElem? hx, by simpa using hkey⟩
  · rintro ⟨hx, hkey⟩
    obtain ⟨i, hi⟩ := List.mem_iff_getElem?.mp hx
    obtain ⟨hlt, -⟩ := List.getElem?_eq_some_iff.mp hi
    have hfound := narrow_of_getElem? hs hi hkey xs.length 0 xs.length (by omega) (by omega)
      (by omega)
    rw [hfound]
    exact ⟨hi, by simpa using hkey⟩

theorem binarySearch_eq_none_iff :
    binarySearch key target xs = none ↔ ∀ x ∈ xs, key x ≠ target := by
  constructor
  · intro hnone x hx hkey
    rw [(binarySearch_eq_some_iff hs).mpr ⟨hx, hkey⟩] at hnone
    cases hnone
  · intro hne
    cases hfound : binarySearch key target xs with
    | none => rfl
    | some x =>
      obtain ⟨hx, hkey⟩ := (binarySearch_eq_some_iff hs).mp hfound
      exact absurd hkey (hne x hx)

end

end Search
