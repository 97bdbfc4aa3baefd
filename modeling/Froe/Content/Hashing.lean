import Mathlib.Data.List.Sort
import Froe.Lib.Utf16

/-!
# Hashes and orders of names

Maps and templates place names by `java.lang.String::hashCode`, computed over
UTF-16 code units with wrapping 32-bit arithmetic, and break ties in the order
of the code units.
-/

namespace Froe

open Utf16 (charUtf16 encodeUtf16)

/-- `java.lang.String::hashCode`. -/
def utf16StringHash (text : String) : Int32 :=
  (encodeUtf16 text).foldl (fun hash unit => hash * 31 + unit.toUInt32.toInt32) 0

def mapHashMultiplier : Int32 := (0xDEECE66D : UInt32).toInt32

def mapHashIncrement : Int32 := 0xB

def mapEntryHash (name : String) : UInt32 :=
  ((utf16StringHash name ^^^ mapHashMultiplier) * mapHashMultiplier + mapHashIncrement).toUInt32

/-- The order of sequences: by the first difference, and a beginning comes first. -/
def compareUnits : List UInt16 → List UInt16 → Ordering
  | [], [] => .eq
  | [], _ :: _ => .lt
  | _ :: _, [] => .gt
  | a :: as, b :: bs => (compare a b).then (compareUnits as bs)

/-- `java.lang.String::compareTo`. -/
def compareUtf16Strings (first second : String) : Ordering :=
  compareUnits (encodeUtf16 first) (encodeUtf16 second)

def sortBy {α : Type} (comparator : α → α → Ordering) (l : List α) : List α :=
  l.insertionSort fun a b => comparator a b ≠ .gt

section

variable {α : Type} (comparator : α → α → Ordering) (l : List α)

theorem perm_sortBy :
    (sortBy comparator l).Perm l :=
  List.perm_insertionSort _ l

theorem pairwise_sortBy [Std.TransCmp comparator] : (sortBy comparator l).Pairwise fun a b => comparator a b ≠ .gt := by
  have htotal : Std.Total fun a b => comparator a b ≠ .gt := by
    refine ⟨fun a b => ?_⟩
    have hswap : comparator a b = (comparator b a).swap := Std.OrientedCmp.eq_swap
    rw [hswap]
    cases comparator b a <;> simp
  have htrans : IsTrans α fun a b => comparator a b ≠ .gt := by
    refine ⟨fun a b c hab hbc => ?_⟩
    exact Ordering.ne_gt_iff_isLE.mpr (Std.TransCmp.isLE_trans (Ordering.ne_gt_iff_isLE.mp hab)
      (Ordering.ne_gt_iff_isLE.mp hbc))
  exact List.pairwise_insertionSort _ l

end

theorem compareUnits_eq (as bs : List UInt16) :
    compareUnits as bs = List.compareLex compare as bs := by
  induction as generalizing bs with
  | nil => cases bs <;> rfl
  | cons a as ih =>
    cases bs with
    | nil => rfl
    | cons b bs => rw [compareUnits, ih, List.compareLex_cons_cons]

instance : Std.TransCmp compareUtf16Strings where
  eq_swap {a b} := by
    rw [compareUtf16Strings, compareUtf16Strings, compareUnits_eq, compareUnits_eq]
    exact Std.OrientedCmp.eq_swap
  isLE_trans {a b c} hab hbc := by
    rw [compareUtf16Strings, compareUnits_eq] at *
    exact Std.TransCmp.isLE_trans hab hbc

end Froe
