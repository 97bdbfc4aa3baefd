import Froe.Lib.Bytes
import Mathlib.Data.Nat.Log

/-!
# The levels of a skip list

A skip list over numbered points: level `l` records every `base ^ l`-th point, each as its
difference from the one recorded before it, and every entry above the lowest level is followed
by a link to the entry of the same point one level down.  The link says where in the lower
level that entry's difference ends.

The levels are given by the sequence of points alone.  `level_succ` says how they grow from
point to point, which is what a writer does, and `readEntries_level` that a reader who knows
the number of entries finds the points and the links.
-/

namespace SkipLevels

/-- An entry as a reader finds it: its point, where its difference ends in the level, and the
link behind it. -/
structure Entry (Point : Type) where
  point : Point
  ends : Nat
  child : Option Nat
deriving DecidableEq, Repr

section Written

variable {Point : Type} (base : Nat) (encode : Point → Point → Bytes) (link : Nat → Bytes)
variable (point : Nat → Point)

/-- The difference that entry `index` of a level records. -/
def difference (level index : Nat) : Bytes :=
  encode (point (base ^ level * index)) (point (base ^ level * (index + 1)))

/-- The first entries of a level. -/
def level : Nat → Nat → Bytes
  | 0, count => (List.range count).flatMap (difference base encode point 0)
  | l + 1, count => (List.range count).flatMap fun index =>
      difference base encode point (l + 1) index ++
        link (level l (base * index + (base - 1)) ++
          difference base encode point l (base * index + (base - 1))).length

/-- Where the difference of an entry ends in its level. -/
def ends (l index : Nat) : Nat :=
  (level base encode link point l index ++ difference base encode point l index).length

/-- The entry one level down that has the same point. -/
def below (index : Nat) : Nat := base * index + (base - 1)

/-- The link behind an entry: none on the lowest level. -/
def child : Nat → Nat → Option Nat
  | 0, _ => none
  | l + 1, index => some (ends base encode link point l (below base index))

/-- What stands behind the difference of an entry. -/
def linked (l index : Nat) : Bytes := ((child base encode link point l index).map link).getD []

/-- An entry of a level, with its link. -/
def entry (l index : Nat) : Bytes :=
  difference base encode point l index ++ linked base encode link point l index

theorem level_eq (l count : Nat) :
    level base encode link point l count =
      (List.range count).flatMap (entry base encode link point l) := by
  cases l with
  | zero =>
    rw [level]
    congr 1
    funext index
    exact (List.append_nil _).symm
  | succ l => rfl

@[simp] theorem level_zero (l : Nat) : level base encode link point l 0 = [] := by
  rw [level_eq, List.range_zero, List.flatMap_nil]

theorem level_succ (l count : Nat) :
    level base encode link point l (count + 1) =
      level base encode link point l count ++ difference base encode point l count ++
        linked base encode link point l count := by
  simp only [level_eq, List.range_succ, List.flatMap_append, List.flatMap_singleton, entry,
    List.append_assoc]

theorem ends_eq (l index : Nat) :
    ends base encode link point l index =
      (level base encode link point l index).length +
        (difference base encode point l index).length :=
  List.length_append

/-- A level of entries of bounded length is no longer than their number allows. -/
theorem length_level_le {bound : Nat} (l count : Nat)
    (hentry : ∀ index < count, (entry base encode link point l index).length ≤ bound) :
    (level base encode link point l count).length ≤ bound * count := by
  induction count with
  | zero =>
    rw [level_zero]
    exact Nat.zero_le _
  | succ count ih =>
    have hbefore := ih fun index hindex => hentry index (Nat.lt_succ_of_lt hindex)
    have hlast := hentry count (Nat.lt_succ_self count)
    rw [entry, List.length_append] at hlast
    rw [level_succ, List.length_append, List.length_append, Nat.mul_succ]
    omega

/-- The entry below records the same point. -/
theorem point_below (hbase : 0 < base) (l index : Nat) :
    base ^ l * (below base index + 1) = base ^ (l + 1) * (index + 1) := by
  have hnext : below base index + 1 = base * (index + 1) := by
    rw [below, Nat.mul_succ]
    omega
  rw [hnext, pow_succ, Nat.mul_assoc]

end Written

section Growing

variable {base : Nat}

variable {l number : Nat}

/-- A level gains an entry with every point whose number its step divides. -/
theorem count_of_dvd (h : base ^ l ∣ number + 1) :
    (number + 1) / base ^ l = number / base ^ l + 1 := by
  rw [Nat.succ_div, if_pos h]

theorem count_of_not_dvd (h : ¬ base ^ l ∣ number + 1) :
    (number + 1) / base ^ l = number / base ^ l := by
  rw [Nat.succ_div, if_neg h, Nat.add_zero]

/-- The point that an entry records is the one at hand. -/
theorem point_of_dvd (h : base ^ l ∣ number + 1) :
    base ^ l * (number / base ^ l + 1) = number + 1 := by
  rw [← count_of_dvd h, Nat.mul_div_cancel' h]

/-- A point on the next level links to the entry that this level gains with it. -/
theorem below_of_dvd (hbase : 0 < base) (h : base ^ (l + 1) ∣ number + 1) :
    below base (number / base ^ (l + 1)) = number / base ^ l := by
  have hlower : base ^ l ∣ number + 1 := (Nat.pow_dvd_pow base (Nat.le_succ l)).trans h
  have hpoints := point_below base hbase l (number / base ^ (l + 1))
  rw [point_of_dvd h] at hpoints
  have hsame : base ^ l * (below base (number / base ^ (l + 1)) + 1) =
      base ^ l * (number / base ^ l + 1) := hpoints.trans (point_of_dvd hlower).symm
  exact Nat.succ_injective (Nat.eq_of_mul_eq_mul_left (Nat.pow_pos hbase) hsame)

end Growing

/-! ## Reading a level back -/

section Read

variable {Point : Type}

/-- The link behind an entry of a level that has links. -/
def readChild (readLink : Bytes → Option (Nat × Bytes)) (hasLinks : Bool) (bytes : Bytes) :
    Option (Option Nat × Bytes) :=
  if hasLinks then (readLink bytes).map fun x => (some x.1, x.2) else some (none, bytes)

/-- The entries of a level, which are so many that nothing is left behind them. -/
def readEntries (decode : Point → Bytes → Option (Point × Bytes))
    (readLink : Bytes → Option (Nat × Bytes)) (hasLinks : Bool) :
    Nat → Nat → Point → Bytes → Option (List (Entry Point))
  | 0, _, _, bytes => if bytes = [] then some [] else none
  | count + 1, position, previous, bytes => do
    let (point, behind) ← decode previous bytes
    let (child, rest) ← readChild readLink hasLinks behind
    let entries ← readEntries decode readLink hasLinks count
      (position + (bytes.length - rest.length)) point rest
    return ⟨point, position + (bytes.length - behind.length), child⟩ :: entries

variable {base : Nat} {encode : Point → Point → Bytes} {link : Nat → Bytes} {point : Nat → Point}
variable {decode : Point → Bytes → Option (Point × Bytes)}
variable {readLink : Bytes → Option (Nat × Bytes)}

/-- What a reader finds at one place of a level. -/
def entryAt (base : Nat) (encode : Point → Point → Bytes) (link : Nat → Bytes)
    (point : Nat → Point) (l index : Nat) : Entry Point :=
  ⟨point (base ^ l * (index + 1)), ends base encode link point l index,
    child base encode link point l index⟩

theorem readChild_linked {l index : Nat}
    (hlink : ∀ target, child base encode link point l index = some target →
      ∀ rest, readLink (link target ++ rest) = some (target, rest)) (rest : Bytes) :
    readChild readLink (l != 0) (linked base encode link point l index ++ rest) =
      some (child base encode link point l index, rest) := by
  cases l with
  | zero => rfl
  | succ l =>
    have htarget := hlink _ rfl rest
    exact congrArg (Option.map fun x => (some x.1, x.2)) htarget

/-- The entries from one place of a level on are read back, where the differences and the links
are. -/
theorem readEntries_from (l : Nat) {start count : Nat}
    (hdecode : ∀ index, index < start + count → ∀ rest,
      decode (point (base ^ l * index)) (difference base encode point l index ++ rest) =
        some (point (base ^ l * (index + 1)), rest))
    (hlink : ∀ index, index < start + count → ∀ target,
      child base encode link point l index = some target →
        ∀ rest, readLink (link target ++ rest) = some (target, rest)) :
    readEntries decode readLink (l != 0) count (level base encode link point l start).length
        (point (base ^ l * start))
        ((List.range' start count).flatMap (entry base encode link point l)) =
      some ((List.range' start count).map (entryAt base encode link point l)) := by
  induction count generalizing start with
  | zero => rfl
  | succ count ih =>
    have hstart : start < start + (count + 1) := by omega
    let rest := (List.range' (start + 1) count).flatMap (entry base encode link point l)
    have hbytes : (List.range' start (count + 1)).flatMap (entry base encode link point l) =
        difference base encode point l start ++ (linked base encode link point l start ++ rest) := by
      rw [List.range'_succ, List.flatMap_cons, entry, List.append_assoc]
    have hbehind := hdecode start hstart (linked base encode link point l start ++ rest)
    have hchild := readChild_linked (hlink start hstart) rest
    have hnext : (level base encode link point l start).length +
        ((difference base encode point l start ++
          (linked base encode link point l start ++ rest)).length - rest.length) =
        (level base encode link point l (start + 1)).length := by
      simp only [level_succ, List.length_append]
      omega
    have hends : (level base encode link point l start).length +
        ((difference base encode point l start ++
          (linked base encode link point l start ++ rest)).length -
          (linked base encode link point l start ++ rest).length) =
        ends base encode link point l start := by
      simp only [ends, List.length_append]
      omega
    have hrest : readEntries decode readLink (l != 0) count
        (level base encode link point l (start + 1)).length (point (base ^ l * (start + 1))) rest =
        some ((List.range' (start + 1) count).map (entryAt base encode link point l)) :=
      ih (fun index hindex => hdecode index (by omega)) fun index hindex =>
        hlink index (by omega)
    rw [hbytes, readEntries]
    simp only [hbehind, hchild, hnext, hrest, hends, Option.bind_eq_bind, Option.bind_some]
    rw [List.range'_succ, List.map_cons]
    rfl

/-- A level is read back whole. -/
theorem readEntries_level (l count : Nat) (hdecode : ∀ index < count, ∀ rest,
      decode (point (base ^ l * index)) (difference base encode point l index ++ rest) =
        some (point (base ^ l * (index + 1)), rest))
    (hlink : ∀ index < count, ∀ target, child base encode link point l index = some target →
      ∀ rest, readLink (link target ++ rest) = some (target, rest)) :
    readEntries decode readLink (l != 0) count 0 (point 0)
        (level base encode link point l count) =
      some ((List.range count).map (entryAt base encode link point l)) := by
  rw [← Nat.zero_add count] at hdecode hlink
  have hread := readEntries_from l hdecode hlink
  rwa [level_zero, List.length_nil, Nat.mul_zero, ← List.range_eq_range', ← level_eq] at hread

end Read

/-! ## How many levels there are -/

/-- The highest level that has an entry, as the reader computes it. -/
theorem nonempty_iff {base count l : Nat} (hbase : 1 < base) (hcount : count ≠ 0) :
    0 < count / base ^ l ↔ l ≤ Nat.log base count := by
  rw [Nat.le_log_iff_pow_le hbase hcount]
  exact Nat.div_pos_iff.trans ⟨fun h => h.2, fun h => ⟨Nat.pow_pos (Nat.zero_lt_of_lt hbase), h⟩⟩

end SkipLevels
