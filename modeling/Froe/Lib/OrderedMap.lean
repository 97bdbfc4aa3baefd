import Mathlib.Algebra.BigOperators.Group.Finset.Basic
import Mathlib.Data.Finmap
import Mathlib.Data.Finset.Sort
import Mathlib.Data.String.Basic

/-!
# Maps listed in the order of their keys

A finite map over ordered keys, together with the list of its rows in key
order, is what a tree map is to its users: lookups do not see the order, and
iteration does.  `rows` lists the map and `mem_rows` reads the list back.
-/

instance String.isTrans_le : IsTrans String (· ≤ ·) := ⟨fun _ _ _ => le_trans⟩

instance String.antisymm_le : Std.Antisymm fun s t : String => s ≤ t := ⟨fun _ _ => le_antisymm⟩

instance String.total_le : Std.Total fun s t : String => s ≤ t := ⟨le_total⟩

namespace Finmap

variable {κ ν : Type*}

section Update

variable [DecidableEq κ]

/-- The map with the value at a key changed, which starts from `initial` when absent. -/
def upsert (m : Finmap fun _ : κ => ν) (k : κ) (initial : ν) (f : ν → ν) :
    Finmap fun _ : κ => ν :=
  m.insert k (f ((m.lookup k).getD initial))

theorem lookup_upsert (m : Finmap fun _ : κ => ν) (k : κ) (initial : ν) (f : ν → ν) (k' : κ) :
    (m.upsert k initial f).lookup k' =
      if k' = k then some (f ((m.lookup k).getD initial)) else m.lookup k' := by
  by_cases h : k' = k
  · subst h
    rw [if_pos rfl, upsert, lookup_insert]
  · rw [if_neg h, upsert, lookup_insert_of_ne _ h]

end Update

section Rows

variable [LinearOrder κ] [DecidableEq κ]

/-- The rows of a map in the order of its keys. -/
def rows (m : Finmap fun _ : κ => ν) : List (κ × ν) :=
  (m.keys.sort (· ≤ ·)).filterMap fun k => (m.lookup k).map (k, ·)

theorem mem_rows {m : Finmap fun _ : κ => ν} {k : κ} {v : ν} :
    (k, v) ∈ m.rows ↔ m.lookup k = some v := by
  simp only [rows, List.mem_filterMap, Finset.mem_sort, mem_keys, Option.map_eq_some_iff,
    Prod.mk.injEq]
  constructor
  · rintro ⟨k', -, v', hv, rfl, rfl⟩
    exact hv
  · intro hv
    exact ⟨k, mem_iff.mpr ⟨v, hv⟩, v, hv, rfl, rfl⟩

theorem pairwise_rows (m : Finmap fun _ : κ => ν) :
    m.rows.Pairwise fun a b => a.1 < b.1 := by
  have hsort : (m.keys.sort (· ≤ ·)).Pairwise (· < ·) := (Finset.sortedLT_sort m.keys).pairwise
  refine List.Pairwise.filterMap _ ?_ hsort
  intro a b hab x hx y hy
  obtain ⟨v, -, rfl⟩ := Option.map_eq_some_iff.mp hx
  obtain ⟨w, -, rfl⟩ := Option.map_eq_some_iff.mp hy
  exact hab

theorem rows_of_lookup {m : Finmap fun _ : κ => ν} {keys : Finset κ} {value : κ → ν}
    (h : ∀ k, m.lookup k = if k ∈ keys then some (value k) else none) :
    m.rows = (keys.sort (· ≤ ·)).map fun k => (k, value k) := by
  have hkeys : m.keys = keys := by
    ext k
    rw [mem_keys, ← lookup_isSome, h k]
    split <;> simp_all
  rw [rows, hkeys, ← List.filterMap_eq_map]
  refine List.filterMap_congr fun k hk => ?_
  rw [h k, if_pos ((Finset.mem_sort _).mp hk)]
  rfl

@[simp] theorem rows_empty : (∅ : Finmap fun _ : κ => ν).rows = [] := by
  simp [rows]

end Rows

end Finmap

/-- A list of rows without repeated keys is a map. -/
theorem List.lookup_eq_some_iff_mem {κ ν : Type*} [DecidableEq κ] {rows : List (κ × ν)}
    (hkeys : (rows.map Prod.fst).Nodup) {k : κ} {v : ν} :
    rows.lookup k = some v ↔ (k, v) ∈ rows := by
  induction rows with
  | nil => simp
  | cons row rows ih =>
    obtain ⟨k', v'⟩ := row
    rw [List.map_cons, List.nodup_cons] at hkeys
    rw [List.lookup_cons, List.mem_cons, Prod.mk.injEq]
    by_cases hk : k = k'
    · subst hk
      have hnot : (k, v) ∉ rows := fun h => hkeys.1 (List.mem_map.mpr ⟨_, h, rfl⟩)
      simp [hnot, eq_comm]
    · have hbeq : (k == k') = false := beq_eq_false_iff_ne.mpr hk
      simp [hk, hbeq, ih hkeys.2]

/-- The total length of lists laid out in the order of a finite set. -/
theorem Finset.length_flatMap_sort {κ α : Type*} [LinearOrder κ] (keys : Finset κ)
    (f : κ → List α) : ((keys.sort (· ≤ ·)).flatMap f).length = ∑ k ∈ keys, (f k).length := by
  rw [List.length_flatMap, ← Finset.sum_map_toList]
  exact ((Finset.sort_perm_toList keys _).map _).sum_eq
