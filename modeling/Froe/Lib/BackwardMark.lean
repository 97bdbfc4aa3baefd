import Mathlib.Data.Finset.Basic
import Mathlib.Data.Finset.Dedup

/-!
# Marking against the write order

Items are visited from the newest to the oldest.  Each visit consumes the
reference to its item, if there is one, and either marks the item or keeps it
and adds references to what it points to.  References point to older items, so
that whatever refers to an item has been visited before the item is judged.
-/

namespace BackwardMark

variable {ι : Type*} [DecidableEq ι]

/-- One visit: the item, whether it is marked given whether it was referenced, and the
items it protects when it is kept. -/
structure Visit (ι : Type*) where
  item : ι
  marks : Bool → Bool
  protects : List ι

/-- The pending references and the items marked so far. -/
structure State (ι : Type*) [DecidableEq ι] where
  references : Finset ι
  marked : Finset ι

def step (s : State ι) (v : Visit ι) : State ι :=
  let rest := s.references.erase v.item
  if v.marks (decide (v.item ∈ s.references)) then ⟨rest, insert v.item s.marked⟩
  else ⟨rest ∪ v.protects.toFinset, s.marked⟩

/-- The visits in their order. -/
def run (s : State ι) (visits : List (Visit ι)) : State ι := visits.foldl step s

theorem run_append (s : State ι) (before after : List (Visit ι)) :
    run s (before ++ after) = run (run s before) after := List.foldl_append

theorem run_cons (s : State ι) (v : Visit ι) (visits : List (Visit ι)) :
    run s (v :: visits) = run (step s v) visits := rfl

variable {x : ι} {s : State ι} {before after : List (Visit ι)} {v : Visit ι}

variable (visits : List (Visit ι))

/-- A reference stays pending until its item is visited. -/
theorem mem_references_run (hx : x ∈ s.references) (hnot : x ∉ visits.map Visit.item) :
    x ∈ (run s visits).references := by
  induction visits generalizing s with
  | nil => exact hx
  | cons v visits ih =>
    rw [List.map_cons, List.mem_cons, not_or] at hnot
    refine ih ?_ hnot.2
    have herase : x ∈ s.references.erase v.item := Finset.mem_erase.mpr ⟨hnot.1, hx⟩
    rw [step]
    split
    · exact herase
    · exact Finset.mem_union_left _ herase

/-- Marks are only added, and only for the items visited. -/
theorem marked_subset_run (s : State ι) :
    s.marked ⊆ (run s visits).marked := by
  induction visits generalizing s with
  | nil => exact Finset.Subset.refl _
  | cons v visits ih =>
    refine Finset.Subset.trans ?_ (ih (step s v))
    rw [step]
    split
    · exact Finset.subset_insert _ _
    · exact Finset.Subset.refl _

theorem mem_marked_run
    (hx : x ∈ (run s visits).marked) : x ∈ s.marked ∨ x ∈ visits.map Visit.item := by
  induction visits generalizing s with
  | nil => exact Or.inl hx
  | cons v visits ih =>
    rw [List.map_cons, List.mem_cons]
    rcases ih hx with hstep | hlater
    · rw [step] at hstep
      split at hstep
      · rcases Finset.mem_insert.mp hstep with rfl | hold
        · exact Or.inr (Or.inl rfl)
        · exact Or.inl hold
      · exact Or.inl hstep
    · exact Or.inr (Or.inr hlater)

/-- An item that is visited once is marked exactly when its visit marks it. -/
theorem mem_marked_iff (hfresh : v.item ∉ s.marked) (hbefore : v.item ∉ before.map Visit.item)
    (hafter : v.item ∉ after.map Visit.item) :
    v.item ∈ (run s (before ++ v :: after)).marked ↔
      v.marks (decide (v.item ∈ (run s before).references)) = true := by
  rw [run_append, run_cons]
  have hnot : v.item ∉ (run s before).marked := fun h =>
    (mem_marked_run before h).elim hfresh hbefore
  constructor
  · intro h
    have hstep := (mem_marked_run after h).resolve_right hafter
    rw [step] at hstep
    split at hstep
    · assumption
    · exact absurd hstep hnot
  · intro hmarks
    refine marked_subset_run after _ ?_
    rw [step, if_pos hmarks]
    exact Finset.mem_insert_self _ _

/-- A kept item leaves references to what it protects. -/
theorem mem_references_step
    (hkeep : v.marks (decide (v.item ∈ s.references)) = false) (hx : x ∈ v.protects) :
    x ∈ (step s v).references := by
  rw [step, if_neg (by rw [hkeep]; decide)]
  exact Finset.mem_union_right _ (List.mem_toFinset.mpr hx)

/-- An item that a kept item protects is judged as referenced, when it is visited later. -/
theorem marked_of_protected {between : List (Visit ι)} {w : Visit ι} (hdistinct : ((before ++ v :: between ++ w :: after).map Visit.item).Nodup)
    (hmarked : s.marked = ∅)
    (hkept : v.item ∉ (run s (before ++ v :: between ++ w :: after)).marked)
    (hprotects : w.item ∈ v.protects)
    (hw : w.item ∈ (run s (before ++ v :: between ++ w :: after)).marked) : w.marks true = true := by
  have hsplit : before ++ v :: between ++ w :: after = before ++ v :: (between ++ w :: after) := by
    simp only [List.append_assoc, List.cons_append]
  have hnodup := hdistinct
  rw [List.map_append, List.nodup_append] at hnodup
  obtain ⟨hleft, hright, hdisjoint⟩ := hnodup
  have hwbefore : w.item ∉ (before ++ v :: between).map Visit.item := fun h =>
    hdisjoint _ h w.item (by simp) rfl
  have hwafter : w.item ∉ after.map Visit.item := (List.nodup_cons.mp hright).1
  have hvbefore : v.item ∉ before.map Visit.item := by
    rw [List.map_append, List.nodup_append] at hleft
    exact fun h => hleft.2.2 _ h v.item (by simp) rfl
  have hvafter : v.item ∉ (between ++ w :: after).map Visit.item := by
    rw [hsplit, List.map_append, List.nodup_append] at hdistinct
    exact (List.nodup_cons.mp hdistinct.2.1).1
  have hfresh : ∀ x, x ∉ s.marked := by
    intro x
    rw [hmarked]
    exact Finset.notMem_empty x
  have hvkeep : v.marks (decide (v.item ∈ (run s before).references)) = false := by
    rw [hsplit, mem_marked_iff (hfresh _) hvbefore hvafter] at hkept
    exact Bool.eq_false_iff.mpr hkept
  have hreferenced : w.item ∈ (run s (before ++ v :: between)).references := by
    rw [run_append, run_cons]
    refine mem_references_run between (mem_references_step hvkeep hprotects) ?_
    intro h
    exact hwbefore (by rw [List.map_append, List.map_cons]; simp [h])
  have hmarks := (mem_marked_iff (hfresh _) hwbefore hwafter).mp hw
  rwa [decide_eq_true hreferenced] at hmarks

end BackwardMark
