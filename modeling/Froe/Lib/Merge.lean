import Mathlib.Data.List.Perm.Lattice
import Mathlib.Order.Compare

/-!
# Merging sorted sequences

A merge of several ascending sequences keeps the head of each in a heap and what
follows the heads apart.  It pops the least head and takes the next element of the
same sequence for it.  `Cursors` says that the heads and the rests belong to
ascending sequences.  Under it, what is popped is a least element of all that is
left (`Cursors.le_content`), and the heap is empty only when nothing is left
(`Cursors.content_eq_nil`).

The order is a comparison, so different elements may compare as equal.
-/

namespace Merge

open List (map_cons mem_cons)

variable {α : Type}

/-! ## The least element -/

/-- Takes a least element out of a heap. -/
def popLeast {β : Type} (cmp : β → β → Ordering) : List β → Option (β × List β)
  | [] => none
  | b :: heap =>
    match popLeast cmp heap with
    | none => some (b, [])
    | some (least, rest) =>
      if (cmp b least).isLE then some (b, least :: rest) else some (least, b :: rest)

section

variable {β : Type} {cmp : β → β → Ordering}

@[simp] theorem popLeast_eq_none {heap : List β} : popLeast cmp heap = none ↔ heap = [] := by
  cases heap with
  | nil => exact iff_of_true rfl rfl
  | cons b heap =>
    refine iff_of_false (fun h => ?_) (List.cons_ne_nil b heap)
    rw [popLeast] at h
    split at h
    · cases h
    · split at h <;> cases h

section

variable {heap rest : List β} {least : β} (h : popLeast cmp heap = some (least, rest))
include h

theorem popLeast_perm : (least :: rest).Perm heap := by
  induction heap generalizing least rest with
  | nil => cases h
  | cons b heap ih =>
    rw [popLeast] at h
    split at h
    · rename_i hnone
      cases h
      rw [popLeast_eq_none.mp hnone]
    · rename_i first others hpop
      split at h
      · cases h
        exact (ih hpop).cons b
      · cases h
        exact (List.Perm.swap ..).trans ((ih hpop).cons b)

theorem popLeast_le [Std.TransCmp cmp] : ∀ b ∈ rest, (cmp least b).isLE := by
  induction heap generalizing least rest with
  | nil => cases h
  | cons b heap ih =>
    rw [popLeast] at h
    split at h
    · cases h
      nofun
    · rename_i first others hpop
      split at h
      · rename_i hle
        cases h
        intro c hc
        rcases mem_cons.mp hc with rfl | hmem
        · exact hle
        · exact Std.TransCmp.isLE_trans hle (ih hpop c hmem)
      · rename_i hgt
        cases h
        intro c hc
        rcases mem_cons.mp hc with rfl | hmem
        · rw [Bool.not_eq_true, Ordering.isLE_eq_false] at hgt
          exact Ordering.isLE_of_eq_lt (Std.OrientedCmp.lt_of_gt hgt)
        · exact ih hpop c hmem

end

end

/-! ## Heads and rests -/

/-- The head of a sequence. -/
structure Head (α : Type) where
  record : α
  run : Nat

/-- By the element, and by the sequence to break ties. -/
def Head.cmp (cmp : α → α → Ordering) (a b : Head α) : Ordering :=
  (cmp a.record b.record).then (compare a.run b.run)

instance {cmp : α → α → Ordering} [Std.TransCmp cmp] : Std.TransCmp (Head.cmp cmp) := by
  have hrecord : Std.TransCmp fun a b : Head α => cmp a.record b.record :=
    { eq_swap := Std.OrientedCmp.eq_swap
      isLE_trans := Std.TransCmp.isLE_trans }
  have hrun : Std.TransCmp fun a b : Head α => compare a.run b.run :=
    { eq_swap := Std.OrientedCmp.eq_swap
      isLE_trans := Std.TransCmp.isLE_trans }
  exact inferInstanceAs (Std.TransCmp (compareLex _ _))

/-- What a merge has not yet yielded. -/
def content (heads : List (Head α)) (rests : List (List α)) : List α :=
  heads.map Head.record ++ rests.flatten

/-- The heads and the rests of ascending sequences. -/
structure Cursors (cmp : α → α → Ordering) (heads : List (Head α)) (rests : List (List α)) :
    Prop where
  nodup : (heads.map Head.run).Nodup
  ascending : ∀ head ∈ heads, ∃ rest, rests[head.run]? = some rest ∧
    (head.record :: rest).Pairwise fun a b => (cmp a b).isLE
  exhausted : ∀ run rest, rests[run]? = some rest → run ∉ heads.map Head.run → rest = []

variable {cmp : α → α → Ordering} {heads others : List (Head α)} {rests : List (List α)}
  {least : Head α}

/-- The sequences with one more that is empty. -/
theorem Cursors.push_nil (h : Cursors cmp heads rests) : Cursors cmp heads (rests ++ [[]]) := by
  refine ⟨h.nodup, fun head hmem => ?_, fun run rest hrest hrun => ?_⟩
  · obtain ⟨rest, hrest, hpairwise⟩ := h.ascending head hmem
    refine ⟨rest, ?_, hpairwise⟩
    rw [List.getElem?_append_left (List.getElem?_eq_some_iff.mp hrest).1, hrest]
  · by_cases hlt : run < rests.length
    · rw [List.getElem?_append_left hlt] at hrest
      exact h.exhausted run rest hrest hrun
    · rw [List.getElem?_append_right (Nat.le_of_not_lt hlt)] at hrest
      exact List.mem_singleton.mp (List.mem_of_getElem? hrest)

theorem Cursors.run_lt (h : Cursors cmp heads rests) {head : Head α} (hmem : head ∈ heads) :
    head.run < rests.length := by
  obtain ⟨rest, hrest, -⟩ := h.ascending head hmem
  exact (List.getElem?_eq_some_iff.mp hrest).1

/-- The sequences with one more. -/
theorem Cursors.push (h : Cursors cmp heads rests) {record : α} {rest : List α}
    (hrecord : (record :: rest).Pairwise fun a b => (cmp a b).isLE) :
    Cursors cmp (⟨record, rests.length⟩ :: heads) (rests ++ [rest]) := by
  refine ⟨?_, fun head hmem => ?_, fun run rest' hrest hrun => ?_⟩
  · rw [map_cons, List.nodup_cons]
    refine ⟨fun hmem => ?_, h.nodup⟩
    obtain ⟨head, hhead, heq⟩ := List.mem_map.mp hmem
    exact absurd heq (Nat.ne_of_lt (h.run_lt hhead))
  · rcases mem_cons.mp hmem with rfl | hhead
    · exact ⟨rest, List.getElem?_concat_length, hrecord⟩
    · obtain ⟨others, hothers, hpairwise⟩ := h.ascending head hhead
      refine ⟨others, ?_, hpairwise⟩
      rw [List.getElem?_append_left (h.run_lt hhead), hothers]
  · rw [map_cons, mem_cons, not_or] at hrun
    have hlt : run < rests.length := by
      have hbound := (List.getElem?_eq_some_iff.mp hrest).1
      rw [List.length_append, List.length_singleton] at hbound
      exact Nat.lt_of_le_of_ne (Nat.le_of_lt_succ hbound) hrun.1
    rw [List.getElem?_append_left hlt] at hrest
    exact h.exhausted run rest' hrest hrun.2

/-- When the heap is empty, everything has been yielded. -/
theorem Cursors.content_eq_nil (h : Cursors cmp [] rests) : content [] rests = [] := by
  rw [content, List.map_nil, List.nil_append, List.flatten_eq_nil_iff]
  intro rest hmem
  obtain ⟨run, hrun⟩ := List.getElem?_of_mem hmem
  exact h.exhausted run rest hrun List.not_mem_nil

section

variable (h : Cursors cmp heads rests)
include h

/-- Every element that is left is behind a head. -/
theorem Cursors.exists_head_le [Std.ReflCmp cmp] {a : α}
    (ha : a ∈ content heads rests) : ∃ head ∈ heads, (cmp head.record a).isLE := by
  rw [content, List.mem_append] at ha
  rcases ha with hhead | hrest
  · obtain ⟨head, hmem, rfl⟩ := List.mem_map.mp hhead
    exact ⟨head, hmem, Std.ReflCmp.isLE_rfl⟩
  · obtain ⟨rest, hmem, harest⟩ := List.mem_flatten.mp hrest
    obtain ⟨run, hrun⟩ := List.getElem?_of_mem hmem
    by_cases hin : run ∈ heads.map Head.run
    · obtain ⟨head, hhead, rfl⟩ := List.mem_map.mp hin
      obtain ⟨rest', hrest', hpairwise⟩ := h.ascending head hhead
      rw [hrun, Option.some_inj] at hrest'
      subst hrest'
      exact ⟨head, hhead, (List.pairwise_cons.mp hpairwise).1 a harest⟩
    · rw [h.exhausted run rest hrun hin] at harest
      cases harest

section

variable (hpop : popLeast (Head.cmp cmp) heads = some (least, others))
include hpop

/-- What is popped is a least element of all that is left. -/
theorem Cursors.le_content [Std.TransCmp cmp] {a : α}
    (ha : a ∈ content heads rests) : (cmp least.record a).isLE := by
  obtain ⟨head, hmem, hle⟩ := h.exists_head_le ha
  refine Std.TransCmp.isLE_trans ?_ hle
  rcases mem_cons.mp ((popLeast_perm hpop).mem_iff.mpr hmem) with rfl | hother
  · exact Std.ReflCmp.isLE_rfl
  · exact (Ordering.isLE_then_iff_and.mp (popLeast_le hpop head hother)).1

/-- The heap without its least head. -/
theorem Cursors.nodup_cons :
    least.run ∉ others.map Head.run ∧ (others.map Head.run).Nodup := by
  have hperm := (popLeast_perm hpop).map Head.run
  exact List.nodup_cons.mp (hperm.nodup_iff.mpr h.nodup)

/-- The sequence of the least head has ended. -/
theorem Cursors.pop_nil (hrest : rests[least.run]? = some []) :
    Cursors cmp others rests ∧
      (least.record :: content others rests).Perm (content heads rests) := by
  have hperm := popLeast_perm hpop
  refine ⟨⟨(h.nodup_cons hpop).2, fun head hmem => ?_, fun run rest hrun hout => ?_⟩, ?_⟩
  · exact h.ascending head (hperm.subset (List.mem_cons_of_mem _ hmem))
  · by_cases heq : run = least.run
    · rw [heq, hrest] at hrun
      exact (Option.some.inj hrun).symm
    · refine h.exhausted run rest hrun fun hmem => ?_
      rcases mem_cons.mp ((hperm.map Head.run).mem_iff.mpr hmem) with hleast | hother
      · exact heq hleast
      · exact hout hother
  · exact ((hperm.map Head.record).append_right _)

/-- The sequence of the least head goes on. -/
theorem Cursors.pop_cons {record : α} {rest : List α}
    (hrest : rests[least.run]? = some (record :: rest)) :
    Cursors cmp (⟨record, least.run⟩ :: others) (rests.set least.run rest) ∧
      (least.record :: content (⟨record, least.run⟩ :: others) (rests.set least.run rest)).Perm
        (content heads rests) := by
  have hperm := popLeast_perm hpop
  obtain ⟨hnotin, hnodup⟩ := h.nodup_cons hpop
  obtain ⟨hlt, hget⟩ := List.getElem?_eq_some_iff.mp hrest
  refine ⟨⟨List.nodup_cons.mpr ⟨hnotin, hnodup⟩, fun head hmem => ?_, fun run rest' hrun hout => ?_⟩,
    ?_⟩
  · rcases mem_cons.mp hmem with rfl | hother
    · obtain ⟨all, hall, hpairwise⟩ := h.ascending least (hperm.subset (.head _))
      rw [hrest, Option.some_inj] at hall
      subst hall
      exact ⟨rest, List.getElem?_set_self hlt, (List.pairwise_cons.mp hpairwise).2⟩
    · obtain ⟨all, hall, hpairwise⟩ :=
        h.ascending head (hperm.subset (List.mem_cons_of_mem _ hother))
      refine ⟨all, ?_, hpairwise⟩
      have hne : least.run ≠ head.run := fun heq => hnotin (heq ▸ List.mem_map_of_mem hother)
      rw [List.getElem?_set_ne hne, hall]
  · rw [map_cons, mem_cons, not_or] at hout
    rw [List.getElem?_set_ne (Ne.symm hout.1)] at hrun
    refine h.exhausted run rest' hrun fun hmem => ?_
    rcases mem_cons.mp ((hperm.map Head.run).mem_iff.mpr hmem) with hleast | hother
    · exact hout.1 hleast
    · exact hout.2 hother
  · have hflat : (record :: (rests.set least.run rest).flatten).Perm rests.flatten := by
      rw [List.set_eq_take_append_cons_drop, if_pos hlt]
      conv_rhs => rw [← List.take_append_drop least.run rests, List.drop_eq_getElem_cons hlt, hget]
      rw [List.flatten_append, List.flatten_append, List.flatten_cons, List.flatten_cons,
        List.cons_append]
      exact List.perm_middle.symm
    rw [content, content, map_cons, List.cons_append]
    calc
      (least.record :: record :: (others.map Head.record ++ (rests.set least.run rest).flatten)).Perm
          (least.record :: (others.map Head.record ++
            record :: (rests.set least.run rest).flatten)) := List.perm_middle.symm.cons _
      _ |>.Perm ((least :: others).map Head.record ++ rests.flatten) :=
        (hflat.append_left _).cons least.record
      _ |>.Perm _ := (hperm.map Head.record).append_right _

end

end

end Merge
