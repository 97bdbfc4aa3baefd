import Mathlib.Data.List.Basic
import Mathlib.Data.List.Induction
import Mathlib.Data.List.Nodup

/-!
# First position, last value

An association list that is filled from a sequence of pairs.  A key keeps the
position at which it was first met, and takes the value it was met with last.
-/

namespace List

variable {κ α : Type} [DecidableEq κ]

/-- The list with the value of a key replaced in its place, or the key added at the end. -/
def putFirst (l : List (κ × α)) (pair : κ × α) : List (κ × α) :=
  if pair.1 ∈ l.map Prod.fst then l.map fun entry => if entry.1 = pair.1 then pair else entry
  else l ++ [pair]

/-- The list after a sequence of pairs. -/
def putAllFirst (l : List (κ × α)) (pairs : List (κ × α)) : List (κ × α) := pairs.foldl putFirst l

variable {l pairs : List (κ × α)} {pair : κ × α} {a b : κ}

theorem keys_putFirst (l : List (κ × α)) (pair : κ × α) :
    (l.putFirst pair).map Prod.fst =
      if pair.1 ∈ l.map Prod.fst then l.map Prod.fst else l.map Prod.fst ++ [pair.1] := by
  rw [putFirst]
  split
  · rw [map_map]
    refine map_congr_left fun entry _ => ?_
    dsimp only [Function.comp_apply]
    split
    · rename_i h
      exact h.symm
    · rfl
  · rw [map_append, map_singleton]

theorem nodup_putFirst (h : (l.map Prod.fst).Nodup) : ((l.putFirst pair).map Prod.fst).Nodup := by
  rw [keys_putFirst]
  split
  · exact h
  · rename_i hnew
    rw [nodup_append]
    refine ⟨h, nodup_singleton _, ?_⟩
    intro x hx y hy
    cases mem_singleton.mp hy
    rintro rfl
    exact hnew hx

theorem nodup_putAllFirst (h : (l.map Prod.fst).Nodup) :
    ((l.putAllFirst pairs).map Prod.fst).Nodup := by
  induction pairs generalizing l with
  | nil => exact h
  | cons pair pairs ih => exact ih (nodup_putFirst h)

theorem mem_keys_putAllFirst :
    a ∈ (l.putAllFirst pairs).map Prod.fst ↔ a ∈ l.map Prod.fst ∨ a ∈ pairs.map Prod.fst := by
  induction pairs generalizing l with
  | nil => simp [putAllFirst]
  | cons pair pairs ih =>
    have hstep : l.putAllFirst (pair :: pairs) = (l.putFirst pair).putAllFirst pairs := rfl
    rw [hstep, ih, keys_putFirst, map_cons, mem_cons]
    split
    · rename_i hold
      constructor
      · rintro (h | h)
        · exact Or.inl h
        · exact Or.inr (Or.inr h)
      · rintro (h | rfl | h)
        · exact Or.inl h
        · exact Or.inl hold
        · exact Or.inr h
    · rw [mem_append, mem_singleton, or_assoc]

/-- The value of a key is the one it was met with last. -/
theorem mem_putFirst {entry : κ × α} :
    entry ∈ l.putFirst pair ↔ entry = pair ∨ entry ∈ l ∧ entry.1 ≠ pair.1 := by
  rw [putFirst]
  split
  · rename_i hold
    rw [mem_map]
    constructor
    · rintro ⟨old, hmem, heq⟩
      split at heq
      · exact Or.inl heq.symm
      · rename_i hne
        exact Or.inr (heq ▸ ⟨hmem, hne⟩)
    · rintro (rfl | ⟨hmem, hne⟩)
      · obtain ⟨old, hmem, hkey⟩ := mem_map.mp hold
        exact ⟨old, hmem, if_pos hkey⟩
      · exact ⟨entry, hmem, if_neg hne⟩
  · rename_i hnew
    rw [mem_append, mem_singleton]
    constructor
    · rintro (hmem | rfl)
      · refine Or.inr ⟨hmem, fun hkey => hnew ?_⟩
        rw [← hkey]
        exact mem_map_of_mem hmem
      · exact Or.inl rfl
    · rintro (rfl | ⟨hmem, -⟩)
      · exact Or.inr rfl
      · exact Or.inl hmem

theorem mem_putAllFirst_append_cons {earlier later : List (κ × α)}
    (h : pair.1 ∉ later.map Prod.fst) : pair ∈ l.putAllFirst (earlier ++ pair :: later) := by
  have hstep : l.putAllFirst (earlier ++ pair :: later) =
      ((l.putAllFirst earlier).putFirst pair).putAllFirst later := by
    rw [putAllFirst, foldl_append, foldl_cons]
    rfl
  rw [hstep]
  clear hstep
  have hmem : pair ∈ (l.putAllFirst earlier).putFirst pair := mem_putFirst.mpr (Or.inl rfl)
  generalize (l.putAllFirst earlier).putFirst pair = acc at hmem
  induction later generalizing acc with
  | nil => exact hmem
  | cons next later ih =>
    rw [map_cons, mem_cons, not_or] at h
    exact ih h.2 (acc.putFirst next) (mem_putFirst.mpr (Or.inr ⟨hmem, h.1⟩))

/-- Every entry stems from a pair, the last one of its key. -/
theorem exists_of_mem_putAllFirst {entry : κ × α} (h : entry ∈ l.putAllFirst pairs) :
    (entry ∈ l ∧ entry.1 ∉ pairs.map Prod.fst) ∨
      ∃ earlier later, pairs = earlier ++ entry :: later ∧ entry.1 ∉ later.map Prod.fst := by
  induction pairs generalizing l with
  | nil => exact Or.inl ⟨h, by simp⟩
  | cons pair pairs ih =>
    rcases ih (show entry ∈ (l.putFirst pair).putAllFirst pairs from h) with
      ⟨hmem, hlast⟩ | ⟨earlier, later, rfl, hlast⟩
    · rcases mem_putFirst.mp hmem with rfl | ⟨hold, hne⟩
      · exact Or.inr ⟨[], pairs, rfl, hlast⟩
      · refine Or.inl ⟨hold, ?_⟩
        rw [map_cons, mem_cons, not_or]
        exact ⟨hne, hlast⟩
    · exact Or.inr ⟨pair :: earlier, later, rfl, hlast⟩

/-- Keys keep the order in which they were first met. -/
theorem idxOf_putAllFirst_lt_iff (ha : a ∈ pairs.map Prod.fst) (hb : b ∈ pairs.map Prod.fst) :
    ((putAllFirst [] pairs).map Prod.fst).idxOf a < ((putAllFirst [] pairs).map Prod.fst).idxOf b ↔
      (pairs.map Prod.fst).idxOf a < (pairs.map Prod.fst).idxOf b := by
  induction pairs using List.reverseRecOn with
  | nil => cases ha
  | append_singleton pairs pair ih =>
    have hstep : putAllFirst [] (pairs ++ [pair]) = (putAllFirst [] pairs).putFirst pair := by
      rw [putAllFirst, foldl_append, foldl_cons, foldl_nil]
      rfl
    obtain ⟨done, hdone⟩ : ∃ done, done = (putAllFirst [] pairs).map Prod.fst := ⟨_, rfl⟩
    obtain ⟨met, hmet⟩ : ∃ met, met = pairs.map Prod.fst := ⟨_, rfl⟩
    have hkeys : ∀ {x : κ}, x ∈ done ↔ x ∈ met := by
      intro x
      rw [hdone, hmet, mem_keys_putAllFirst]
      simp
    rw [hstep, keys_putFirst, map_append, map_singleton, ← hdone, ← hmet]
    rw [map_append, map_singleton, mem_append, mem_singleton, ← hmet] at ha hb
    rw [← hdone, ← hmet] at ih
    -- a key that is new stands behind all others in both lists
    have hnew : ∀ {x : κ} {keys : List κ}, x ∉ keys → (keys ++ [x]).idxOf x = keys.length := by
      intro x keys hx
      rw [idxOf_append_of_notMem hx, idxOf_cons_self, Nat.add_zero]
    by_cases hpair : pair.1 ∈ met
    · rw [if_pos (hkeys.mpr hpair)]
      have ha' : a ∈ met := ha.elim id fun h => h ▸ hpair
      have hb' : b ∈ met := hb.elim id fun h => h ▸ hpair
      rw [ih ha' hb', idxOf_append_of_mem ha', idxOf_append_of_mem hb']
    · have hpair' : pair.1 ∉ done := fun h => hpair (hkeys.mp h)
      rw [if_neg hpair']
      rcases ha with ha | rfl
      · have ha' := hkeys.mpr ha
        rw [idxOf_append_of_mem ha', idxOf_append_of_mem ha]
        rcases hb with hb | rfl
        · rw [idxOf_append_of_mem (hkeys.mpr hb), idxOf_append_of_mem hb, ih ha hb]
        · rw [hnew hpair', hnew hpair]
          exact iff_of_true (idxOf_lt_length_of_mem ha') (idxOf_lt_length_of_mem ha)
      · rw [hnew hpair', hnew hpair]
        rcases hb with hb | rfl
        · have hb' := hkeys.mpr hb
          rw [idxOf_append_of_mem hb', idxOf_append_of_mem hb]
          have h1 := idxOf_lt_length_of_mem hb'
          have h2 := idxOf_lt_length_of_mem hb
          exact iff_of_false (by omega) (by omega)
        · rw [hnew hpair', hnew hpair]
          exact iff_of_false (Nat.lt_irrefl _) (Nat.lt_irrefl _)

/-! ## Splitting at an occurrence -/

/-- A list split at the last occurrence of a key. -/
theorem exists_last_of_mem_keys (h : a ∈ pairs.map Prod.fst) :
    ∃ earlier value later, pairs = earlier ++ (a, value) :: later ∧ a ∉ later.map Prod.fst := by
  induction pairs with
  | nil => cases h
  | cons pair pairs ih =>
    by_cases hrest : a ∈ pairs.map Prod.fst
    · obtain ⟨earlier, value, later, rfl, hlast⟩ := ih hrest
      exact ⟨pair :: earlier, value, later, rfl, hlast⟩
    · rw [map_cons, mem_cons] at h
      obtain rfl := h.resolve_right hrest
      exact ⟨[], pair.2, pairs, rfl, hrest⟩

/-- A list split at the first occurrence of a key. -/
theorem exists_first_of_mem_keys (h : a ∈ pairs.map Prod.fst) :
    ∃ earlier value later, pairs = earlier ++ (a, value) :: later ∧ a ∉ earlier.map Prod.fst := by
  induction pairs with
  | nil => cases h
  | cons pair pairs ih =>
    by_cases hfirst : a = pair.1
    · subst hfirst
      exact ⟨[], pair.2, pairs, rfl, by simp⟩
    · rw [map_cons, mem_cons] at h
      obtain ⟨earlier, value, later, rfl, hnot⟩ := ih (h.resolve_left hfirst)
      refine ⟨pair :: earlier, value, later, rfl, ?_⟩
      rw [map_cons, mem_cons, not_or]
      exact ⟨hfirst, hnot⟩

/-- What stands before the first occurrence of a key comes before it. -/
theorem idxOf_lt_iff_mem {earlier later : List κ} (h : b ∉ earlier) :
    (earlier ++ b :: later).idxOf a < (earlier ++ b :: later).idxOf b ↔ a ∈ earlier := by
  rw [idxOf_append_of_notMem h, idxOf_cons_self, Nat.add_zero]
  constructor
  · intro hlt
    by_contra hnot
    rw [idxOf_append_of_notMem hnot] at hlt
    omega
  · intro hmem
    rw [idxOf_append_of_mem hmem]
    exact idxOf_lt_length_of_mem hmem

/-- A concatenation split at an element is split in one of its parts. -/
theorem flatMap_eq_append_cons {β γ : Type} {f : β → List γ} {parts : List β} {x : γ}
    {earlier later : List γ} (h : parts.flatMap f = earlier ++ x :: later) :
    ∃ before part after inner outer, parts = before ++ part :: after ∧
      f part = inner ++ x :: outer ∧ earlier = before.flatMap f ++ inner ∧
      later = outer ++ after.flatMap f := by
  induction parts generalizing earlier with
  | nil => simp at h
  | cons part parts ih =>
    rw [flatMap_cons, append_eq_append_iff] at h
    rcases h with ⟨more, rfl, hrest⟩ | ⟨more, hpart, hrest⟩
    · obtain ⟨before, part', after, inner, outer, rfl, hsplit, rfl, rfl⟩ := ih hrest
      exact ⟨part :: before, part', after, inner, outer, rfl, hsplit, by simp, rfl⟩
    · cases more with
      | nil =>
        obtain ⟨before, part', after, inner, outer, rfl, hsplit, hnil, rfl⟩ :=
          ih (show parts.flatMap f = [] ++ x :: later from hrest.symm)
        refine ⟨part :: before, part', after, inner, outer, rfl, hsplit, ?_, rfl⟩
        rw [flatMap_cons, append_assoc, ← hnil, hpart, append_nil, append_nil]
      | cons y more =>
        rw [cons_append, cons.injEq] at hrest
        obtain ⟨rfl, rfl⟩ := hrest
        exact ⟨[], part, parts, earlier, more, rfl, hpart, rfl, rfl⟩

end List
