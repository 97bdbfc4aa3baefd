import Mathlib.Data.List.Basic

/-!
# Open addressing

A table is a list of slots that are empty or hold a key.  A probe for a key goes from slot to
slot, around the end of the list, until it meets the key or an empty slot.  Where every key
stands at the end of its own probe, a probe for a key finds it if the table holds it at all
(`WellPlaced.mem_iff`), and a key placed at an empty end of its probe leaves the others where
theirs end (`WellPlaced.set`).
-/

namespace ProbeTable

variable {α : Type*} {empty key : α} {keys : List α} {slot last : Nat}

/-- The slot after a slot of a table. -/
def next (slots slot : Nat) : Nat := (slot + 1) % slots

/-- A probe for a key from one slot ends at another. -/
inductive Reaches (empty : α) (keys : List α) (key : α) : Nat → Nat → Prop
  | here {slot : Nat} {found : α} : keys[slot]? = some found → found = empty ∨ found = key →
      Reaches empty keys key slot slot
  | step {slot last : Nat} {found : α} : keys[slot]? = some found → found ≠ empty → found ≠ key →
      Reaches empty keys key (next keys.length slot) last → Reaches empty keys key slot last

namespace Reaches

theorem stops (h : Reaches empty keys key slot last) :
    keys[last]? = some empty ∨ keys[last]? = some key := by
  induction h with
  | here hfound hstops =>
    rcases hstops with rfl | rfl
    · exact .inl hfound
    · exact .inr hfound
  | step _ _ _ _ ih => exact ih

theorem unique {last' : Nat} (h : Reaches empty keys key slot last)
    (h' : Reaches empty keys key slot last') : last = last' := by
  induction h with
  | here hfound hstops =>
    cases h' with
    | here _ _ => rfl
    | step hfound' hnot hnot' _ =>
      cases hfound.symm.trans hfound'
      exact absurd hstops (not_or.mpr ⟨hnot, hnot'⟩)
  | step hfound hnot hnot' _ ih =>
    cases h' with
    | here hfound' hstops =>
      cases hfound.symm.trans hfound'
      exact absurd hstops (not_or.mpr ⟨hnot, hnot'⟩)
    | step _ _ _ hrest => exact ih hrest

theorem set {free : Nat} {other : α} (h : Reaches empty keys key slot last)
    (hlast : keys[last]? = some key) (hkey : key ≠ empty) (hfree : keys[free]? = some empty) :
    Reaches empty (keys.set free other) key slot last := by
  have hne : ∀ {slot : Nat} {found : α}, keys[slot]? = some found → found ≠ empty →
      (keys.set free other)[slot]? = some found := by
    intro slot found hfound hnot
    rw [List.getElem?_set_ne, hfound]
    rintro rfl
    exact hnot (Option.some.inj (hfound.symm.trans hfree))
  induction h with
  | here _ _ => exact .here (hne hlast hkey) (.inr rfl)
  | step hfound hnot hnot' _ ih =>
    refine .step (hne hfound hnot) hnot hnot' ?_
    rw [List.length_set]
    exact ih hlast

/-- A key ends its own probe where it was placed. -/
theorem place (h : Reaches empty keys key slot last) (hlast : keys[last]? = some empty) :
    Reaches empty (keys.set last key) key slot last := by
  induction h with
  | here _ _ =>
    exact .here (List.getElem?_set_self (List.getElem?_eq_some_iff.mp hlast).1) (.inr rfl)
  | @step slot last found hfound hnot hnot' _ ih =>
    have hslot : last ≠ slot := by
      rintro rfl
      exact hnot (Option.some.inj (hfound.symm.trans hlast))
    refine .step ((List.getElem?_set_ne hslot).trans hfound) hnot hnot' ?_
    rw [List.length_set]
    exact ih hlast

end Reaches

/-- A probe ends in a table with an empty slot. -/
theorem exists_reaches (hslot : slot < keys.length) (hempty : empty ∈ keys) :
    ∃ last, Reaches empty keys key slot last := by
  obtain ⟨free, hfree⟩ := List.mem_iff_getElem?.mp hempty
  have hlt := (List.getElem?_eq_some_iff.mp hfree).1
  obtain ⟨distance, hdistance⟩ : ∃ distance, (slot + distance) % keys.length = free := by
    refine ⟨free + keys.length - slot, ?_⟩
    rw [show slot + (free + keys.length - slot) = free + keys.length by omega,
      Nat.add_mod_right, Nat.mod_eq_of_lt hlt]
  -- The empty slot comes closer with every slot that is passed.
  induction distance generalizing slot with
  | zero =>
    rw [Nat.add_zero, Nat.mod_eq_of_lt hslot] at hdistance
    exact ⟨slot, .here (hdistance ▸ hfree) (.inl rfl)⟩
  | succ distance ih =>
    by_cases hstops : keys[slot] = empty ∨ keys[slot] = key
    · exact ⟨slot, .here (List.getElem?_eq_getElem hslot) hstops⟩
    · obtain ⟨hnot, hnot'⟩ := not_or.mp hstops
      have hnext : next keys.length slot < keys.length :=
        Nat.mod_lt _ (Nat.lt_of_le_of_lt (Nat.zero_le _) hslot)
      obtain ⟨last, hlast⟩ := ih hnext (by
        rw [next, Nat.mod_add_mod, Nat.add_right_comm]
        exact hdistance)
      exact ⟨last, .step (List.getElem?_eq_getElem hslot) hnot hnot' hlast⟩

/-! ## Tables -/

variable {start : Nat → α → Nat}

/-- Every key stands where its probe ends. -/
def WellPlaced (start : Nat → α → Nat) (empty : α) (keys : List α) : Prop :=
  ∀ slot key, keys[slot]? = some key → key ≠ empty →
    Reaches empty keys key (start keys.length key) slot

namespace WellPlaced

theorem replicate (slots : Nat) : WellPlaced start empty (List.replicate slots empty) := by
  intro slot key hkey hnot
  exact absurd (List.eq_of_mem_replicate (List.mem_of_getElem? hkey)) hnot

section

variable (h : WellPlaced start empty keys)
include h

theorem mem_iff (hkey : key ≠ empty) (hlast : Reaches empty keys key (start keys.length key) last) :
    key ∈ keys ↔ keys[last]? = some key := by
  constructor
  · intro hmem
    obtain ⟨slot, hslot⟩ := List.mem_iff_getElem?.mp hmem
    rwa [(h slot key hslot hkey).unique hlast] at hslot
  · exact List.mem_of_getElem?

theorem slot_unique {slot' : Nat} (hkey : key ≠ empty)
    (hslot : keys[slot]? = some key) (hslot' : keys[slot']? = some key) : slot = slot' :=
  (h slot key hslot hkey).unique (h slot' key hslot' hkey)

/-- A key that a table does not hold is placed at the end of its probe. -/
theorem set (hlast : Reaches empty keys key (start keys.length key) last)
    (hfree : keys[last]? = some empty) : WellPlaced start empty (keys.set last key) := by
  intro slot other hother hnot
  rw [List.length_set]
  rw [List.getElem?_set] at hother
  split at hother
  · rename_i heq
    split at hother
    · cases heq
      cases hother
      exact hlast.place hfree
    · cases hother
  · exact (h slot other hother hnot).set hother hnot hfree

end

end WellPlaced

/-! ## Content -/

theorem mem_set {other : α} (hfree : keys[slot]? = some empty) (hother : other ≠ empty) :
    other ∈ keys.set slot key ↔ other = key ∨ other ∈ keys := by
  obtain ⟨hlt, -⟩ := List.getElem?_eq_some_iff.mp hfree
  constructor
  · intro hmem
    exact (List.mem_or_eq_of_mem_set hmem).symm
  · rintro (rfl | hmem)
    · exact List.mem_set hlt _
    · obtain ⟨found, hfound⟩ := List.mem_iff_getElem?.mp hmem
      have hne : slot ≠ found := by
        rintro rfl
        exact hother (Option.some.inj (hfound.symm.trans hfree))
      exact List.mem_of_getElem? ((List.getElem?_set_ne hne).trans hfound)

/-- A key stands in the slot of its value. -/
def Holds {β : Type*} (keys : List α) (values : List β) (key : α) (value : β) : Prop :=
  ∃ slot : Nat, keys[slot]? = some key ∧ values[slot]? = some value

variable {β : Type*}

variable {values : List β}

theorem holds_iff_mem_zip {value : β} :
    Holds keys values key value ↔ (key, value) ∈ keys.zip values := by
  rw [List.mem_iff_getElem?, Holds]
  simp only [List.getElem?_zip_eq_some]

theorem exists_holds (hlength : values.length = keys.length) :
    (∃ value, Holds keys values key value) ↔ key ∈ keys := by
  constructor
  · rintro ⟨value, slot, hslot, -⟩
    exact List.mem_of_getElem? hslot
  · intro hmem
    obtain ⟨slot, hslot⟩ := List.mem_iff_getElem?.mp hmem
    obtain ⟨hlt, -⟩ := List.getElem?_eq_some_iff.mp hslot
    exact ⟨_, slot, hslot, List.getElem?_eq_getElem (hlength ▸ hlt)⟩

theorem holds_set {value value' : β} {other : α}
    (hfree : keys[slot]? = some empty) (hvalue : slot < values.length) (hother : other ≠ empty) :
    Holds (keys.set slot key) (values.set slot value) other value' ↔
      (other = key ∧ value' = value) ∨ Holds keys values other value' := by
  obtain ⟨hlt, -⟩ := List.getElem?_eq_some_iff.mp hfree
  constructor
  · rintro ⟨found, hfound, hstands⟩
    by_cases heq : slot = found
    · subst heq
      rw [List.getElem?_set_self hlt] at hfound
      rw [List.getElem?_set_self hvalue] at hstands
      exact .inl ⟨(Option.some.inj hfound).symm, (Option.some.inj hstands).symm⟩
    · rw [List.getElem?_set_ne heq] at hfound hstands
      exact .inr ⟨found, hfound, hstands⟩
  · rintro (⟨rfl, rfl⟩ | ⟨found, hfound, hstands⟩)
    · exact ⟨slot, List.getElem?_set_self hlt, List.getElem?_set_self hvalue⟩
    · have hne : slot ≠ found := by
        rintro rfl
        exact hother (Option.some.inj (hfound.symm.trans hfree))
      exact ⟨found, (List.getElem?_set_ne hne).trans hfound,
        (List.getElem?_set_ne hne).trans hstands⟩

/-! ## Occupied slots -/

variable [DecidableEq α]

theorem WellPlaced.nodup (h : WellPlaced start empty keys) :
    (keys.filter (· ≠ empty)).Nodup := by
  refine List.pairwise_filter.mpr (List.pairwise_iff_getElem.mpr ?_)
  intro i j hi hj hij hfirst _ heq
  exact Nat.ne_of_lt hij (h.slot_unique (of_decide_eq_true hfirst) (List.getElem?_eq_getElem hi)
    ((List.getElem?_eq_getElem hj).trans (congrArg some heq.symm)))

/-- The number of slots that hold a key. -/
def occupied (empty : α) (keys : List α) : Nat := keys.countP (· ≠ empty)

theorem occupied_replicate (slots : Nat) : occupied empty (List.replicate slots empty) = 0 := by
  rw [occupied, List.countP_eq_zero]
  intro key hkey
  rw [List.eq_of_mem_replicate hkey, decide_eq_true_iff]
  exact not_not.mpr rfl

theorem occupied_set (hkey : key ≠ empty) (hfree : keys[slot]? = some empty) :
    occupied empty (keys.set slot key) = occupied empty keys + 1 := by
  obtain ⟨hlt, hfree⟩ := List.getElem?_eq_some_iff.mp hfree
  rw [occupied, List.countP_set hlt, hfree, if_neg (by simp), if_pos (by simpa using hkey),
    Nat.sub_zero, occupied]

theorem mem_empty (h : occupied empty keys < keys.length) : empty ∈ keys := by
  by_contra hnot
  refine Nat.ne_of_lt h (List.countP_eq_length.mpr fun key hkey => decide_eq_true ?_)
  rintro rfl
  exact hnot hkey

end ProbeTable
