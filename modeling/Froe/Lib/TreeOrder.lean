import Mathlib.Data.List.Infix

/-!
# Including and excluding parts of a tree

In a tree order what lies above one element is a chain.  Elements are admitted by a list of
includes, each with all below it, and taken out again by a list of excludes.  Includes below
other includes or below excludes, and excludes below no include, can be left out of the two
lists (`admits_reduced`), and nothing is left of the includes only where nothing is admitted
(`exists_surviving_iff`).
-/

namespace TreeOrder

variable {α : Type}

/-- An order in which the elements above an element are comparable. -/
structure IsTree (le : α → α → Prop) : Prop where
  refl : ∀ a, le a a
  trans : ∀ a b c, le a b → le b c → le a c
  antisymm : ∀ a b, le a b → le b a → a = b
  chain : ∀ a b c, le a c → le b c → le a b ∨ le b a

/-- At or below an include, and at or below no exclude. -/
def Admits (le : α → α → Prop) (includes excludes : List α) (a : α) : Prop :=
  (∃ i ∈ includes, le i a) ∧ ∀ e ∈ excludes, ¬ le e a

/-- The includes that are neither at nor below an exclude, and not below another include. -/
def Surviving (le : α → α → Prop) (includes excludes : List α) (i : α) : Prop :=
  i ∈ includes ∧ (∀ e ∈ excludes, ¬ le e i) ∧ ∀ j ∈ includes, le j i → j = i

/-- The excludes that lie below an include. -/
def Retained (le : α → α → Prop) (includes excludes : List α) (e : α) : Prop :=
  e ∈ excludes ∧ ∃ i ∈ includes, le i e ∧ i ≠ e ∧ ¬ le e i

variable {le : α → α → Prop}

theorem admits_of_le {includes excludes : List α} {a b : α} (h : IsTree le) (hle : le a b)
    (hb : Admits le includes excludes b) : ∀ e ∈ excludes, ¬ le e a :=
  fun e he hea => hb.2 e he (h.trans e a b hea hle)

/-- Above every element that an include covers there is a highest include. -/
theorem exists_highest (h : IsTree le) {includes : List α} {a : α} (ha : ∃ i ∈ includes, le i a) :
    ∃ i ∈ includes, le i a ∧ ∀ j ∈ includes, le j i → j = i := by
  induction includes with
  | nil =>
    obtain ⟨i, hi, _⟩ := ha
    exact absurd hi List.not_mem_nil
  | cons first rest ih =>
    by_cases hrest : ∃ i ∈ rest, le i a
    · obtain ⟨i, hi, hia, hhighest⟩ := ih hrest
      by_cases hfirst : le first i
      · refine ⟨first, List.mem_cons_self, h.trans _ _ _ hfirst hia, fun j hj hjle => ?_⟩
        cases List.mem_cons.mp hj with
        | inl heq => exact heq
        | inr hmem =>
          have hsame := hhighest j hmem (h.trans _ _ _ hjle hfirst)
          exact h.antisymm _ _ hjle (hsame ▸ hfirst)
      · refine ⟨i, List.mem_cons_of_mem _ hi, hia, fun j hj hjle => ?_⟩
        cases List.mem_cons.mp hj with
        | inl heq => exact absurd (heq ▸ hjle) hfirst
        | inr hmem => exact hhighest j hmem hjle
    · obtain ⟨i, hi, hia⟩ := ha
      have heq : i = first := (List.mem_cons.mp hi).resolve_right fun hmem => hrest ⟨i, hmem, hia⟩
      subst heq
      refine ⟨i, List.mem_cons_self, hia, fun j hj hjle => ?_⟩
      cases List.mem_cons.mp hj with
      | inl heq => exact heq
      | inr hmem => exact absurd ⟨j, hmem, h.trans _ _ _ hjle hia⟩ hrest

/-- The two lists admit what their surviving includes and retained excludes admit. -/
theorem admits_reduced (h : IsTree le) (includes excludes : List α) (a : α) :
    ((∃ i, Surviving le includes excludes i ∧ le i a) ∧
        ∀ e, Retained le includes excludes e → ¬ le e a) ↔
      Admits le includes excludes a := by
  constructor
  · rintro ⟨⟨i, ⟨hi, hout, _⟩, hia⟩, hretained⟩
    refine ⟨⟨i, hi, hia⟩, fun e he hea => ?_⟩
    have hei := hout e he
    have hie := (h.chain i e a hia hea).resolve_right hei
    refine hretained e ⟨he, i, hi, hie, fun heq => hei ?_, hei⟩ hea
    rw [heq]
    exact h.refl e
  · intro hadmits
    obtain ⟨i, hi, hia, hhighest⟩ := exists_highest h hadmits.1
    exact ⟨⟨i, ⟨hi, admits_of_le h hia hadmits, hhighest⟩, hia⟩, fun e he => hadmits.2 e he.1⟩

/-- Some include survives exactly if something is admitted. -/
theorem exists_surviving_iff (h : IsTree le) (includes excludes : List α) :
    (∃ i, Surviving le includes excludes i) ↔ ∃ a, Admits le includes excludes a := by
  constructor
  · rintro ⟨i, hi, hout, _⟩
    exact ⟨i, ⟨i, hi, h.refl i⟩, hout⟩
  · rintro ⟨a, ha⟩
    obtain ⟨i, hi, hia, hhighest⟩ := exists_highest h ha.1
    exact ⟨i, hi, admits_of_le h hia ha, hhighest⟩

/-! ## Lists under their prefixes -/

theorem isTree_prefix : IsTree (fun a b : List α => a <+: b) where
  refl := List.prefix_refl
  trans := fun _ _ _ => List.IsPrefix.trans
  antisymm := fun _ _ hab hba => hab.eq_of_length (Nat.le_antisymm hab.length_le hba.length_le)
  chain := fun _ _ _ => List.prefix_or_prefix_of_prefix

/-- A tree order seen through an injective map. -/
theorem IsTree.comap {β : Type} (h : IsTree le) {f : β → α} (hf : ∀ a b, f a = f b → a = b) :
    IsTree (fun a b => le (f a) (f b)) where
  refl := fun a => h.refl (f a)
  trans := fun a b c => h.trans (f a) (f b) (f c)
  antisymm := fun a b hab hba => hf a b (h.antisymm _ _ hab hba)
  chain := fun a b c => h.chain (f a) (f b) (f c)

end TreeOrder
