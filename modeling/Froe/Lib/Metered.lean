import Froe.Lib.Except
import Mathlib.Algebra.BigOperators.Group.List.Basic

/-!
# Metered programs

A program advances a meter as it goes and refuses once a reading is not within its limits.
A reading that is within the limits has only such readings before it, so a program refuses
exactly when the limits do not admit the reading at its end.  `Spends` says so of a program
of a known result and a known advance, and it is proved along the program.
-/

namespace Metered

/-- The readings that a machine can represent, and those within some limits. -/
structure Meter (σ : Type) [AddMonoid σ] where
  representable : σ → Prop
  within : σ → Prop
  representable_of_add : ∀ s t, representable (s + t) → representable s
  within_of_add : ∀ s t, within (s + t) → within s

variable {σ ε α β : Type} [AddMonoid σ]

/-- A program advances the meter by so much and returns a value, or it refuses because the limits
do not admit the advance. -/
def Spends (meter : Meter σ) (program : StateT σ (Except ε) α) (a : α) (t : σ) : Prop :=
  ∀ s, meter.representable (s + t) → meter.within s →
    (meter.within (s + t) → program.run s = .ok (a, s + t)) ∧
    (¬ meter.within (s + t) → ∃ e, program.run s = .error e)

variable {meter : Meter σ}

theorem spends_pure (a : α) : Spends (ε := ε) meter (pure a) a 0 := by
  intro s _ hwithin
  rw [add_zero]
  exact ⟨fun _ => rfl, fun hnot => absurd hwithin hnot⟩

variable {program : StateT σ (Except ε) α}

theorem Spends.andThen {next : α → StateT σ (Except ε) β}
    {a : α} {b : β} {t u : σ} (h : Spends meter program a t) (hnext : Spends meter (next a) b u) :
    Spends meter (program >>= next) b (t + u) := by
  intro s hrepresentable hwithin
  rw [← add_assoc] at hrepresentable ⊢
  obtain ⟨hdone, hrefused⟩ := h s (meter.representable_of_add _ _ hrepresentable) hwithin
  by_cases hfirst : meter.within (s + t)
  · obtain ⟨hdone', hrefused'⟩ := hnext (s + t) hrepresentable hfirst
    have hrun : (program >>= next).run s = (next a).run (s + t) := by
      rw [StateT.run_bind, hdone hfirst]
      rfl
    rw [hrun]
    exact ⟨hdone', hrefused'⟩
  · refine ⟨fun hall => absurd (meter.within_of_add _ _ hall) hfirst, fun _ => ?_⟩
    obtain ⟨e, herror⟩ := hrefused hfirst
    refine ⟨e, ?_⟩
    rw [StateT.run_bind, herror]
    rfl

/-- A step that leaves the meter alone. -/
theorem Spends.goOn {program : StateT σ (Except ε) α} {next : α → StateT σ (Except ε) β} {a : α}
    {b : β} {t : σ} (h : Spends meter program a 0) (hnext : Spends meter (next a) b t) :
    Spends meter (program >>= next) b t := by
  rw [← zero_add t]
  exact h.andThen hnext

/-- A last step that leaves the meter alone. -/
theorem Spends.thenPure {a : α} {t : σ} (f : α → β) (h : Spends meter program a t) :
    Spends meter (program >>= fun result => pure (f result)) (f a) t := by
  rw [← add_zero t]
  exact h.andThen (spends_pure (f a))

/-- A loop advances the meter by what its rounds do. -/
theorem spends_forM {γ : Type} {program : γ → StateT σ (Except ε) PUnit} {values : List γ}
    {advances : List σ}
    (h : List.Forall₂ (fun value t => Spends meter (program value) ⟨⟩ t) values advances) :
    Spends meter (values.forM program) ⟨⟩ advances.sum := by
  induction h with
  | nil => exact spends_pure PUnit.unit
  | cons hfirst _ ih =>
    rw [List.sum_cons]
    exact hfirst.andThen ih

end Metered
