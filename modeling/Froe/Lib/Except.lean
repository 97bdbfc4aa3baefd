import Mathlib.Data.List.Forall2

/-!
# Peeling fallible computations apart

A computation written as a sequence of fallible steps succeeds exactly when
every step does.  `Except.bind_ok_iff` turns one step of a `do` block into the
value it returned, so that a proof walks through the block with `obtain` and
never unfolds it.
-/

namespace Except

variable {ε α β : Type}

@[simp] theorem ok_bind_eq (a : α) (f : α → Except ε β) : (ok a >>= f) = f a := rfl

@[simp] theorem error_bind_eq (e : ε) (f : α → Except ε β) : (error e >>= f) = error e := rfl

theorem bind_ok_iff {x : Except ε α} {f : α → Except ε β} {b : β} :
    x >>= f = ok b ↔ ∃ a, x = ok a ∧ f a = ok b := by
  cases x with
  | error e => simp
  | ok a => simp

variable {a : α} {g : α → Except ε β} {bs : List β}

theorem pure_ok_iff {b : α} : (pure a : Except ε α) = ok b ↔ a = b := by
  simp [pure, Except.pure]

/-! ## Loops -/

variable {σ : Type} {f : σ → α → Except ε σ} {l : List α} {s s' : σ}

theorem foldlM_cons_ok_iff :
    (a :: l).foldlM f s = ok s' ↔ ∃ t, f s a = ok t ∧ l.foldlM f t = ok s' := by
  rw [List.foldlM_cons, bind_ok_iff]

/-- What every round preserves holds at the end of a loop. -/
theorem foldlM_invariant {P : σ → Prop}
    (hstep : ∀ a ∈ l, ∀ t t', P t → f t a = ok t' → P t') (h : l.foldlM f s = ok s') (hs : P s) :
    P s' := by
  induction l generalizing s with
  | nil =>
    cases h
    exact hs
  | cons a l ih =>
    obtain ⟨t, ha, hl⟩ := foldlM_cons_ok_iff.mp h
    exact ih (fun b hb => hstep b (List.mem_cons_of_mem _ hb)) hl
      (hstep a (List.mem_cons_self ..) s t hs ha)

theorem forM_ok {g : α → Except ε PUnit} (h : ∀ a ∈ l, g a = ok ⟨⟩) : l.forM g = ok ⟨⟩ := by
  induction l with
  | nil => rfl
  | cons a l ih =>
    rw [List.forM, h a (List.mem_cons_self ..)]
    exact ih fun b hb => h b (List.mem_cons_of_mem _ hb)

/-- A check of every element has passed for each. -/
theorem forM_ok_mem {g : α → Except ε Unit} (h : l.forM g = ok ()) (ha : a ∈ l) :
    g a = ok () := by
  induction l with
  | nil => cases ha
  | cons b l ih =>
    obtain ⟨⟨⟩, hb, hl⟩ := bind_ok_iff.mp h
    rcases List.mem_cons.mp ha with rfl | ha
    · exact hb
    · exact ih hl ha

/-- A loop that succeeds has succeeded in every round. -/
theorem foldlM_ok_mem (h : l.foldlM f s = ok s') (ha : a ∈ l) :
    ∃ t t', f t a = ok t' := by
  induction l generalizing s with
  | nil => cases ha
  | cons b l ih =>
    obtain ⟨t, hb, hl⟩ := foldlM_cons_ok_iff.mp h
    rcases List.mem_cons.mp ha with rfl | ha
    · exact ⟨s, t, hb⟩
    · exact ih hl ha

theorem mapM_cons_ok_iff :
    (a :: l).mapM g = ok bs ↔ ∃ b rest, g a = ok b ∧ l.mapM g = ok rest ∧ bs = b :: rest := by
  rw [List.mapM_cons, bind_ok_iff]
  constructor
  · rintro ⟨b, hb, h⟩
    obtain ⟨rest, hrest, h⟩ := bind_ok_iff.mp h
    exact ⟨b, rest, hb, hrest, (pure_ok_iff.mp h).symm⟩
  · rintro ⟨b, rest, hb, hrest, rfl⟩
    exact ⟨b, hb, bind_ok_iff.mpr ⟨rest, hrest, rfl⟩⟩

/-- A loop that collects succeeds when every round does. -/
theorem mapM_ok_iff :
    l.mapM g = ok bs ↔ List.Forall₂ (fun a b => g a = ok b) l bs := by
  induction l generalizing bs with
  | nil =>
    rw [List.mapM_nil, pure_ok_iff, List.forall₂_nil_left_iff]
    exact eq_comm
  | cons a l ih =>
    rw [mapM_cons_ok_iff, List.forall₂_cons_left_iff]
    constructor
    · rintro ⟨b, rest, hb, hrest, rfl⟩
      exact ⟨b, rest, hb, ih.mp hrest, rfl⟩
    · rintro ⟨b, rest, hb, hrest, rfl⟩
      exact ⟨b, rest, hb, ih.mpr hrest, rfl⟩

/-- A result of a loop that collects is the result of a round. -/
theorem mapM_ok_mem (h : l.mapM g = ok bs) {b : β} (hb : b ∈ bs) : ∃ a ∈ l, g a = ok b := by
  induction l generalizing bs with
  | nil =>
    cases h
    cases hb
  | cons a l ih =>
    obtain ⟨first, rest, hfirst, hrest, rfl⟩ := mapM_cons_ok_iff.mp h
    rcases List.mem_cons.mp hb with rfl | hb
    · exact ⟨a, List.mem_cons_self, hfirst⟩
    · obtain ⟨other, hother, hround⟩ := ih hrest hb
      exact ⟨other, List.mem_cons_of_mem _ hother, hround⟩

/-- A loop that collects succeeds when every element can. -/
theorem exists_mapM (h : ∀ a ∈ l, ∃ b, g a = ok b) :
    ∃ bs, l.mapM g = ok bs := by
  induction l with
  | nil => exact ⟨[], rfl⟩
  | cons a l ih =>
    obtain ⟨b, hb⟩ := h a List.mem_cons_self
    obtain ⟨rest, hrest⟩ := ih fun a ha => h a (List.mem_cons_of_mem _ ha)
    exact ⟨_, mapM_cons_ok_iff.mpr ⟨b, rest, hb, hrest, rfl⟩⟩

/-- What each result keeps of its element, the list of results keeps of the list. -/
theorem mapM_ok_map {γ : Type} {p : β → γ} {q : α → γ}
    (h : l.mapM g = ok bs) (hstep : ∀ a b, g a = ok b → p b = q a) : bs.map p = l.map q := by
  induction l generalizing bs with
  | nil =>
    cases h
    rfl
  | cons a l ih =>
    obtain ⟨b, rest, hb, hrest, rfl⟩ := mapM_cons_ok_iff.mp h
    rw [List.map_cons, List.map_cons, ih hrest, hstep a b hb]

/-- A loop over the numbers below a bound, by the results. -/
theorem mapM_range_ok_iff {n : Nat} {g : Nat → Except ε β} :
    (List.range n).mapM g = ok bs ↔
      bs.length = n ∧ ∀ i (hi : i < bs.length), g i = ok bs[i] := by
  rw [mapM_ok_iff, List.forall₂_iff_get]
  simp only [List.length_range, List.get_eq_getElem, List.getElem_range]
  constructor
  · rintro ⟨rfl, h⟩
    exact ⟨rfl, fun i hi => h i hi hi⟩
  · rintro ⟨rfl, h⟩
    exact ⟨rfl, fun i _ hi => h i hi⟩

end Except

/-! ## Computations over a state -/

namespace StateT

variable {σ ε α β : Type} {s s' : σ}

variable {b : β} {t : σ}

theorem bind_ok_iff {x : StateT σ (Except ε) α} {f : α → StateT σ (Except ε) β} :
    (x >>= f).run s = .ok (b, s') ↔
      ∃ a t, x.run s = .ok (a, t) ∧ (f a).run t = .ok (b, s') := by
  rw [StateT.run_bind, Except.bind_ok_iff]
  exact Prod.exists

variable {a : α}

theorem pure_ok_iff {b : α} :
    (pure a : StateT σ (Except ε) α).run s = .ok (b, s') ↔ a = b ∧ s = s' := by
  rw [StateT.run_pure, Except.pure_ok_iff, Prod.mk.injEq]

theorem get_ok_iff :
    (get : StateT σ (Except ε) σ).run s = .ok (t, s') ↔ s = t ∧ s = s' := by
  rw [StateT.run_get, Except.pure_ok_iff, Prod.mk.injEq]

theorem set_ok_iff :
    (set t : StateT σ (Except ε) PUnit).run s = .ok (⟨⟩, s') ↔ t = s' := by
  rw [StateT.run_set, Except.pure_ok_iff, Prod.mk.injEq]
  exact and_iff_right rfl

theorem get_bind_ok_iff {f : σ → StateT σ (Except ε) β} :
    (get >>= f).run s = .ok (b, s') ↔ (f s).run s = .ok (b, s') := Iff.rfl

theorem set_bind_ok_iff {f : PUnit → StateT σ (Except ε) β} :
    (set t >>= f).run s = .ok (b, s') ↔ (f ⟨⟩).run t = .ok (b, s') := Iff.rfl

theorem lift_ok_iff {x : Except ε α} :
    (liftM x : StateT σ (Except ε) α).run s = .ok (a, s') ↔ x = .ok a ∧ s = s' := by
  cases x with
  | error e =>
    simp [liftM, monadLift, MonadLift.monadLift, StateT.lift, StateT.run, bind, Except.bind]
  | ok a =>
    simp [liftM, monadLift, MonadLift.monadLift, StateT.lift, StateT.run, bind, Except.bind, pure,
      Except.pure]

theorem throw_ok {e : ε} :
    ¬ (throw e : StateT σ (Except ε) α).run s = .ok (a, s') := by
  intro h
  cases h

section

variable {f : α → StateT σ (Except ε) β} {l : List α} {bs : List β}

theorem mapM_length (h : (l.mapM f).run s = .ok (bs, s')) : l.length = bs.length := by
  induction l generalizing s s' bs with
  | nil =>
    obtain ⟨rfl, -⟩ := pure_ok_iff.mp h
    rfl
  | cons a l ih =>
    rw [List.mapM_cons] at h
    obtain ⟨b, t, -, h⟩ := bind_ok_iff.mp h
    obtain ⟨rest, u, hrest, h⟩ := bind_ok_iff.mp h
    obtain ⟨rfl, -⟩ := pure_ok_iff.mp h
    rw [List.length_cons, List.length_cons, ih hrest]

/-- What every round of a loop that collects keeps, and says of its result in every later state,
holds at its end. -/
theorem mapM_spec {R : σ → σ → Prop} {Q : α → β → σ → Prop} (hrefl : ∀ s, R s s) (htrans : ∀ s t u, R s t → R t u → R s u)
    (hmono : ∀ a b s t, Q a b s → R s t → Q a b t)
    (hstep : ∀ a ∈ l, ∀ t b t', R s t → (f a).run t = .ok (b, t') → R t t' ∧ Q a b t')
    (h : (l.mapM f).run s = .ok (bs, s')) : R s s' ∧ List.Forall₂ (fun a b => Q a b s') l bs := by
  induction l generalizing s bs with
  | nil =>
    rw [List.mapM_nil] at h
    obtain ⟨rfl, rfl⟩ := pure_ok_iff.mp h
    exact ⟨hrefl _, .nil⟩
  | cons a l ih =>
    rw [List.mapM_cons] at h
    obtain ⟨b, t, hb, h⟩ := bind_ok_iff.mp h
    obtain ⟨rest, u, hrest, h⟩ := bind_ok_iff.mp h
    obtain ⟨rfl, rfl⟩ := pure_ok_iff.mp h
    obtain ⟨hfirst, hQ⟩ := hstep a (List.mem_cons_self ..) s b t (hrefl s) hb
    obtain ⟨hlater, hall⟩ := ih (fun a' ha' t' b' u' ht' => hstep a' (List.mem_cons_of_mem _ ha')
      t' b' u' (htrans _ _ _ hfirst ht')) hrest
    exact ⟨htrans _ _ _ hfirst hlater, .cons (hmono _ _ _ _ hQ hlater) hall⟩

end

end StateT
