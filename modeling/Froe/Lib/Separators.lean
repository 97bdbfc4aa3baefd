import Mathlib.Data.List.Infix

/-!
# Texts with separators

Pieces joined by a separator that occurs in no piece can be told apart again
(`append_separated_inj`), and a text written in a prefix-free code is read back piece by
piece (`PrefixFree.flatMap_append`).
-/

namespace Separators

open List (append_nil flatMap_cons mem_cons_self)

variable {α β : Type}

def separated (separator : α) (pieces : List (List α)) : List α :=
  pieces.flatMap (separator :: ·)

@[simp] theorem separated_nil (separator : α) : separated separator [] = [] := rfl

section

variable (separator : α) (piece : List α) (pieces : List (List α))

@[simp] theorem separated_cons :
    separated separator (piece :: pieces) = separator :: (piece ++ separated separator pieces) :=
  flatMap_cons ..

theorem intercalate_cons :
    [separator].intercalate (piece :: pieces) = piece ++ separated separator pieces := by
  induction pieces generalizing piece with
  | nil => simp [List.intercalate]
  | cons next pieces ih =>
    rw [List.intercalate_cons_cons, ih, separated_cons]
    simp

end

/-- A text is cut at the first occurrence of an element in one way. -/
theorem append_cons_inj {x : α} {a b c d : List α} (ha : x ∉ a) (hb : x ∉ b) :
    a ++ x :: c = b ++ x :: d ↔ a = b ∧ c = d := by
  constructor
  · intro h
    rcases List.append_eq_append_iff.mp h with ⟨e, rfl, he⟩ | ⟨e, rfl, he⟩
    · cases e with
      | nil => exact ⟨(append_nil a).symm, (List.cons.inj he).2⟩
      | cons y e =>
        obtain ⟨rfl, -⟩ := List.cons.inj he
        exact absurd (List.mem_append_right a mem_cons_self) hb
    · cases e with
      | nil => exact ⟨append_nil b, (List.cons.inj he).2.symm⟩
      | cons y e =>
        obtain ⟨rfl, -⟩ := List.cons.inj he
        exact absurd (List.mem_append_right b mem_cons_self) ha
  · rintro ⟨rfl, rfl⟩
    rfl

/-- Separated pieces can be told apart. -/
theorem append_separated_inj {x : α} {a b : List α} {as bs : List (List α)} (ha : x ∉ a)
    (hb : x ∉ b) (has : ∀ piece ∈ as, x ∉ piece) (hbs : ∀ piece ∈ bs, x ∉ piece) :
    a ++ separated x as = b ++ separated x bs ↔ a = b ∧ as = bs := by
  constructor
  · intro h
    induction as generalizing a b bs with
    | nil =>
      cases bs with
      | nil =>
        rw [separated_nil, append_nil, append_nil] at h
        exact ⟨h, rfl⟩
      | cons piece bs =>
        rw [separated_nil, append_nil, separated_cons] at h
        exact absurd (h ▸ List.mem_append_right b mem_cons_self) ha
    | cons first as ih =>
      cases bs with
      | nil =>
        rw [separated_nil, append_nil, separated_cons] at h
        exact absurd (h ▸ List.mem_append_right a mem_cons_self) hb
      | cons second bs =>
        rw [separated_cons, separated_cons, append_cons_inj ha hb] at h
        obtain ⟨rfl, h⟩ := h
        obtain ⟨rfl, rfl⟩ := ih (has first mem_cons_self) (hbs second mem_cons_self)
          (fun piece hpiece => has piece (List.mem_cons_of_mem _ hpiece))
          (fun piece hpiece => hbs piece (List.mem_cons_of_mem _ hpiece)) h
        exact ⟨rfl, rfl⟩
  · rintro ⟨rfl, rfl⟩
    rfl

/-! ## Prefix-free codes -/

/-- Where a code word ends can be told from what comes. -/
def PrefixFree (code : α → List β) : Prop :=
  ∀ a b rest later, code a ++ rest = code b ++ later → a = b ∧ rest = later

section

variable {code : α → List β} (h : PrefixFree code) (hne : ∀ a, code a ≠ []) {as bs : List α}
include h hne

/-- A text that begins as the code of some letters does not go on inside a code word. -/
theorem PrefixFree.flatMap_append {rest : List β}
    (heq : bs.flatMap code = as.flatMap code ++ rest) :
    ∃ later, bs = as ++ later ∧ rest = later.flatMap code := by
  induction as generalizing bs with
  | nil => exact ⟨bs, rfl, heq.symm⟩
  | cons a as ih =>
    cases bs with
    | nil =>
      have hnil := List.append_eq_nil_iff.mp heq.symm
      rw [flatMap_cons, List.append_eq_nil_iff] at hnil
      exact absurd hnil.1.1 (hne a)
    | cons b bs =>
      rw [flatMap_cons, flatMap_cons, List.append_assoc] at heq
      obtain ⟨rfl, hrest⟩ := h b a _ _ heq
      obtain ⟨later, rfl, hlater⟩ := ih hrest
      exact ⟨later, rfl, hlater⟩

theorem PrefixFree.flatMap_inj : as.flatMap code = bs.flatMap code ↔ as = bs := by
  constructor
  · intro heq
    obtain ⟨later, rfl, hlater⟩ := h.flatMap_append hne (heq.trans (append_nil _).symm)
    cases later with
    | nil => exact append_nil bs
    | cons a later =>
      rw [flatMap_cons, eq_comm, List.append_eq_nil_iff] at hlater
      exact absurd hlater.1 (hne a)
  · rintro rfl
    rfl

end

end Separators
