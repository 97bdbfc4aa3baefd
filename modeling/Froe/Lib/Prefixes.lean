import Mathlib.Data.List.Infix
import Mathlib.Order.Basic

/-!
# Common prefixes

The longest common prefix of two lists and of a family of lists, and the keys between
two keys of one prefix in the lexicographic order.
-/

namespace Prefixes

variable {α : Type} [DecidableEq α]

/-- The longest common prefix of two lists. -/
def common : List α → List α → List α
  | a :: l, b :: r => if a = b then a :: common l r else []
  | _, _ => []

/-- The longest common prefix of a family of lists. -/
def meet : List (List α) → List α
  | [] => []
  | l :: ls => ls.foldl common l

/-! ## Two lists -/

variable {p l r : List α} {ls : List (List α)}

theorem prefix_common_iff : p <+: common l r ↔ p <+: l ∧ p <+: r := by
  induction l generalizing p r with
  | nil =>
    cases r with
    | nil => simp [common]
    | cons b r =>
      simp only [common, List.prefix_nil]
      constructor
      · rintro rfl
        exact ⟨rfl, List.nil_prefix⟩
      · exact And.left
  | cons a l ih =>
    cases r with
    | nil =>
      simp only [common, List.prefix_nil]
      constructor
      · rintro rfl
        exact ⟨List.nil_prefix, rfl⟩
      · exact And.right
    | cons b r =>
      cases p with
      | nil => simp
      | cons c p =>
        rw [common]
        split
        next hab =>
          subst hab
          rw [List.cons_prefix_cons, List.cons_prefix_cons, List.cons_prefix_cons, ih]
          exact and_and_left
        next hab =>
          rw [List.cons_prefix_cons, List.cons_prefix_cons]
          constructor
          · intro h
            cases List.prefix_nil.mp h
          · rintro ⟨⟨rfl, _⟩, rfl, _⟩
            exact absurd rfl hab

theorem common_prefix_left (l r : List α) : common l r <+: l :=
  (prefix_common_iff.mp (List.prefix_refl _)).1

theorem common_prefix_right (l r : List α) : common l r <+: r :=
  (prefix_common_iff.mp (List.prefix_refl _)).2

omit [DecidableEq α] in
/-- Two lists with the same prefixes are equal. -/
theorem eq_of_prefixes (h : ∀ p, p <+: l ↔ p <+: r) : l = r :=
  ((h l).mp (List.prefix_refl l)).eq_of_length_le
    (((h r).mpr (List.prefix_refl r)).length_le)

theorem common_comm (l r : List α) : common l r = common r l := by
  apply eq_of_prefixes
  intro p
  rw [prefix_common_iff, prefix_common_iff, and_comm]

theorem common_append (p l r : List α) : common (p ++ l) (p ++ r) = p ++ common l r := by
  induction p with
  | nil => rfl
  | cons a p ih => rw [List.cons_append, List.cons_append, common, if_pos rfl, ih, List.cons_append]

/-- Without a prefix of both, the rest of what they share is left. -/
theorem common_drop (hl : p <+: l) (hr : p <+: r) :
    common (l.drop p.length) (r.drop p.length) = (common l r).drop p.length := by
  obtain ⟨s, rfl⟩ := hl
  obtain ⟨t, rfl⟩ := hr
  rw [List.drop_left, List.drop_left, common_append, List.drop_left]

@[simp] theorem common_nil (l : List α) : common l [] = [] := by
  cases l <;> rfl

@[simp] theorem nil_common (l : List α) : common [] l = [] := rfl

/-- The length of the common prefix, counted over pairs of elements. -/
theorem length_takeWhile_zip (l r : List α) :
    ((l.zip r).takeWhile fun x => x.1 == x.2).length = (common l r).length := by
  induction l generalizing r with
  | nil => rfl
  | cons a l ih =>
    cases r with
    | nil => rfl
    | cons b r =>
      rw [List.zip_cons_cons, common]
      by_cases h : a = b
      · rw [List.takeWhile_cons_of_pos (by simpa using h), if_pos h, List.length_cons, ih,
          List.length_cons]
      · rw [List.takeWhile_cons_of_neg (by simpa using h), if_neg h]
        rfl

theorem take_length_common (l r : List α) : l.take (common l r).length = common l r :=
  (List.prefix_iff_eq_take.mp (common_prefix_left l r)).symm

/-! ## Families -/

theorem prefix_foldl_common_iff :
    p <+: ls.foldl common l ↔ p <+: l ∧ ∀ r ∈ ls, p <+: r := by
  induction ls generalizing l with
  | nil => simp
  | cons r ls ih => rw [List.foldl_cons, ih, prefix_common_iff, List.forall_mem_cons, and_assoc]

theorem prefix_meet_iff (h : ls ≠ []) :
    p <+: meet ls ↔ ∀ l ∈ ls, p <+: l := by
  cases ls with
  | nil => exact absurd rfl h
  | cons l ls => rw [meet, prefix_foldl_common_iff, List.forall_mem_cons]

theorem meet_le (h : l ∈ ls) : meet ls <+: l :=
  (prefix_meet_iff (List.ne_nil_of_mem h)).mp (List.prefix_refl _) l h

@[simp] theorem meet_singleton (l : List α) : meet [l] = l := rfl

theorem meet_concat (h : ls ≠ []) (l : List α) :
    meet (ls ++ [l]) = common (meet ls) l := by
  cases ls with
  | nil => exact absurd rfl h
  | cons r ls => simp [meet, List.foldl_append]

/-- More lists have a shorter common prefix. -/
theorem meet_prefix_meet {rs : List (List α)} (h : ls ≠ []) (hsub : ∀ l ∈ ls, l ∈ rs) :
    meet rs <+: meet ls :=
  (prefix_meet_iff h).mpr fun l hl => meet_le (hsub l hl)

/-! ## Between two keys of one prefix -/

omit [DecidableEq α] in
theorem prefix_of_between [LT α] [Std.Asymm ((· < ·) : α → α → Prop)] {k : List α} (hl : p <+: l)
    (hr : p <+: r) (hlk : l < k) (hkr : k < r) : p <+: k := by
  induction p generalizing l k r with
  | nil => exact List.nil_prefix
  | cons a p ih =>
    obtain ⟨l, rfl⟩ := hl
    obtain ⟨r, rfl⟩ := hr
    cases k with
    | nil => exact absurd hlk (List.not_lt_nil _)
    | cons b k =>
      rw [List.cons_append, List.cons_lt_cons_iff] at hlk hkr
      rcases hlk with hab | ⟨rfl, hlk⟩
      · rcases hkr with hba | ⟨rfl, hkr⟩
        · exact absurd hba (Std.Asymm.asymm _ _ hab)
        · exact absurd hab (Std.Irrefl.irrefl _)
      · rcases hkr with hba | ⟨-, hkr⟩
        · exact absurd hba (Std.Irrefl.irrefl _)
        · exact List.cons_prefix_cons.mpr
            ⟨rfl, ih (List.prefix_append _ _) (List.prefix_append _ _) hlk hkr⟩

end Prefixes
