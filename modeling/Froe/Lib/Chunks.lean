import Mathlib.Data.List.Forall2

/-!
# Cutting a list into chunks

`chunks n l` cuts a list into pieces of `n` elements, of which the last may be
shorter.  Chunks of chunks are chunks (`chunks_mul`), which is what makes a tree
of buckets built level by level a tree of the powers of the bucket size.
-/

namespace List

variable {α : Type*}

/-- The pieces of a list, with a bound on their number. -/
def chunksFrom (n : Nat) : Nat → List α → List (List α)
  | 0, _ => []
  | _ + 1, [] => []
  | fuel + 1, a :: l => (a :: l).take n :: chunksFrom n fuel ((a :: l).drop n)

/-- The pieces of `n` elements of a list. -/
def chunks (n : Nat) (l : List α) : List (List α) := chunksFrom n l.length l

@[simp] theorem chunks_nil (n : Nat) : chunks n ([] : List α) = [] := rfl

variable {n : Nat}

variable {l : List α}

section

variable (hn : 0 < n)
include hn

theorem chunksFrom_eq {fuel : Nat} (h : l.length ≤ fuel) :
    chunksFrom n fuel l = chunks n l := by
  induction fuel using Nat.strongRecOn generalizing l with
  | _ fuel ih =>
    cases l with
    | nil => cases fuel <;> rfl
    | cons a l =>
      cases fuel with
      | zero => simp at h
      | succ fuel =>
        rw [length_cons] at h
        have hdrop : ((a :: l).drop n).length ≤ l.length := by
          rw [length_drop, length_cons]
          omega
        rw [chunks, length_cons, chunksFrom, chunksFrom,
          ih fuel (by omega) (Nat.le_trans hdrop (by omega)), ih l.length (by omega) hdrop]

theorem chunks_of_ne_nil (h : l ≠ []) :
    chunks n l = l.take n :: chunks n (l.drop n) := by
  cases l with
  | nil => exact absurd rfl h
  | cons a l =>
    rw [chunks, length_cons, chunksFrom, chunksFrom_eq hn (by
      rw [length_drop, length_cons]
      omega)]

/-- A property of lists that holds when it holds of what follows the first chunk. -/
theorem chunks_induction {P : List α → Prop} (hnil : P [])
    (hstep : ∀ l, l ≠ [] → P (l.drop n) → P l) (l : List α) : P l := by
  induction hl : l.length using Nat.strongRecOn generalizing l with
  | _ k ih =>
    cases l with
    | nil => exact hnil
    | cons a l =>
      refine hstep _ (cons_ne_nil a l) (ih _ ?_ _ rfl)
      rw [length_drop, ← hl, length_cons]
      omega

@[simp] theorem flatten_chunks (l : List α) : (chunks n l).flatten = l := by
  induction l using chunks_induction hn with
  | hnil => rfl
  | hstep l hne ih => rw [chunks_of_ne_nil hn hne, flatten_cons, ih, take_append_drop]

theorem length_chunks (l : List α) :
    (chunks n l).length = (l.length + n - 1) / n := by
  induction l using chunks_induction hn with
  | hnil =>
    rw [chunks_nil, length_nil, length_nil, Nat.zero_add, Nat.div_eq_of_lt (by omega)]
  | hstep l hne ih =>
    have hpos := length_pos_iff.mpr hne
    rw [chunks_of_ne_nil hn hne, length_cons, ih, length_drop]
    rcases Nat.lt_or_ge n l.length with hlt | hge
    · rw [show l.length + n - 1 = l.length - n + n - 1 + n by omega, Nat.add_div_right _ hn]
    · rw [show l.length - n + n - 1 = n - 1 by omega,
        Nat.div_eq_of_lt (show n - 1 < n by omega),
        show l.length + n - 1 = l.length - 1 + n by omega, Nat.add_div_right _ hn,
        Nat.div_eq_of_lt (by omega)]

theorem mem_chunks {c : List α} (h : c ∈ chunks n l) :
    0 < c.length ∧ c.length ≤ n ∧ c ⊆ l := by
  induction l using chunks_induction hn with
  | hnil => cases h
  | hstep l hne ih =>
    rw [chunks_of_ne_nil hn hne] at h
    rcases mem_cons.mp h with rfl | h
    · have hpos := length_pos_iff.mpr hne
      rw [length_take]
      exact ⟨by omega, by omega, take_subset n l⟩
    · obtain ⟨hpos, hle, hsub⟩ := ih h
      exact ⟨hpos, hle, fun a ha => drop_subset n l (hsub ha)⟩

/-- A chunk by its number. -/
theorem getElem?_chunks (l : List α) (i : Nat) :
    (chunks n l)[i]? = if i * n < l.length then some ((l.drop (i * n)).take n) else none := by
  induction l using chunks_induction hn generalizing i with
  | hnil => simp
  | hstep l hne ih =>
    have hpos := length_pos_iff.mpr hne
    rw [chunks_of_ne_nil hn hne]
    cases i with
    | zero => simp [hpos]
    | succ i =>
      rw [getElem?_cons_succ, ih, length_drop, drop_drop, Nat.succ_mul, Nat.add_comm n]
      congr 1
      simp only [eq_iff_iff]
      omega

theorem take_chunks (m : Nat) (l : List α) :
    (chunks n l).take m = chunks n (l.take (m * n)) := by
  induction m generalizing l with
  | zero => simp
  | succ m ih =>
    cases l with
    | nil => simp
    | cons a l =>
      have hne : (a :: l).take ((m + 1) * n) ≠ [] := by
        rw [Nat.succ_mul]
        simp
        omega
      rw [chunks_of_ne_nil hn (cons_ne_nil a l), take_succ_cons, ih, chunks_of_ne_nil hn hne,
        take_take, drop_take, Nat.succ_mul]
      congr 2
      · omega
      · congr 1
        omega

theorem drop_chunks (m : Nat) (l : List α) :
    (chunks n l).drop m = chunks n (l.drop (m * n)) := by
  induction m generalizing l with
  | zero => simp
  | succ m ih =>
    cases l with
    | nil => simp
    | cons a l =>
      rw [chunks_of_ne_nil hn (cons_ne_nil a l), drop_succ_cons, ih, drop_drop, Nat.succ_mul,
        Nat.add_comm n]

/-- A list of pieces with the lengths of chunks, by element. -/
theorem getElem?_flatten_of_lengths {s : Nat} {ls : List (List α)}
    (hcount : ls.length = (s + n - 1) / n)
    (hlengths : ∀ i (hi : i < ls.length), ls[i].length = min (s - i * n) n) :
    ls.flatten.length = s ∧ ∀ i, i < s →
      ∃ piece, ls[i / n]? = some piece ∧ ls.flatten[i]? = piece[i - i / n * n]? := by
  induction ls generalizing s with
  | nil =>
    rw [length_nil, eq_comm, Nat.div_eq_zero_iff] at hcount
    obtain rfl : s = 0 := by omega
    exact ⟨rfl, fun i hi => absurd hi (Nat.not_lt_zero i)⟩
  | cons l ls ih =>
    have hhead : l.length = min s n := by
      have := hlengths 0 (by simp)
      simpa using this
    have hs : 0 < s := by
      by_contra h0
      rw [show s = 0 by omega, Nat.zero_add, Nat.div_eq_of_lt (by omega)] at hcount
      cases hcount
    have htail : ls.length = (s - n + n - 1) / n := by
      rw [length_cons] at hcount
      rcases Nat.lt_or_ge n s with hlt | hge
      · rw [show s + n - 1 = s - n + n - 1 + n by omega, Nat.add_div_right _ hn] at hcount
        omega
      · rw [show s + n - 1 = s - 1 + n by omega, Nat.add_div_right _ hn,
          Nat.div_eq_of_lt (by omega)] at hcount
        rw [show s - n + n - 1 = n - 1 by omega, Nat.div_eq_of_lt (by omega)]
        omega
    obtain ⟨hlength, helements⟩ := ih htail (fun i hi => by
      have := hlengths (i + 1) (by rw [length_cons]; omega)
      rw [getElem_cons_succ] at this
      rw [this, Nat.succ_mul]
      congr 1
      omega)
    rw [flatten_cons]
    refine ⟨by rw [length_append, hlength, hhead]; omega, fun i hi => ?_⟩
    rcases Nat.lt_or_ge i n with hlt | hge
    · rw [Nat.div_eq_of_lt hlt]
      refine ⟨l, rfl, ?_⟩
      rw [getElem?_append_left (by rw [hhead]; omega)]
      simp
    · obtain ⟨piece, hpiece, helement⟩ := helements (i - n) (by omega)
      have hdiv : i / n = (i - n) / n + 1 := by
        rw [← Nat.add_div_right _ hn, Nat.sub_add_cancel hge]
      refine ⟨piece, by rw [hdiv, getElem?_cons_succ]; exact hpiece, ?_⟩
      rw [getElem?_append_right (by rw [hhead]; omega), hhead, show min s n = n by omega, helement,
        hdiv, Nat.succ_mul]
      congr 1
      omega

theorem chunks_append_of_dvd {a b : List α} (h : n ∣ a.length) :
    chunks n (a ++ b) = chunks n a ++ chunks n b := by
  obtain ⟨m, hm⟩ := h
  rw [Nat.mul_comm] at hm
  rw [← take_append_drop m (chunks n (a ++ b)), take_chunks hn, drop_chunks hn, ← hm, take_left,
    drop_left]

end

theorem chunks_one (l : List α) : chunks 1 l = l.map fun a => [a] := by
  induction l with
  | nil => rfl
  | cons a l ih =>
    rw [chunks_of_ne_nil Nat.one_pos (cons_ne_nil a l), map_cons, drop_succ_cons, drop_zero, ih]
    rfl

/-! ## Relations with the chunks of a list -/

/-- What is related with the chunks, in chunks of its own. -/
theorem forall₂_chunks_mul {β : Type*} {R : β → List α → Prop} {m : Nat} (hm : 0 < m)
    (hn : 0 < n) {level : List β} (h : Forall₂ R level (chunks n l)) :
    Forall₂ (fun c piece => Forall₂ R c (chunks n piece) ∧ piece.length ≤ m * n) (chunks m level)
      (chunks (m * n) l) := by
  have hmn := Nat.mul_pos hm hn
  induction l using chunks_induction hmn generalizing level with
  | hnil =>
    cases h
    exact .nil
  | hstep l hne ih =>
    have hlevel : level ≠ [] := by
      rintro rfl
      rw [chunks_of_ne_nil hn hne] at h
      cases h
    rw [chunks_of_ne_nil hm hlevel, chunks_of_ne_nil hmn hne]
    refine .cons ⟨?_, by rw [length_take]; omega⟩ (ih ?_)
    · rw [← take_chunks hn]
      exact forall₂_take m h
    · rw [← drop_chunks hn]
      exact forall₂_drop m h

/-- Two lists that are related with the same list. -/
theorem forall₂_of_common {β γ : Type*} {R : α → β → Prop} {S : α → γ → Prop}
    {bs : List β} {cs : List γ} (h : Forall₂ R l bs) (h' : Forall₂ S l cs) :
    Forall₂ (fun b c => ∃ a, R a b ∧ S a c) bs cs := by
  induction h generalizing cs with
  | nil =>
    cases h'
    exact .nil
  | cons hab _ ih =>
    cases h' with
    | cons hac htail => exact .cons ⟨_, hab, hac⟩ (ih htail)

end List
