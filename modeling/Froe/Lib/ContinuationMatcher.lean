import Mathlib.Computability.Language

/-!
# Matching with continuations

A matcher is run on a text and on a continuation that is asked about what the matcher leaves.
It decides a language when it accepts exactly the texts that begin with a word of the
language and go on as the continuation wants (`Decides`).  Matchers that decide languages
are put together to matchers that decide their products, sums and iterations.  An iteration
only goes on behind a word that is not empty, so that it ends on every text.
-/

namespace ContinuationMatcher

variable {α : Type}

abbrev Matcher (α : Type) := List α → (List α → Bool) → Bool

/-- A matcher accepts exactly the texts that begin with a word of a language and go on as the
continuation wants. -/
def Decides (m : Matcher α) (l : Language α) : Prop :=
  ∀ input rest, m input rest = true ↔ ∃ word left, input = word ++ left ∧ word ∈ l ∧ rest left = true

/-- The matcher that asks the continuation at once. -/
def empty : Matcher α := fun input rest => rest input

/-- One symbol that satisfies a predicate. -/
def symbol (p : α → Bool) : Matcher α
  | [], _ => false
  | a :: input, rest => p a && rest input

/-- One matcher behind another. -/
def seq (m m' : Matcher α) : Matcher α := fun input rest => m input fun left => m' left rest

/-- One matcher or, if it fails, another. -/
def orElse (m m' : Matcher α) : Matcher α := fun input rest => m input rest || m' input rest

/-- A matcher any number of times, each of which leaves a shorter text. -/
def star (m : Matcher α) (input : List α) (rest : List α → Bool) : Bool :=
  m input (fun left => if left.length < input.length then star m left rest else false) || rest input
termination_by input.length

variable {m m' : Matcher α} {l l' : Language α}

/-- A whole text is accepted exactly when it is a word of the language. -/
theorem Decides.whole (h : Decides m l) (input : List α) :
    m input List.isEmpty = true ↔ input ∈ l := by
  rw [h]
  constructor
  · rintro ⟨word, left, rfl, hword, hleft⟩
    rw [List.isEmpty_iff.mp hleft, List.append_nil]
    exact hword
  · intro hinput
    exact ⟨input, [], (List.append_nil _).symm, hinput, rfl⟩

theorem decides_empty : Decides (empty : Matcher α) 1 := by
  intro input rest
  constructor
  · exact fun h => ⟨[], input, rfl, rfl, h⟩
  · rintro ⟨word, left, rfl, hword, hrest⟩
    rw [(Language.mem_one word).mp hword]
    exact hrest

theorem decides_symbol (p : α → Bool) : Decides (symbol p) {word | ∃ a, word = [a] ∧ p a = true} := by
  intro input rest
  cases input with
  | nil =>
    constructor
    · nofun
    · rintro ⟨word, left, hinput, ⟨a, rfl, -⟩, -⟩
      cases hinput
  | cons a input =>
    rw [symbol, Bool.and_eq_true]
    constructor
    · rintro ⟨ha, hrest⟩
      exact ⟨[a], input, rfl, ⟨a, rfl, ha⟩, hrest⟩
    · rintro ⟨word, left, hinput, ⟨b, rfl, hb⟩, hrest⟩
      obtain ⟨rfl, rfl⟩ := List.cons.inj hinput
      exact ⟨hb, hrest⟩

theorem Decides.seq (h : Decides m l) (h' : Decides m' l') :
    Decides (ContinuationMatcher.seq m m') (l * l') := by
  intro input rest
  rw [ContinuationMatcher.seq, h]
  constructor
  · rintro ⟨word, left, rfl, hword, hleft⟩
    obtain ⟨word', left', rfl, hword', hrest⟩ := (h' left rest).mp hleft
    refine ⟨word ++ word', left', (List.append_assoc ..).symm, ?_, hrest⟩
    exact Language.mem_mul.mpr ⟨word, hword, word', hword', rfl⟩
  · rintro ⟨both, left, rfl, hboth, hrest⟩
    obtain ⟨word, hword, word', hword', rfl⟩ := Language.mem_mul.mp hboth
    exact ⟨word, word' ++ left, List.append_assoc .., hword,
      (h' _ rest).mpr ⟨word', left, rfl, hword', hrest⟩⟩

theorem Decides.orElse (h : Decides m l) (h' : Decides m' l') :
    Decides (ContinuationMatcher.orElse m m') (l + l') := by
  intro input rest
  rw [ContinuationMatcher.orElse, Bool.or_eq_true, h, h']
  constructor
  · rintro (⟨word, left, hinput, hword, hrest⟩ | ⟨word, left, hinput, hword, hrest⟩)
    · exact ⟨word, left, hinput, .inl hword, hrest⟩
    · exact ⟨word, left, hinput, .inr hword, hrest⟩
  · rintro ⟨word, left, hinput, hword | hword, hrest⟩
    · exact .inl ⟨word, left, hinput, hword, hrest⟩
    · exact .inr ⟨word, left, hinput, hword, hrest⟩

theorem append_mem_kstar {word word' : List α} (h : word ∈ l) (h' : word' ∈ KStar.kstar l) :
    word ++ word' ∈ KStar.kstar l := by
  obtain ⟨words, rfl, hwords⟩ := Language.mem_kstar.mp h'
  refine Language.mem_kstar.mpr ⟨word :: words, rfl, fun w hw => ?_⟩
  rcases List.mem_cons.mp hw with rfl | hw
  · exact h
  · exact hwords w hw

/-- A word of an iteration is empty or begins with a word that is not. -/
theorem kstar_cases {word : List α} (h : word ∈ KStar.kstar l) :
    word = [] ∨ ∃ first others, word = first ++ others ∧ first ∈ l ∧ first ≠ [] ∧
      others ∈ KStar.kstar l := by
  obtain ⟨words, rfl, hwords⟩ := Language.mem_kstar_iff_exists_nonempty.mp h
  cases words with
  | nil => exact .inl rfl
  | cons first words =>
    obtain ⟨hfirst, hne⟩ := hwords first List.mem_cons_self
    refine .inr ⟨first, words.flatten, rfl, hfirst, hne, Language.mem_kstar.mpr ⟨words, rfl, ?_⟩⟩
    exact fun w hw => (hwords w (List.mem_cons_of_mem _ hw)).1

/-- An iteration decides the iterated language, also when that has the empty word. -/
theorem Decides.star (h : Decides m l) : Decides (ContinuationMatcher.star m) (KStar.kstar l) := by
  intro input rest
  obtain ⟨length, hlength⟩ : ∃ length, length = input.length := ⟨_, rfl⟩
  induction length using Nat.strong_induction_on generalizing input with
  | _ length ih =>
    rw [ContinuationMatcher.star, Bool.or_eq_true, h]
    constructor
    · rintro (⟨word, left, rfl, hword, hleft⟩ | hrest)
      · split at hleft
        · rename_i hshorter
          obtain ⟨word', left', rfl, hword', hrest⟩ := (ih _ (hlength ▸ hshorter) left rfl).mp hleft
          exact ⟨word ++ word', left', (List.append_assoc ..).symm, append_mem_kstar hword hword',
            hrest⟩
        · cases hleft
      · exact ⟨[], input, rfl, Language.nil_mem_kstar l, hrest⟩
    · rintro ⟨all, left, rfl, hall, hrest⟩
      rcases kstar_cases hall with rfl | ⟨first, others, rfl, hfirst, hne, hothers⟩
      · exact .inr hrest
      · have hshorter : (others ++ left).length < (first ++ others ++ left).length := by
          have hlonger : (first ++ (others ++ left)).length =
              first.length + (others ++ left).length := List.length_append
          rw [List.append_assoc, hlonger]
          exact Nat.lt_add_of_pos_left (List.length_pos_of_ne_nil hne)
        refine .inl ⟨first, others ++ left, List.append_assoc .., hfirst, ?_⟩
        rw [if_pos hshorter]
        exact (ih _ (hlength ▸ hshorter) _ rfl).mpr ⟨others, left, rfl, hothers, hrest⟩

end ContinuationMatcher
