import Froe.Lucene.Fst

/-!
# Outputs shared along prefixes

What a transducer for a list of entries has at each prefix, said of the entries alone:
below a prefix every output starts with what the prefix has pushed (`pushed`), and what
is left of an output at a key is its ending (`ending`).  An entry that is added behind
the others changes this only at its own prefixes.
-/

namespace Froe

open Prefixes

namespace Fst

/-- The entries whose key starts with a prefix. -/
def below (entries : List (Bytes × Bytes)) (p : Bytes) : List (Bytes × Bytes) :=
  entries.filter fun entry => p.isPrefixOf entry.1

/-- What the outputs below a prefix share; nothing is shared at the root, which no arc
leads to. -/
def pushed (entries : List (Bytes × Bytes)) (p : Bytes) : Bytes :=
  if p = [] then [] else meet ((below entries p).map fun entry => entry.2)

/-- What a key below a prefix adds to the output shared there. -/
def rest (entries : List (Bytes × Bytes)) (p key : Bytes) : Option Bytes :=
  (entries.lookup (p ++ key)).map fun output => output.drop (pushed entries p).length

/-- What is left of the output of a key at its end. -/
def ending (entries : List (Bytes × Bytes)) (p : Bytes) : Bytes := (rest entries p []).getD []

/-- The keys strictly ascend. -/
def Sorted (entries : List (Bytes × Bytes)) : Prop := entries.Pairwise fun x y => x.1 < y.1

variable {entries : List (Bytes × Bytes)} {p q key output : Bytes}

variable {entry : Bytes × Bytes}

theorem mem_below :
    entry ∈ below entries p ↔ entry ∈ entries ∧ p <+: entry.1 := by
  rw [below, List.mem_filter, List.isPrefixOf_iff_prefix]

theorem below_eq_nil_iff : below entries p = [] ↔ ∀ entry ∈ entries, ¬ p <+: entry.1 := by
  rw [List.eq_nil_iff_forall_not_mem]
  constructor
  · intro h entry hentry hp
    exact h entry (mem_below.mpr ⟨hentry, hp⟩)
  · intro h entry hentry
    exact h entry (mem_below.mp hentry).1 (mem_below.mp hentry).2

@[simp] theorem pushed_nil (entries : List (Bytes × Bytes)) : pushed entries [] = [] := rfl

theorem mem_of_lookup (h : entries.lookup key = some output) : (key, output) ∈ entries := by
  obtain ⟨before, after, rfl, -⟩ := List.lookup_eq_some_iff.mp h
  exact List.mem_append_right _ (List.mem_cons_self ..)

/-- Every output below a prefix starts with what the prefix has pushed. -/
theorem pushed_le (hentry : entry ∈ entries) (hp : p <+: entry.1) :
    pushed entries p <+: entry.2 := by
  rw [pushed]
  split
  · exact List.nil_prefix
  · exact meet_le (List.mem_map_of_mem (mem_below.mpr ⟨hentry, hp⟩))

theorem pushed_prefix_of_lookup (h : entries.lookup (p ++ key) = some output) :
    pushed entries p <+: output :=
  pushed_le (mem_of_lookup h) (List.prefix_append _ _)

/-- A longer prefix has pushed at least as much. -/
theorem pushed_mono (hpq : p <+: q) (hentry : entry ∈ entries)
    (hq : q <+: entry.1) : pushed entries p <+: pushed entries q := by
  by_cases hp : p = []
  · rw [hp]
    exact List.nil_prefix
  · have hqne : q ≠ [] := by
      rintro rfl
      exact hp (List.prefix_nil.mp hpq)
    rw [pushed, pushed, if_neg hp, if_neg hqne]
    refine meet_prefix_meet ?_ ?_
    · exact List.map_eq_nil_iff.not.mpr (List.ne_nil_of_mem (mem_below.mpr ⟨hentry, hq⟩))
    · intro out hout
      obtain ⟨found, hfound, rfl⟩ := List.mem_map.mp hout
      obtain ⟨hmem, hfq⟩ := mem_below.mp hfound
      exact List.mem_map_of_mem (mem_below.mpr ⟨hmem, hpq.trans hfq⟩)

/-- Dropping a prefix and putting its parts back. -/
theorem drop_append_drop {a b c : Bytes} (hab : a <+: b) (hbc : b <+: c) :
    b.drop a.length ++ c.drop b.length = c.drop a.length := by
  obtain ⟨s, rfl⟩ := hab
  obtain ⟨t, rfl⟩ := hbc
  rw [List.drop_left, List.drop_left, List.append_assoc, List.drop_left]

/-! ## One more entry -/

theorem below_append (entries later : List (Bytes × Bytes)) (p : Bytes) :
    below (entries ++ later) p = below entries p ++ below later p :=
  List.filter_append ..

theorem below_concat_other (h : ¬ p <+: key) :
    below (entries ++ [(key, output)]) p = below entries p := by
  rw [below_append, List.append_right_eq_self, below_eq_nil_iff]
  intro entry hentry
  rw [List.mem_singleton.mp hentry]
  exact h

theorem below_concat_self (h : p <+: key) :
    below (entries ++ [(key, output)]) p = below entries p ++ [(key, output)] := by
  rw [below_append, below, below, List.filter_singleton, List.isPrefixOf_iff_prefix.mpr h]
  rfl

theorem pushed_of_below_eq {other : List (Bytes × Bytes)} (h : below entries p = below other p) :
    pushed entries p = pushed other p := by
  rw [pushed, pushed, h]

theorem pushed_concat_other (h : ¬ p <+: key) :
    pushed (entries ++ [(key, output)]) p = pushed entries p :=
  pushed_of_below_eq (below_concat_other h)

theorem pushed_concat_shared (hp : p ≠ []) (h : p <+: key) (hbelow : below entries p ≠ []) :
    pushed (entries ++ [(key, output)]) p = common (pushed entries p) output := by
  rw [pushed, pushed, if_neg hp, if_neg hp, below_concat_self h, List.map_append,
    List.map_singleton, meet_concat (List.map_eq_nil_iff.not.mpr hbelow)]

theorem pushed_concat_fresh (hp : p ≠ []) (h : p <+: key) (hbelow : below entries p = []) :
    pushed (entries ++ [(key, output)]) p = output := by
  rw [pushed, if_neg hp, below_concat_self h, hbelow]
  rfl

theorem lookup_concat_of_ne {sought : Bytes} (h : sought ≠ key) :
    (entries ++ [(key, output)]).lookup sought = entries.lookup sought := by
  rw [List.lookup_append, List.lookup_singleton, if_neg (by simpa using h), Option.or_none]

theorem lookup_concat_self (h : ∀ entry ∈ entries, entry.1 ≠ key) :
    (entries ++ [(key, output)]).lookup key = some output := by
  rw [List.lookup_append, List.lookup_singleton, if_pos (by simp)]
  have : entries.lookup key = none := by
    rw [List.lookup_eq_none_iff]
    intro entry hentry
    simpa using (h entry hentry).symm
  rw [this, Option.none_or]

/-! ## A prefix that has all its entries -/

/-- No later entry has the prefix. -/
def Settled (all entries : List (Bytes × Bytes)) (p : Bytes) : Prop :=
  below all p = below entries p

variable {all : List (Bytes × Bytes)}

theorem below_below (hpq : p <+: q) : below (below entries p) q = below entries q := by
  rw [below, below, List.filter_filter, below]
  congr 1
  funext entry
  by_cases hq : q <+: entry.1
  · simp [List.isPrefixOf_iff_prefix.mpr hq, List.isPrefixOf_iff_prefix.mpr (hpq.trans hq)]
  · have : q.isPrefixOf entry.1 = false :=
      Bool.eq_false_iff.mpr (List.isPrefixOf_iff_prefix.not.mpr hq)
    simp [this]

theorem Settled.mono (h : Settled all entries p) (hpq : p <+: q) : Settled all entries q := by
  rw [Settled, ← below_below hpq, h, below_below hpq]

theorem Settled.pushed_eq (h : Settled all entries p) : pushed all p = pushed entries p :=
  pushed_of_below_eq h

theorem lookup_below (hp : p <+: key) : (below entries p).lookup key = entries.lookup key := by
  induction entries with
  | nil => rfl
  | cons entry entries ih =>
    by_cases hkey : key = entry.1
    · have hentry : below (entry :: entries) p = entry :: below entries p :=
        List.filter_cons_of_pos (List.isPrefixOf_iff_prefix.mpr (hkey ▸ hp))
      rw [hentry, List.lookup_cons, List.lookup_cons, beq_iff_eq.mpr hkey]
    · rw [List.lookup_cons, beq_eq_false_iff_ne.mpr hkey, ← ih, below, List.filter_cons]
      split
      · rw [List.lookup_cons, beq_eq_false_iff_ne.mpr hkey]
        rfl
      · rfl

section

variable (h : Settled all entries p)
include h

theorem Settled.lookup_eq (hp : p <+: key) :
    all.lookup key = entries.lookup key := by
  rw [← lookup_below hp, h, lookup_below hp]

theorem Settled.rest_eq (key : Bytes) :
    rest all p key = rest entries p key := by
  rw [rest, rest, h.lookup_eq (List.prefix_append _ _), h.pushed_eq]

theorem Settled.ending_eq : ending all p = ending entries p := by
  rw [ending, ending, h.rest_eq]

theorem Settled.exists_iff (hpq : p <+: q) :
    (∃ entry ∈ all, q <+: entry.1) ↔ ∃ entry ∈ entries, q <+: entry.1 := by
  have hq := h.mono hpq
  constructor
  · rintro ⟨entry, hentry, hprefix⟩
    have := mem_below.mpr ⟨hentry, hprefix⟩
    rw [hq] at this
    exact ⟨entry, (mem_below.mp this).1, hprefix⟩
  · rintro ⟨entry, hentry, hprefix⟩
    have := mem_below.mpr ⟨hentry, hprefix⟩
    rw [← hq] at this
    exact ⟨entry, (mem_below.mp this).1, hprefix⟩

end

/-- A prefix of one key that the next key does not have is settled. -/
theorem settled_of_sorted {last : Bytes} {later : List (Bytes × Bytes)}
    (hsorted : Sorted (entries ++ (key, output) :: later)) (hlast : last < key)
    (hp : p <+: last) (hkey : ¬ p <+: key) :
    Settled (entries ++ (key, output) :: later) entries p := by
  rw [Settled, below_append, List.append_right_eq_self, below_eq_nil_iff]
  intro entry hentry hentryp
  rcases List.mem_cons.mp hentry with rfl | hentry
  · exact hkey hentryp
  · have hlater := (List.pairwise_append.mp hsorted).2.1
    exact hkey (prefix_of_between hp hentryp hlast ((List.pairwise_cons.mp hlater).1 entry hentry))

end Fst

end Froe
