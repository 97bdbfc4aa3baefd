import Mathlib.Data.List.Basic
import Mathlib.Data.List.Sort

/-!
# Grouping by a key

A sequence that ascends in a key has the records of one key next to each other.  A walk that
looks only at the last key then meets every key once, and the number of keys it has met ranks
each record.
-/

namespace List

variable {α κ : Type}

/-! ## Records of one key -/

/-- Between two records of one key there are only records of that key. -/
def Adjacent (key : α → κ) (l : List α) : Prop :=
  ∀ before between after a b, l = before ++ a :: between ++ b :: after → key a = key b →
    ∀ c ∈ between, key c = key a

def AscendsBy (cmp : κ → κ → Ordering) (key : α → κ) (l : List α) : Prop :=
  l.Pairwise fun a b => (cmp (key a) (key b)).isLE

section

variable {cmp : κ → κ → Ordering} [Std.TransCmp cmp] [Std.LawfulEqCmp cmp] {key : α → κ}
  {l : List α}

omit [Std.TransCmp cmp] in
theorem eq_of_isLE_of_isLE [Std.OrientedCmp cmp] {a b : κ} (hab : (cmp a b).isLE)
    (hba : (cmp b a).isLE) : a = b :=
  Std.LawfulEqCmp.eq_of_compare (Std.OrientedCmp.isLE_antisymm hab hba)

theorem AscendsBy.adjacent (h : l.AscendsBy cmp key) : l.Adjacent key := by
  rintro before between after a b rfl hkey c hc
  rw [AscendsBy, append_assoc, pairwise_append] at h
  obtain ⟨hfirst, hrest⟩ := pairwise_cons.mp h.2.1
  have hac : (cmp (key a) (key c)).isLE := hfirst c (mem_append_left _ hc)
  have hcb : (cmp (key c) (key b)).isLE :=
    (pairwise_append.mp hrest).2.2 c hc b (mem_cons_self ..)
  rw [← hkey] at hcb
  exact eq_of_isLE_of_isLE hcb hac

end

/-! ## Pairs of keys -/

/-- The first parts decide, then the second. -/
def pairCmp {β : Type} (cmp : α → α → Ordering) (cmp' : β → β → Ordering) (a b : α × β) : Ordering :=
  (cmp a.1 b.1).then (cmp' a.2 b.2)

section

variable {β : Type} {cmp : α → α → Ordering} {cmp' : β → β → Ordering}

instance [Std.TransCmp cmp] [Std.TransCmp cmp'] : Std.TransCmp (pairCmp cmp cmp') := by
  have hfst : Std.TransCmp fun a b : α × β => cmp a.1 b.1 :=
    { eq_swap := Std.OrientedCmp.eq_swap
      isLE_trans := Std.TransCmp.isLE_trans }
  have hsnd : Std.TransCmp fun a b : α × β => cmp' a.2 b.2 :=
    { eq_swap := Std.OrientedCmp.eq_swap
      isLE_trans := Std.TransCmp.isLE_trans }
  exact inferInstanceAs (Std.TransCmp (compareLex (fun a b : α × β => cmp a.1 b.1) _))

instance [Std.LawfulEqCmp cmp] [Std.LawfulEqCmp cmp'] : Std.LawfulEqCmp (pairCmp cmp cmp') where
  compare_self := by
    intro a
    exact Ordering.then_eq_eq.mpr ⟨Std.ReflCmp.compare_self, Std.ReflCmp.compare_self⟩
  eq_of_compare := by
    intro a b h
    obtain ⟨hfst, hsnd⟩ := Ordering.then_eq_eq.mp h
    exact Prod.ext (Std.LawfulEqCmp.eq_of_compare hfst) (Std.LawfulEqCmp.eq_of_compare hsnd)

end

/-! ## Sorting by a comparison -/

theorem pairwise_insertionSort_cmp {cmp : α → α → Ordering} [Std.TransCmp cmp] (l : List α) :
    (l.insertionSort fun a b => (cmp a b).isLE).Pairwise fun a b => (cmp a b).isLE := by
  have htotal : Std.Total fun a b : α => (cmp a b).isLE = true :=
    ⟨fun a b => by
      rcases hcmp : cmp a b with _ | _ | _
      · exact .inl rfl
      · exact .inl rfl
      · rw [@Std.OrientedCmp.eq_swap _ cmp, hcmp]
        exact .inr rfl⟩
  have htrans : IsTrans α fun a b => (cmp a b).isLE = true :=
    ⟨fun _ _ _ hab hbc => Std.TransCmp.isLE_trans hab hbc⟩
  exact pairwise_insertionSort _ l

/-! ## The keys of a walk -/

variable [DecidableEq κ]

/-- The keys at which a walk that remembers the last key finds another one. -/
def startsFrom : Option κ → List κ → List κ
  | _, [] => []
  | last, k :: ks => if last = some k then startsFrom last ks else k :: startsFrom (some k) ks

@[simp] theorem startsFrom_nil (last : Option κ) : startsFrom last ([] : List κ) = [] := rfl

theorem startsFrom_subset {last : Option κ} {ks : List κ} : startsFrom last ks ⊆ ks := by
  intro k hk
  induction ks generalizing last with
  | nil => exact hk
  | cons first ks ih =>
    by_cases h : last = some first
    · rw [startsFrom, if_pos h] at hk
      exact mem_cons_of_mem _ (ih hk)
    · rw [startsFrom, if_neg h] at hk
      rcases mem_cons.mp hk with rfl | hk
      · exact mem_cons_self ..
      · exact mem_cons_of_mem _ (ih hk)

/-- The walk finds every key but the one that it begins with. -/
theorem mem_startsFrom {last : Option κ} {ks : List κ} {k : κ} (h : k ∈ ks) :
    k ∈ startsFrom last ks ∨ last = some k := by
  induction ks generalizing last with
  | nil => cases h
  | cons first ks ih =>
    by_cases hlast : last = some first
    · rw [startsFrom, if_pos hlast]
      rcases mem_cons.mp h with rfl | h
      · exact .inr hlast
      · exact ih h
    · rw [startsFrom, if_neg hlast, mem_cons]
      rcases mem_cons.mp h with rfl | h
      · exact .inl (.inl rfl)
      · rcases @ih (some first) h with hmem | hfirst
        · exact .inl (.inr hmem)
        · exact .inl (.inl (Option.some.inj hfirst).symm)

theorem mem_startsFrom_none {ks : List κ} {k : κ} : k ∈ startsFrom none ks ↔ k ∈ ks :=
  ⟨fun h => startsFrom_subset h, fun h => (mem_startsFrom h).resolve_right nofun⟩

section

variable {cmp : κ → κ → Ordering} [Std.TransCmp cmp] [Std.LawfulEqCmp cmp] {ks : List κ}

/-- In an ascending sequence what the walk finds ascends strictly. -/
theorem pairwise_startsFrom {last : Option κ} (h : ks.Pairwise fun a b => (cmp a b).isLE)
    (hlast : ∀ k, last = some k → ∀ a ∈ ks, (cmp k a).isLE) :
    (startsFrom last ks).Pairwise (fun a b => cmp a b = .lt) ∧
      ∀ k, last = some k → ∀ a ∈ startsFrom last ks, cmp k a = .lt := by
  induction ks generalizing last with
  | nil => exact ⟨.nil, nofun⟩
  | cons first ks ih =>
    obtain ⟨hfirst, hks⟩ := pairwise_cons.mp h
    by_cases hsame : last = some first
    · rw [startsFrom, if_pos hsame]
      exact ih hks fun k hk a ha => hlast k hk a (mem_cons_of_mem _ ha)
    · rw [startsFrom, if_neg hsame]
      obtain ⟨hpairwise, habove⟩ := @ih (some first) hks fun k hk a ha => by
        cases hk
        exact hfirst a ha
      have habove' := habove first rfl
      refine ⟨pairwise_cons.mpr ⟨habove', hpairwise⟩, fun k hk a ha => ?_⟩
      have hle : (cmp k first).isLE := hlast k hk first (mem_cons_self ..)
      have hlt : cmp k first = .lt := by
        rcases hcmp : cmp k first with _ | _ | _
        · rfl
        · exact absurd (hk.trans (congrArg some (Std.LawfulEqCmp.eq_of_compare hcmp))) hsame
        · rw [hcmp] at hle
          cases hle
      rcases mem_cons.mp ha with rfl | ha
      · exact hlt
      · exact Std.TransCmp.lt_trans hlt (habove' a ha)

theorem pairwise_starts (h : ks.Pairwise fun a b => (cmp a b).isLE) :
    (startsFrom none ks).Pairwise fun a b => cmp a b = .lt := by
  have hnone : ∀ k, none = some k → ∀ a ∈ ks, (cmp k a).isLE := nofun
  exact (pairwise_startsFrom h hnone).1

theorem nodup_starts (h : ks.Pairwise fun a b => (cmp a b).isLE) : (startsFrom none ks).Nodup := by
  refine (pairwise_starts h).imp fun hlt heq => ?_
  subst heq
  rw [@Std.ReflCmp.compare_self _ cmp] at hlt
  cases hlt

end

end List
