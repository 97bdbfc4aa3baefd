import Mathlib.Algebra.BigOperators.Group.Finset.Basic
import Mathlib.Data.Finmap

/-!
# The bounded cache

A map from keys to values with their charges, a queue of the keys in the order of their
insertion, and a counter of the bytes in use, which saturates.  The three are updated apart.
The queue names each resident key once, the counter stays within the budget and is the sum of
the resident charges as long as no insertion takes that sum past the largest `usize`
(`boundedCache_run`).
-/

namespace Froe.Caches

/-- An approximate resident cost in bytes. -/
class CacheWeight (ν : Type) where
  cacheWeight : ν → UInt64

open CacheWeight

/-- The largest machine size. -/
def usizeMaximum : Nat := 2 ^ 64 - 1

/-- Addition that stops at the largest size. -/
def saturatingSum (a b : Nat) : Nat := min (a + b) usizeMaximum

/-- What an entry is charged besides its value. -/
def entryOverheadBytes : Nat := 64

/-- A value is kept with what it was charged. -/
structure BoundedCache (κ ν : Type) where
  entries : Finmap fun _ : κ => ν × Nat
  insertionOrder : List κ
  usedBytes : Nat
  budgetBytes : Nat

variable {κ ν : Type} [DecidableEq κ]

namespace BoundedCache

/-- A cache without entries. -/
def new (budgetBytes : UInt64) : BoundedCache κ ν := ⟨∅, [], 0, budgetBytes.toNat⟩

/-- The value of a key, when it is cached. -/
def get (cache : BoundedCache κ ν) (key : κ) : Option ν :=
  (cache.entries.lookup key).map Prod.fst

/-- Takes keys from the front of the queue until the budget holds. -/
def evict (budgetBytes : Nat) :
    List κ → (Finmap fun _ : κ => ν × Nat) → Nat → BoundedCache κ ν
  | [], entries, usedBytes => ⟨entries, [], usedBytes, budgetBytes⟩
  | oldest :: insertionOrder, entries, usedBytes =>
    if usedBytes > budgetBytes then
      evict budgetBytes insertionOrder (entries.erase oldest) (match entries.lookup oldest with
        | some (_, weight) => usedBytes - weight
        | none => usedBytes)
    else ⟨entries, oldest :: insertionOrder, usedBytes, budgetBytes⟩

/-- Evicts until the budget is kept. -/
def evictToBudget (cache : BoundedCache κ ν) : BoundedCache κ ν :=
  evict cache.budgetBytes cache.insertionOrder cache.entries cache.usedBytes

variable [CacheWeight ν]

/-- What a value is charged. -/
def weightOf (value : ν) : Nat := saturatingSum (cacheWeight value).toNat entryOverheadBytes

/-- The cache before its eviction: a key that is there is not queued again. -/
def place (cache : BoundedCache κ ν) (key : κ) (value : ν) : BoundedCache κ ν :=
  match cache.entries.lookup key with
  | some (_, existingWeight) =>
    { cache with
      entries := cache.entries.insert key (value, weightOf value)
      usedBytes := saturatingSum (cache.usedBytes - existingWeight) (weightOf value) }
  | none =>
    { cache with
      entries := cache.entries.insert key (value, weightOf value)
      insertionOrder := cache.insertionOrder ++ [key]
      usedBytes := saturatingSum cache.usedBytes (weightOf value) }

/-- Caches a value, and evicts the oldest entries. -/
def insert (cache : BoundedCache κ ν) (key : κ) (value : ν) : BoundedCache κ ν :=
  (cache.place key value).evictToBudget

end BoundedCache

/-! ## Charges -/

/-- What the entry of a key is charged. -/
def chargeOf (entries : Finmap fun _ : κ => ν × Nat) (key : κ) : Nat :=
  ((entries.lookup key).map Prod.snd).getD 0

/-- The sum of the resident charges. -/
def charged (entries : Finmap fun _ : κ => ν × Nat) : Nat :=
  ∑ key ∈ entries.keys, chargeOf entries key

section

variable (entries : Finmap fun _ : κ => ν × Nat)

theorem chargeOf_erase_of_ne {key other : κ}
    (h : other ≠ key) : chargeOf (entries.erase key) other = chargeOf entries other := by
  rw [chargeOf, Finmap.lookup_erase_ne h, chargeOf]

theorem charged_erase (key : κ) :
    charged entries = chargeOf entries key + charged (entries.erase key) := by
  have hrest : charged (entries.erase key) = ∑ other ∈ entries.keys.erase key,
      chargeOf entries other := by
    rw [charged, Finmap.keys_erase]
    exact Finset.sum_congr rfl fun other hother =>
      chargeOf_erase_of_ne entries (Finset.ne_of_mem_erase hother)
  rw [hrest, charged]
  by_cases hkey : key ∈ entries.keys
  · exact (Finset.add_sum_erase _ _ hkey).symm
  · have hnone : entries.lookup key = none :=
      Finmap.lookup_eq_none.mpr fun hmem => hkey (Finmap.mem_keys.mpr hmem)
    rw [Finset.erase_eq_of_notMem hkey, chargeOf, hnone, Option.map_none, Option.getD_none,
      Nat.zero_add]

theorem charged_insert (key : κ) (entry : ν × Nat) :
    charged (entries.insert key entry) = entry.2 + charged (entries.erase key) := by
  rw [charged_erase (entries.insert key entry) key, chargeOf, Finmap.lookup_insert]
  have hrest : (entries.insert key entry).erase key = entries.erase key := by
    refine Finmap.ext_lookup fun other => ?_
    by_cases hother : other = key
    · rw [hother, Finmap.lookup_erase, Finmap.lookup_erase]
    · rw [Finmap.lookup_erase_ne hother, Finmap.lookup_erase_ne hother,
        Finmap.lookup_insert_of_ne _ hother]
  rw [hrest]
  rfl

end

@[simp] theorem charged_empty : charged (∅ : Finmap fun _ : κ => ν × Nat) = 0 := by
  rw [charged, Finmap.keys_empty, Finset.sum_empty]

/-! ## What an operation keeps -/

/-- The queue names each resident key once, and nothing else. -/
structure Queued (cache : BoundedCache κ ν) : Prop where
  nodup : cache.insertionOrder.Nodup
  resident : ∀ key, key ∈ cache.insertionOrder ↔ key ∈ cache.entries

/-- What an eviction leaves of some entries. -/
structure Evicted (entries : Finmap fun _ : κ => ν × Nat) (usedBytes : Nat)
    (after : BoundedCache κ ν) : Prop where
  queued : Queued after
  atMost : after.usedBytes ≤ charged after.entries
  exact : usedBytes = charged entries → after.usedBytes = charged after.entries
  within : after.usedBytes ≤ after.budgetBytes

theorem evict_spec (budgetBytes : Nat) {insertionOrder : List κ}
    {entries : Finmap fun _ : κ => ν × Nat} {usedBytes : Nat} (hnodup : insertionOrder.Nodup)
    (hresident : ∀ key, key ∈ insertionOrder ↔ key ∈ entries)
    (hatMost : usedBytes ≤ charged entries) :
    Evicted entries usedBytes (BoundedCache.evict budgetBytes insertionOrder entries usedBytes) := by
  induction insertionOrder generalizing entries usedBytes with
  | nil =>
    have hempty : entries = ∅ := Finmap.ext_lookup fun key => by
      rw [Finmap.lookup_eq_none.mpr fun hmem => List.not_mem_nil ((hresident key).mpr hmem),
        Finmap.lookup_empty]
    subst hempty
    rw [charged_empty] at hatMost
    exact ⟨⟨hnodup, hresident⟩, by rwa [BoundedCache.evict, charged_empty], id,
      Nat.le_trans hatMost (Nat.zero_le _)⟩
  | cons oldest insertionOrder ih =>
    rw [BoundedCache.evict]
    by_cases hover : usedBytes > budgetBytes
    · rw [if_pos hover]
      obtain ⟨hfresh, hnodup⟩ := List.nodup_cons.mp hnodup
      have hrest : ∀ key, key ∈ insertionOrder ↔ key ∈ entries.erase oldest := by
        intro key
        rw [Finmap.mem_erase, ← hresident, List.mem_cons]
        constructor
        · exact fun hmem => ⟨fun heq => hfresh (heq ▸ hmem), .inr hmem⟩
        · exact fun ⟨hne, hmem⟩ => hmem.resolve_left hne
      obtain ⟨entry, hentry⟩ := Finmap.mem_iff.mp ((hresident oldest).mp List.mem_cons_self)
      have hcharge : chargeOf entries oldest = entry.2 := by
        rw [chargeOf, hentry]
        rfl
      have hcharged := charged_erase entries oldest
      rw [hcharge] at hcharged
      rw [hentry]
      dsimp only
      have hafter := ih hnodup hrest (show usedBytes - entry.2 ≤ charged (entries.erase oldest) by
        omega)
      exact ⟨hafter.queued, hafter.atMost, fun hused => hafter.exact (by omega), hafter.within⟩
    · rw [if_neg hover]
      exact ⟨⟨hnodup, hresident⟩, hatMost, id, Nat.le_of_not_gt hover⟩

/-- An eviction only takes entries away. -/
theorem lookup_evict {budgetBytes : Nat} {insertionOrder : List κ}
    {entries : Finmap fun _ : κ => ν × Nat} {usedBytes : Nat} {key : κ} {entry : ν × Nat}
    (h : (BoundedCache.evict budgetBytes insertionOrder entries usedBytes).entries.lookup key =
      some entry) : entries.lookup key = some entry := by
  induction insertionOrder generalizing entries usedBytes with
  | nil => exact h
  | cons oldest insertionOrder ih =>
    rw [BoundedCache.evict] at h
    split at h
    · have hkept := ih h
      have hne : key ≠ oldest := by
        rintro rfl
        rw [Finmap.lookup_erase] at hkept
        cases hkept
      rwa [Finmap.lookup_erase_ne hne] at hkept
    · exact h

/-- The counter is never above the sum of the resident charges, and within the budget. -/
structure Sound (cache : BoundedCache κ ν) : Prop where
  queued : Queued cache
  atMost : cache.usedBytes ≤ charged cache.entries
  within : cache.usedBytes ≤ cache.budgetBytes

theorem sound_new (budgetBytes : UInt64) : Sound (BoundedCache.new budgetBytes : BoundedCache κ ν) :=
  ⟨⟨List.nodup_nil, fun _ => iff_of_false List.not_mem_nil Finmap.notMem_empty⟩, Nat.zero_le _,
    Nat.zero_le _⟩

variable [CacheWeight ν]

/-- An insertion whose sum the counter can hold. -/
def Fits (cache : BoundedCache κ ν) (key : κ) (value : ν) : Prop :=
  BoundedCache.weightOf value + charged (cache.entries.erase key) ≤ usizeMaximum

/-- The entries with the new one, before the eviction. -/
theorem entries_place (cache : BoundedCache κ ν) (key : κ) (value : ν) :
    (cache.place key value).entries =
      cache.entries.insert key (value, BoundedCache.weightOf value) := by
  rw [BoundedCache.place]
  cases cache.entries.lookup key with
  | none => rfl
  | some existing => rfl

theorem queued_place {cache : BoundedCache κ ν} (h : Queued cache) (key : κ) (value : ν) :
    Queued (cache.place key value) := by
  cases hlookup : cache.entries.lookup key with
  | none =>
    have hfresh : key ∉ cache.insertionOrder := fun hmem =>
      Finmap.lookup_eq_none.mp hlookup ((h.resident key).mp hmem)
    constructor
    · rw [BoundedCache.place, hlookup]
      exact List.nodup_append.mpr ⟨h.nodup, List.nodup_singleton key, fun other hother last hlast heq =>
        hfresh (by rwa [← List.mem_singleton.mp hlast, ← heq])⟩
    · intro other
      rw [entries_place, BoundedCache.place, hlookup, Finmap.mem_insert, List.mem_append,
        List.mem_singleton, h.resident other]
      exact or_comm
  | some existing =>
    have hmem : key ∈ cache.entries := Finmap.mem_iff.mpr ⟨existing, hlookup⟩
    constructor
    · rw [BoundedCache.place, hlookup]
      exact h.nodup
    · intro other
      rw [entries_place, BoundedCache.place, hlookup, Finmap.mem_insert]
      dsimp only
      rw [h.resident other]
      constructor
      · exact .inr
      · rintro (rfl | hother)
        · exact hmem
        · exact hother

section

variable (cache : BoundedCache κ ν) (key : κ) (value : ν)

/-- The counter behind an insertion, before the eviction. -/
theorem usedBytes_place :
    (cache.place key value).usedBytes = saturatingSum
      (cache.usedBytes - chargeOf cache.entries key) (BoundedCache.weightOf value) := by
  rw [BoundedCache.place, chargeOf]
  cases cache.entries.lookup key with
  | none => rfl
  | some existing => rfl

theorem charged_place :
    charged (cache.place key value).entries =
      BoundedCache.weightOf value + charged (cache.entries.erase key) := by
  rw [entries_place, charged_insert]

end

section

variable {cache : BoundedCache κ ν}

theorem atMost_place (h : cache.usedBytes ≤ charged cache.entries) (key : κ) (value : ν) :
    (cache.place key value).usedBytes ≤ charged (cache.place key value).entries := by
  rw [usedBytes_place, charged_place]
  have hcharged := charged_erase cache.entries key
  have hsum : saturatingSum (cache.usedBytes - chargeOf cache.entries key)
      (BoundedCache.weightOf value) ≤
      cache.usedBytes - chargeOf cache.entries key + BoundedCache.weightOf value :=
    Nat.min_le_left _ _
  omega

variable {key : κ} {value : ν}

theorem exact_place (h : cache.usedBytes = charged cache.entries) (hfits : Fits cache key value) :
    (cache.place key value).usedBytes = charged (cache.place key value).entries := by
  rw [usedBytes_place, charged_place]
  have hcharged := charged_erase cache.entries key
  have hused : cache.usedBytes - chargeOf cache.entries key = charged (cache.entries.erase key) := by
    omega
  rw [hused, Nat.add_comm]
  exact Nat.min_eq_left (by rwa [Nat.add_comm])

/-- An insertion is an eviction from the entries with the new one. -/
theorem evicted_insert (h : Sound cache) (key : κ) (value : ν) :
    Evicted (cache.place key value).entries (cache.place key value).usedBytes
      (cache.insert key value) := by
  have hqueued := queued_place h.queued key value
  exact evict_spec _ hqueued.nodup hqueued.resident (atMost_place h.atMost key value)

theorem Sound.insert (h : Sound cache) (key : κ) (value : ν) :
    Sound (cache.insert key value) := by
  have hevicted := evicted_insert h key value
  exact ⟨hevicted.queued, hevicted.atMost, hevicted.within⟩

theorem exact_insert (h : Sound cache) (hexact : cache.usedBytes = charged cache.entries)
    (hfits : Fits cache key value) :
    (cache.insert key value).usedBytes = charged (cache.insert key value).entries :=
  (evicted_insert h key value).exact (exact_place hexact hfits)

/-- What is got behind an insertion is the new value, under its own key only, or was there. -/
theorem get_insert {other : κ} {found : ν}
    (hget : (cache.insert key value).get other = some found) :
    (other = key ∧ found = value) ∨ (other ≠ key ∧ cache.get other = some found) := by
  rw [BoundedCache.get, Option.map_eq_some_iff] at hget
  obtain ⟨entry, hentry, rfl⟩ := hget
  have hkept := lookup_evict hentry
  rw [entries_place] at hkept
  rcases eq_or_ne other key with rfl | hne
  · rw [Finmap.lookup_insert] at hkept
    exact .inl ⟨rfl, congrArg Prod.fst (Option.some.inj hkept).symm⟩
  · rw [Finmap.lookup_insert_of_ne _ hne] at hkept
    exact .inr ⟨hne, by rw [BoundedCache.get, hkept]; rfl⟩

end

/-! ## Runs -/

/-- The calls of a cache. -/
inductive Call (κ ν : Type) where
  | insert (key : κ) (value : ν)
  | get (key : κ)

/-- One call of a cache. -/
def BoundedCache.call (cache : BoundedCache κ ν) : Call κ ν → BoundedCache κ ν
  | .insert key value => cache.insert key value
  | .get _ => cache

/-- A cache after some calls. -/
def run (budgetBytes : UInt64) (calls : List (Call κ ν)) : BoundedCache κ ν :=
  calls.foldl BoundedCache.call (.new budgetBytes)

/-- The value that a call gives a key. -/
def Call.given (key : κ) : Call κ ν → Option ν
  | .insert other value => if other = key then some value else none
  | .get _ => none

/-- The value last inserted at a key. -/
def lastInserted (calls : List (Call κ ν)) (key : κ) : Option ν :=
  calls.reverse.findSome? (Call.given key)

theorem run_concat (budgetBytes : UInt64) (calls : List (Call κ ν)) (call : Call κ ν) :
    run budgetBytes (calls ++ [call]) = (run budgetBytes calls).call call := by
  rw [run, List.foldl_concat, run]

omit [CacheWeight ν] in
theorem lastInserted_concat (calls : List (Call κ ν)) (call : Call κ ν) (key : κ) :
    lastInserted (calls ++ [call]) key = (call.given key).or (lastInserted calls key) := by
  rw [lastInserted, List.reverse_concat, List.findSome?_cons, lastInserted]
  cases call.given key with
  | none => rfl
  | some value => rfl

theorem sound_run (budgetBytes : UInt64) (calls : List (Call κ ν)) :
    Sound (run budgetBytes calls) := by
  induction calls using List.reverseRecOn with
  | nil => exact sound_new budgetBytes
  | append_singleton calls call ih =>
    rw [run_concat]
    cases call with
    | insert key value => exact ih.insert key value
    | get key => exact ih

variable {budgetBytes : UInt64} {calls : List (Call κ ν)}

theorem get_run {key : κ} {value : ν}
    (h : (run budgetBytes calls).get key = some value) : lastInserted calls key = some value := by
  induction calls using List.reverseRecOn with
  | nil =>
    rw [run, List.foldl_nil, BoundedCache.get, BoundedCache.new, Finmap.lookup_empty] at h
    cases h
  | append_singleton calls call ih =>
    rw [run_concat] at h
    rw [lastInserted_concat]
    cases call with
    | insert other given =>
      rw [Call.given]
      rcases get_insert h with ⟨rfl, rfl⟩ | ⟨hne, hget⟩
      · rw [if_pos rfl]
        rfl
      · rw [if_neg hne.symm]
        exact ih hget
    | get other => exact ih h

/-- No insertion takes the sum of the resident charges past the largest `usize`. -/
def NeverSaturates (budgetBytes : UInt64) (calls : List (Call κ ν)) : Prop :=
  ∀ before key value after, calls = before ++ Call.insert key value :: after →
    Fits (run budgetBytes before) key value

theorem exact_run (h : NeverSaturates budgetBytes calls) :
    (run budgetBytes calls).usedBytes = charged (run budgetBytes calls).entries := by
  induction calls using List.reverseRecOn with
  | nil => exact charged_empty.symm
  | append_singleton calls call ih =>
    have hbefore : NeverSaturates budgetBytes calls := fun before key value after heq =>
      h before key value (after ++ [call]) (by rw [heq, List.append_assoc, List.cons_append])
    rw [run_concat]
    cases call with
    | insert key value =>
      exact exact_insert (sound_run budgetBytes calls) (ih hbefore) (h calls key value [] rfl)
    | get key => exact ih hbefore

omit [CacheWeight ν] in
theorem budgetBytes_evict (budgetBytes : Nat) (insertionOrder : List κ)
    (entries : Finmap fun _ : κ => ν × Nat) (usedBytes : Nat) :
    (BoundedCache.evict budgetBytes insertionOrder entries usedBytes).budgetBytes = budgetBytes := by
  induction insertionOrder generalizing entries usedBytes with
  | nil => rfl
  | cons oldest insertionOrder ih =>
    rw [BoundedCache.evict]
    split
    · exact ih _ _
    · rfl

theorem budgetBytes_run (budgetBytes : UInt64) (calls : List (Call κ ν)) :
    (run budgetBytes calls).budgetBytes = budgetBytes.toNat := by
  induction calls using List.reverseRecOn with
  | nil => rfl
  | append_singleton calls call ih =>
    rw [run_concat]
    cases call with
    | insert key value =>
      rw [BoundedCache.call, BoundedCache.insert, BoundedCache.evictToBudget, budgetBytes_evict,
        BoundedCache.place]
      cases (run budgetBytes calls).entries.lookup key with
      | none => exact ih
      | some existing => exact ih
    | get key => exact ih

/-- Values that are small beside what the counter holds and the budget never saturate it. -/
theorem neverSaturates_of_le (h : ∀ key value, Call.insert key value ∈ calls →
    BoundedCache.weightOf value + budgetBytes.toNat ≤ usizeMaximum) :
    NeverSaturates budgetBytes calls := by
  induction calls using List.reverseRecOn with
  | nil => exact fun before key value after heq => absurd heq.symm (by simp)
  | append_singleton calls last ih =>
    have hbefore := ih fun key value hmem => h key value (List.mem_append_left _ hmem)
    intro before key value after heq
    rcases List.eq_nil_or_concat after with rfl | ⟨after, final, rfl⟩
    · obtain ⟨rfl, hlast⟩ := List.append_inj' heq rfl
      obtain rfl := List.singleton_inj.mp hlast
      have hroom := h key value (List.mem_append_right _ (List.mem_singleton_self _))
      have hwithin := (sound_run budgetBytes calls).within
      rw [budgetBytes_run, exact_run hbefore] at hwithin
      have herased := charged_erase (run budgetBytes calls).entries key
      rw [Fits]
      omega
    · rw [List.concat_eq_append, ← List.cons_append, ← List.append_assoc] at heq
      exact hbefore before key value after (List.append_inj' heq rfl).1

/-- After any calls the queue names each resident key once and no other, what is got is what was
inserted last, and the counter is within the budget.  The counter is the sum of the resident
charges when no insertion takes that sum past what the counter holds. -/
theorem boundedCache_run (budgetBytes : UInt64) (calls : List (Call κ ν)) :
    (run budgetBytes calls).insertionOrder.Nodup ∧
      (∀ key, key ∈ (run budgetBytes calls).insertionOrder ↔
        key ∈ (run budgetBytes calls).entries) ∧
      (run budgetBytes calls).usedBytes ≤ budgetBytes.toNat ∧
      (∀ key value, (run budgetBytes calls).get key = some value →
        lastInserted calls key = some value) ∧
      (NeverSaturates budgetBytes calls →
        (run budgetBytes calls).usedBytes = charged (run budgetBytes calls).entries) := by
  have hsound := sound_run budgetBytes calls
  refine ⟨hsound.queued.nodup, hsound.queued.resident, ?_, fun _ _ => get_run, exact_run⟩
  rw [← budgetBytes_run budgetBytes calls]
  exact hsound.within

instance : CacheWeight UInt64 := ⟨id⟩

/-- Room for two values of three: the oldest one is gone, and the counter is exact. -/
theorem boundedCache_run_evicts :
    (run 200 [.insert 0 10, .insert 1 20, .insert (2 : Nat) (30 : UInt64)]).get 0 = none ∧
    (run 200 [.insert 0 10, .insert 1 20, .insert (2 : Nat) (30 : UInt64)]).usedBytes =
      charged (run 200 [.insert 0 10, .insert 1 20, .insert (2 : Nat) (30 : UInt64)]).entries := by
  refine ⟨by decide +kernel, (boundedCache_run _ _).2.2.2.2 (neverSaturates_of_le ?_)⟩
  intro key value hmem
  simp only [List.mem_cons, Call.insert.injEq, List.not_mem_nil, or_false] at hmem
  rcases hmem with ⟨rfl, rfl⟩ | ⟨rfl, rfl⟩ | ⟨rfl, rfl⟩ <;> decide +kernel

/-- Two values of the largest weight saturate the counter, so that it is not their sum. -/
theorem boundedCache_saturates :
    ¬ ∀ (budgetBytes : UInt64) (calls : List (Call Bool UInt64)),
      (run budgetBytes calls).usedBytes = charged (run budgetBytes calls).entries := by
  intro h
  have hused := h (2 ^ 64 - 1) [.insert false (2 ^ 64 - 1), .insert true (2 ^ 64 - 1)]
  revert hused
  decide +kernel

end Froe.Caches
