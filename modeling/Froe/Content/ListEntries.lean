import Froe.Content.List
import Froe.Lib.Chunks

/-!
# Reading lists

A list of more than one element is a bucket over the lists of its chunks, and
the size of the chunks is the largest power of 255 below the size of the list
(`collectEntries_bucket`).  The descent to one element agrees with the
enumeration (`descendToEntry_of_collectEntries`).
-/

namespace Froe

/-! ## The capacity of the top level -/

variable {size k : Nat} {entries elements : List RecordIdentifier}

theorem growBucketCapacity_eq {rounds : Nat} (j : Nat) (hrounds : k - j ≤ rounds)
    (hj : j ≤ k) (hlow : bucketCapacity ^ k < size) (hhigh : size ≤ bucketCapacity ^ (k + 1)) :
    growBucketCapacity size rounds (bucketCapacity ^ j) = bucketCapacity ^ k := by
  induction rounds generalizing j with
  | zero =>
    obtain rfl : j = k := by omega
    rfl
  | succ rounds ih =>
    rw [growBucketCapacity, ← pow_succ]
    rcases Nat.lt_or_ge j k with hlt | hge
    · have hpow : bucketCapacity ^ (j + 1) ≤ bucketCapacity ^ k :=
        Nat.pow_le_pow_right (by decide) hlt
      rw [if_pos (by omega)]
      exact ih (j + 1) (by omega) hlt
    · obtain rfl : j = k := by omega
      rw [if_neg (by omega)]

/-- The capacity of the top level is the power of 255 right below the size. -/
theorem topBucketCapacity_eq (hlow : bucketCapacity ^ k < size)
    (hhigh : size ≤ bucketCapacity ^ (k + 1)) : topBucketCapacity size = bucketCapacity ^ k := by
  have hk : k < bucketCapacity ^ k := Nat.lt_pow_self (by decide)
  exact growBucketCapacity_eq 0 (by omega) (Nat.zero_le _) hlow hhigh

/-! ## Enumeration -/

variable {provider : SegmentProvider} {identifier : RecordIdentifier}

theorem collectEntries_one : collectEntries provider identifier 1 = .ok [identifier] := by
  rw [collectEntries, if_neg (by decide), dif_pos rfl]

/-- What the enumeration of a bucket is made of. -/
theorem collectEntries_iff (h : 2 ≤ size) :
    collectEntries provider identifier size = .ok entries ↔
      ∃ view buckets, provider identifier.segment = .ok view ∧
        (List.range (bucketCount size)).mapM (fun bucketIndex => do
          let child ← view.readRecordIdentifier identifier.recordNumber 0 bucketIndex
          collectEntries provider child
            (min (size - bucketIndex * topBucketCapacity size) (topBucketCapacity size))) =
              .ok buckets ∧
        entries = buckets.flatten := by
  rw [collectEntries, if_neg (by omega), dif_neg (by omega), Except.bind_ok_iff]
  constructor
  · rintro ⟨view, hview, h⟩
    obtain ⟨buckets, hbuckets, h⟩ := Except.bind_ok_iff.mp h
    exact ⟨view, buckets, hview, hbuckets, (Except.pure_ok_iff.mp h).symm⟩
  · rintro ⟨view, buckets, hview, hbuckets, rfl⟩
    exact ⟨view, hview, Except.bind_ok_iff.mpr ⟨buckets, hbuckets, rfl⟩⟩

theorem bucketCount_chunks :
    bucketCount elements.length =
      (elements.chunks (topBucketCapacity elements.length)).length := by
  rw [List.length_chunks (topBucketCapacity_pos _), bucketCount]

theorem length_chunk {α : Type} {elements chunk : List α} {n i : Nat} (hn : 0 < n)
    (h : (elements.chunks n)[i]? = some chunk) :
    chunk.length = min (elements.length - i * n) n := by
  rw [List.getElem?_chunks hn] at h
  split at h
  · cases h
    rw [List.length_take, List.length_drop]
    omega
  · cases h

theorem collectEntries_bucket {view : SegmentView} {ids : List RecordIdentifier}
    (hview : provider identifier.segment = .ok view) (hread : ∀ i (hi : i < ids.length),
      view.readRecordIdentifier identifier.recordNumber 0 i = .ok ids[i])
    (hlow : bucketCapacity ^ k < elements.length)
    (hhigh : elements.length ≤ bucketCapacity ^ (k + 1))
    (hchunks : List.Forall₂ (fun child chunk => collectEntries provider child
      (List.length chunk) = .ok chunk) ids (elements.chunks (bucketCapacity ^ k))) :
    collectEntries provider identifier elements.length = .ok elements := by
  have hpos : 0 < bucketCapacity ^ k := Nat.pow_pos (by decide)
  have htop := topBucketCapacity_eq hlow hhigh
  refine (collectEntries_iff (by omega)).mpr
    ⟨view, elements.chunks (bucketCapacity ^ k), hview, ?_, (List.flatten_chunks hpos _).symm⟩
  rw [Except.mapM_range_ok_iff]
  rw [List.forall₂_iff_get] at hchunks
  refine ⟨by rw [bucketCount_chunks, htop], fun i hi => ?_⟩
  have hid : i < ids.length := by
    rw [hchunks.1]
    exact hi
  rw [hread i hid, Except.ok_bind_eq, htop,
    ← length_chunk hpos (List.getElem?_eq_getElem hi)]
  exact hchunks.2 i hid hi

/-! ## Single entries -/

/-- The length of an enumeration, and what the descent finds. -/
theorem descendToEntry_of_collectEntries
    (hsize : 0 < size) (h : collectEntries provider identifier size = .ok entries) :
    entries.length = size ∧ ∀ i (hi : i < entries.length),
      descendToEntry provider identifier size i = .ok entries[i] := by
  induction size using Nat.strongRecOn generalizing identifier entries with
  | _ size ih =>
    rcases Nat.lt_or_ge size 2 with hone | htwo
    · obtain rfl : size = 1 := by omega
      rw [collectEntries_one] at h
      cases h
      refine ⟨rfl, fun i hi => ?_⟩
      obtain rfl : i = 0 := by simpa using hi
      rw [descendToEntry, dif_pos le_rfl]
      rfl
    · obtain ⟨view, buckets, hview, hbuckets, rfl⟩ := (collectEntries_iff htwo).mp h
      rw [Except.mapM_range_ok_iff] at hbuckets
      obtain ⟨hcount, hbuckets⟩ := hbuckets
      obtain ⟨c, hc⟩ : ∃ c, c = topBucketCapacity size := ⟨_, rfl⟩
      have hpos : 0 < c := hc ▸ topBucketCapacity_pos size
      have hlt : c < size := hc ▸ topBucketCapacity_lt htwo
      rw [bucketCount, ← hc] at hcount
      rw [← hc] at hbuckets
      have hchild : ∀ i (hi : i < buckets.length), ∃ child,
          view.readRecordIdentifier identifier.recordNumber 0 i = .ok child ∧
            buckets[i].length = min (size - i * c) c ∧
            ∀ j (hj : j < buckets[i].length),
              descendToEntry provider child (min (size - i * c) c) j = .ok buckets[i][j] := by
        intro i hi
        obtain ⟨child, hread, hcollect⟩ := Except.bind_ok_iff.mp (hbuckets i hi)
        have hlow : i * c < size := by
          rw [hcount] at hi
          have := (Nat.lt_div_iff_mul_lt hpos).mp hi
          omega
        obtain ⟨hlength, hdescend⟩ := ih (min (size - i * c) c) (by omega) (by omega) hcollect
        exact ⟨child, hread, hlength, hdescend⟩
      obtain ⟨hlength, helements⟩ := List.getElem?_flatten_of_lengths hpos hcount
        fun i hi => (hchild i hi).choose_spec.2.1
      refine ⟨hlength, fun i hi => ?_⟩
      obtain ⟨piece, hpiece, helement⟩ := helements i (by omega)
      obtain ⟨hbound, rfl⟩ := List.getElem?_eq_some_iff.mp hpiece
      obtain ⟨child, hread, -, hdescend⟩ := hchild (i / c) hbound
      rw [List.getElem?_eq_getElem hi] at helement
      obtain ⟨hinside, heq⟩ := List.getElem?_eq_some_iff.mp helement.symm
      rw [descendToEntry, dif_neg (by omega)]
      simp only [hview, Except.ok_bind_eq, ← hc, hread]
      rw [hdescend _ hinside, heq]

end Froe
