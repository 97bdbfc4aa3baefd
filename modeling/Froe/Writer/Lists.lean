import Froe.Writer.WriteRecord

/-!
# Writing lists

A list is written bottom-up: its elements are cut into chunks of 255, each chunk
becomes a bucket, and the buckets are the elements of the next level, until one
is left.  A chunk of one element is not wrapped.  The element of a level `k` is
the list of a chunk of `255 ^ k` elements (`Level`), which is how the reader
takes it apart.
-/

namespace Froe

open StateT (bind_ok_iff pure_ok_iff)

namespace RecordWriter

variable (env : Environment)

/-- Writes one bucket.  A single element passes through unwrapped. -/
def writeListBucket (chunk : List RecordIdentifier) : Writing RecordIdentifier :=
  match chunk with
  | [element] => return element
  | chunk =>
    writeRecord env .listBucket (chunk.length * 6) chunk fun _ => chunk.map .identifier

/-- The loop over the levels.  Every level is shorter than the one below it, so that the length
bounds the number of rounds. -/
def writeListLevels : Nat → List RecordIdentifier → Writing (List RecordIdentifier)
  | 0, level => return level
  | rounds + 1, level => do
    if level.length ≤ 1 then return level
    else
      let nextLevel ← (level.chunks bucketCapacity).mapM (writeListBucket env)
      writeListLevels rounds nextLevel

/-- Writes the body of an uncounted list: nothing for an empty list, the element itself for a
single one, and a tree of buckets otherwise. -/
def writeListBody (identifiers : List RecordIdentifier) : Writing (Option RecordIdentifier) := do
  if identifiers = [] then return none
  else
    let level ← writeListLevels env identifiers.length identifiers
    return level.head?

/-- Writes a counted list: the size, and the body unless the list is empty. -/
def writeCountedList (identifiers : List RecordIdentifier) : Writing RecordIdentifier := do
  match ← writeListBody env identifiers with
  | none => writeRecord env .list 4 [] fun _ => [.raw (Bytes.be32 0)]
  | some body =>
    writeRecord env .list (4 + 6) [body] fun _ =>
      [.raw (Bytes.be32 (UInt32.ofNat identifiers.length)), .identifier body]

end RecordWriter

open RecordWriter

variable {c : Session} {w w' : RecordWriter} {elements : List RecordIdentifier}

/-! ## Buckets -/

/-- A record is the list of some elements. -/
def ListAt (provider : SegmentProvider) (list : RecordIdentifier)
    (elements : List RecordIdentifier) : Prop :=
  elements ≠ [] ∧ collectEntries provider list elements.length = .ok elements

def Level (k : Nat) (provider : SegmentProvider) (level elements : List RecordIdentifier) : Prop :=
  List.Forall₂ (ListAt provider) level (elements.chunks (bucketCapacity ^ k))

variable {chunk level : List RecordIdentifier} {k : Nat}

theorem writeListBucket_spec {bucket : RecordIdentifier}
    (hw : Valid c w) (h : (writeListBucket c.environment chunk).run w = .ok (bucket, w'))
    (hchunk : chunk ≠ []) (hallowed : ∀ record ∈ chunk, Allowed c w record.segment) :
    Steps c w w' ∧ Allowed c w' bucket.segment ∧
      ((chunk = [bucket] ∧ w' = w) ∨
        2 ≤ chunk.length ∧ w'.Recorded bucket (chunk.map .identifier)) := by
  unfold writeListBucket at h
  split at h
  · obtain ⟨rfl, rfl⟩ := pure_ok_iff.mp h
    exact ⟨Steps.refl _, hallowed _ (List.mem_singleton_self _), .inl ⟨rfl, rfl⟩⟩
  · rename_i hmany
    have hlength : 2 ≤ chunk.length := by
      rcases chunk with _ | ⟨first, _ | ⟨second, rest⟩⟩
      · exact absurd rfl hchunk
      · exact absurd rfl (hmany first)
      · simp
    obtain ⟨hsteps, hrecorded, hsegment, -⟩ := writeRecord_spec hw h nofun
      (fun _ => by rw [SegmentView.fieldsLength_identifiers, Nat.mul_comm]) (by omega)
      (fun _ record hmem => .inr (by simpa using hmem)) hallowed
    exact ⟨hsteps, .inr (.inl hsegment), .inr ⟨hlength, hrecorded⟩⟩

/-- A bucket of lists of full chunks is the list of all their elements. -/
theorem ListAt.bucket {provider : SegmentProvider} {bucket : RecordIdentifier} (hlength : 2 ≤ chunk.length)
    (hrecord : RecordAt provider bucket (chunk.map .identifier))
    (hchunk : List.Forall₂ (ListAt provider) chunk (elements.chunks (bucketCapacity ^ k)))
    (hcapacity : elements.length ≤ bucketCapacity ^ (k + 1)) : ListAt provider bucket elements := by
  obtain ⟨view, hview, hholds⟩ := hrecord
  have hpos : 0 < bucketCapacity ^ k := Nat.pow_pos (by decide)
  have hcount := hchunk.length_eq
  rw [List.length_chunks hpos] at hcount
  have hlow : bucketCapacity ^ k < elements.length := by
    by_contra hle
    have : (elements.length + bucketCapacity ^ k - 1) / bucketCapacity ^ k < 2 := by
      rw [Nat.div_lt_iff_lt_mul hpos]
      omega
    omega
  refine ⟨List.ne_nil_of_length_pos (by omega), ?_⟩
  refine collectEntries_bucket hview (fun i hi => ?_) hlow hcapacity
    (hchunk.imp fun _ _ hlist => hlist.2)
  rw [← List.append_nil (chunk.map Field.identifier)] at hholds
  exact hholds.readIdentifiers i hi

/-! ## Levels -/

theorem Level.next {provider : SegmentProvider} {buckets : List RecordIdentifier}
    (hlevel : Level k provider level elements)
    (hbuckets : List.Forall₂ (fun chunk bucket => chunk = [bucket] ∨
      2 ≤ chunk.length ∧ RecordAt provider bucket (chunk.map .identifier))
      (level.chunks bucketCapacity) buckets) : Level (k + 1) provider buckets elements := by
  have hpos : 0 < bucketCapacity ^ k := Nat.pow_pos (by decide)
  have hpow : bucketCapacity ^ (k + 1) = bucketCapacity * bucketCapacity ^ k := by
    rw [pow_succ, Nat.mul_comm]
  have hpieces := List.forall₂_chunks_mul (show 0 < bucketCapacity by decide) hpos hlevel
  rw [Level, hpow]
  refine (List.forall₂_of_common hbuckets hpieces).imp ?_
  rintro bucket piece ⟨chunk, rfl | ⟨hlength, hrecord⟩, hchunk, hpiece⟩
  · -- a single element stands for a single chunk
    cases hchunk' : List.chunks (bucketCapacity ^ k) piece with
    | nil =>
      rw [hchunk'] at hchunk
      cases hchunk
    | cons first rest =>
      rw [hchunk'] at hchunk
      cases hchunk with
      | cons hfirst hrest =>
        cases hrest
        have hflat := List.flatten_chunks hpos piece
        rw [hchunk', List.flatten_cons, List.flatten_nil, List.append_nil] at hflat
        exact hflat ▸ hfirst
  · exact ListAt.bucket hlength hrecord hchunk (hpow ▸ hpiece)

theorem length_lt_of_chunks (h : 1 < level.length) :
    (level.chunks bucketCapacity).length < level.length := by
  rw [List.length_chunks (by decide)]
  unfold bucketCapacity
  omega

theorem writeListLevels_spec {rounds : Nat} {top : List RecordIdentifier} (hw : Valid c w)
    (h : (writeListLevels c.environment rounds level).run w = .ok (top, w'))
    (hne : 0 < level.length) (hrounds : level.length ≤ rounds)
    (hallowed : ∀ record ∈ level, Allowed c w record.segment)
    (hlevel : Assured c w (Level k · level elements)) :
    Steps c w w' ∧ (∀ record ∈ top, Allowed c w' record.segment) ∧ top.length = 1 ∧
      ∃ k, Assured c w' (Level k · top elements) := by
  induction rounds generalizing w level k with
  | zero =>
    obtain ⟨rfl, rfl⟩ := pure_ok_iff.mp h
    exact ⟨Steps.refl _, hallowed, by omega, k, hlevel⟩
  | succ rounds ih =>
    rw [writeListLevels] at h
    split at h
    · obtain ⟨rfl, rfl⟩ := pure_ok_iff.mp h
      exact ⟨Steps.refl _, hallowed, by omega, k, hlevel⟩
    · rename_i hlong
      obtain ⟨next, w₁, hnext, h⟩ := bind_ok_iff.mp h
      obtain ⟨hsteps, hnextAllowed, hbuckets⟩ := mapM_assured
        (P := fun chunk bucket provider => chunk = [bucket] ∨ 2 ≤ chunk.length ∧
          RecordAt provider bucket (chunk.map .identifier)) hw (by
          intro chunk hmem t bucket t' ht hsteps hrun
          obtain ⟨hpos, -, hsub⟩ := List.mem_chunks (by decide) hmem
          obtain ⟨hstep, hbucket, hcases⟩ := writeListBucket_spec ht hrun
            (List.ne_nil_of_length_pos hpos)
            (fun record hrecord => hsteps.allowed (hallowed record (hsub hrecord)))
          refine ⟨hstep, hbucket, fun provider hserves => ?_⟩
          rcases hcases with ⟨hsingle, -⟩ | ⟨hmany, hrecorded⟩
          · exact .inl hsingle
          · exact .inr ⟨hmany, hrecorded.assured provider hserves⟩) hnext
      have hlength : next.length = (level.chunks bucketCapacity).length :=
        (StateT.mapM_length hnext).symm
      have hshort := length_lt_of_chunks (not_le.mp hlong)
      have hpos : 0 < (level.chunks bucketCapacity).length := by
        rw [List.length_chunks (by decide)]
        unfold bucketCapacity
        omega
      obtain ⟨hsteps', hrest⟩ := ih (hsteps.valid hw) h (by omega) (by omega) hnextAllowed
        (fun provider hserves =>
          Level.next (hsteps.assured hw hlevel provider hserves) (hbuckets provider hserves))
      exact ⟨hsteps.trans hsteps', hrest⟩

/-! ## Whole lists -/

theorem level_zero (provider : SegmentProvider) (elements : List RecordIdentifier) :
    Level 0 provider elements elements := by
  rw [Level, pow_zero, List.chunks_one]
  exact List.forall₂_map_right_iff.mpr (List.forall₂_same.mpr fun element _ =>
    ⟨List.cons_ne_nil _ _, collectEntries_one⟩)

/-- The body of a list is read back. -/
theorem writeListBody_spec {body : Option RecordIdentifier} (hw : Valid c w)
    (h : (writeListBody c.environment elements).run w = .ok (body, w'))
    (hallowed : ∀ record ∈ elements, Allowed c w record.segment) :
    Steps c w w' ∧ ((elements = [] ∧ body = none) ∨ ∃ list, body = some list ∧
      Allowed c w' list.segment ∧ Assured c w' (ListAt · list elements)) := by
  unfold writeListBody at h
  split at h
  · rename_i hempty
    obtain ⟨rfl, rfl⟩ := pure_ok_iff.mp h
    exact ⟨Steps.refl _, .inl ⟨hempty, rfl⟩⟩
  · rename_i hne
    obtain ⟨top, w₁, hlevels, h⟩ := bind_ok_iff.mp h
    obtain ⟨rfl, rfl⟩ := pure_ok_iff.mp h
    obtain ⟨hsteps, htop, hshort, k, hlevel⟩ := writeListLevels_spec hw hlevels
      (List.length_pos_iff.mpr hne) le_rfl hallowed
      (fun provider _ => level_zero provider elements)
    refine ⟨hsteps, .inr ?_⟩
    have hpos : 0 < bucketCapacity ^ k := Nat.pow_pos (by decide)
    obtain ⟨list, rfl⟩ := List.length_eq_one_iff.mp hshort
    refine ⟨list, rfl, htop list (List.mem_singleton_self _), fun provider hserves => ?_⟩
    have hone : List.Forall₂ (ListAt provider) [list] (elements.chunks (bucketCapacity ^ k)) :=
      hlevel provider hserves
    have hflat := List.flatten_chunks hpos elements
    cases hpieces : elements.chunks (bucketCapacity ^ k) with
    | nil =>
      rw [hpieces] at hone
      cases hone
    | cons piece rest =>
      rw [hpieces] at hone hflat
      cases hone with
      | cons hlist hrest =>
        cases hrest
        rw [List.flatten_cons, List.flatten_nil, List.append_nil] at hflat
        exact hflat ▸ hlist

/-! ## Counted lists -/

def CountedListAt (provider : SegmentProvider) (list : RecordIdentifier)
    (elements : List RecordIdentifier) : Prop :=
  (elements = [] ∧ RecordAt provider list [.raw (Bytes.be32 0)]) ∨
    ∃ body, ListAt provider body elements ∧ RecordAt provider list
      [.raw (Bytes.be32 (UInt32.ofNat elements.length)), .identifier body]

theorem writeCountedList_spec {list : RecordIdentifier} (hw : Valid c w)
    (h : (writeCountedList c.environment elements).run w = .ok (list, w'))
    (hallowed : ∀ record ∈ elements, Allowed c w record.segment) :
    Steps c w w' ∧ Allowed c w' list.segment ∧ Assured c w' (CountedListAt · list elements) := by
  obtain ⟨body, w₁, hbody, h⟩ := bind_ok_iff.mp h
  obtain ⟨hsteps, hcases⟩ := writeListBody_spec hw hbody hallowed
  have hw₁ := hsteps.valid hw
  rcases hcases with ⟨hempty, rfl⟩ | ⟨body, rfl, hbody, hlist⟩
  · obtain ⟨hsteps', hrecorded, hsegment, -⟩ := writeRecord_spec hw₁ h nofun (fun _ => rfl)
      (by decide) (fun _ record hmem => by simp at hmem) (fun record hmem => by cases hmem)
    exact ⟨hsteps.trans hsteps', .inr (.inl hsegment), fun provider hserves =>
      .inl ⟨hempty, hrecorded.assured provider hserves⟩⟩
  · obtain ⟨hsteps', hrecorded, hsegment, -⟩ := writeRecord_spec hw₁ h nofun (fun _ => rfl)
      (by decide) (fun _ record hmem => .inr (by simpa using hmem))
      (fun record hmem => List.mem_singleton.mp hmem ▸ hbody)
    exact ⟨hsteps.trans hsteps', .inr (.inl hsegment), fun provider hserves =>
      .inr ⟨body, hsteps'.assured hw₁ hlist provider hserves,
        hrecorded.assured provider hserves⟩⟩

/-! ## Reading lists -/

section

variable {provider : SegmentProvider} {list : RecordIdentifier}

variable {size : Nat}

theorem validateSize_ok_iff : validateSize size = .ok () ↔ size ≤ maximumListSize := by
  unfold validateSize
  split
  · rename_i hgt
    exact iff_of_false nofun (Nat.not_le_of_gt hgt)
  · rename_i hle
    exact iff_of_true rfl (Nat.le_of_not_gt hle)

theorem validateSize_eq (h : size ≤ maximumListSize) : validateSize size = .ok () :=
  validateSize_ok_iff.mpr h

section

variable (h : ListAt provider list elements) (hsize : elements.length ≤ maximumListSize)
include h hsize

theorem ListAt.entries :
    uncountedListEntries provider list elements.length = .ok elements := by
  rw [uncountedListEntries, validateSize_eq hsize, Except.ok_bind_eq]
  exact h.2

theorem ListAt.entry (i : Nat) (hi : i < elements.length) :
    uncountedListEntry provider list elements.length i = .ok elements[i] :=
  (length_uncountedListEntries (h.entries hsize)).2.2 i hi

end

/-- An index past the end is refused. -/
theorem uncountedListEntry_past {i : Nat} (h : size ≤ i) (entry : RecordIdentifier) :
    uncountedListEntry provider list size i ≠ .ok entry := by
  intro hok
  obtain ⟨_, _, hok⟩ := Except.bind_ok_iff.mp hok
  rw [if_pos h] at hok
  cases hok

theorem CountedListAt.read (h : CountedListAt provider list elements)
    (hsize : elements.length ≤ maximumListSize) :
    ∃ counted, readCountedList provider list = .ok counted ∧
      counted.size.toNat = elements.length ∧
      ((elements = [] ∧ counted.body = none) ∨
        ∃ body, counted.body = some body ∧ ListAt provider body elements) := by
  rcases h with ⟨rfl, view, hview, hholds⟩ | ⟨body, hlist, view, hview, hholds⟩
  · have hread := hholds.readU32
    refine ⟨⟨0, none⟩, ?_, rfl, .inl ⟨rfl, rfl⟩⟩
    rw [readCountedList, hview, Except.ok_bind_eq, hread, Except.ok_bind_eq]
    rfl
  · have hread := hholds.readU32
    have hbody := hholds.2.1
    rw [Bytes.length_be32, Nat.zero_add] at hbody
    have hnat : (UInt32.ofNat elements.length).toNat = elements.length := by
      unfold maximumListSize bucketCapacity at hsize
      rw [UInt32.toNat_ofNat']
      omega
    refine ⟨⟨UInt32.ofNat elements.length, some body⟩, ?_, hnat, .inr ⟨body, rfl, hlist⟩⟩
    have hpositive : UInt32.ofNat elements.length ≠ 0 := by
      intro h0
      rw [h0] at hnat
      exact hlist.1 (List.length_eq_zero_iff.mp hnat.symm)
    have hsigned : 0 ≤ signed32 (UInt32.ofNat elements.length) := by
      rw [SegmentBufferBuilder.signed32_nonneg_iff, hnat]
      unfold maximumListSize bucketCapacity at hsize
      omega
    rw [readCountedList, hview, Except.ok_bind_eq, hread, Except.ok_bind_eq,
      if_pos ⟨hsigned, by rw [hnat]; exact hsize⟩, if_neg hpositive, hbody]
    rfl

end

end Froe
