import Froe.Content.ListEntries
import Froe.Content.Map

/-!
# Reading maps

A trie of map records is read in two ways that share no code: a lookup descends
by the hash of a name and searches one leaf, and an enumeration expands every
record.  On a well-formed trie both are about the same entries
(`TrieAt.mapEntryWalk`, `TrieAt.collectMapEntries`).
-/

namespace Froe

open List (flatMap_cons getElem_mem length_append length_cons length_map map_cons mem_cons
  mem_cons_of_mem mem_cons_self mem_map_of_mem)
open Except (ok_bind_eq)

/-! ## Head words -/

/-- The head word of a leaf or a branch. -/
def mapHead (level size : Nat) : UInt32 := UInt32.ofNat (level * 2 ^ 29 + size)

/-- The most entries of a map. -/
def maximumMapSize : Nat := 2 ^ 29 - 2

theorem mapHead_spec {level size : Nat} (hlevel : level ≤ 7) (hsize : size ≤ maximumMapSize) :
    mapHead level size ≠ diffHead ∧ (mapHead level size &&& sizeMask).toNat = size ∧
      (mapHead level size >>> levelShift).toNat = level := by
  unfold maximumMapSize at hsize
  have hnat : (mapHead level size).toNat = level * 2 ^ 29 + size := by
    rw [mapHead, UInt32.toNat_ofNat']
    omega
  refine ⟨fun h => ?_, ?_, ?_⟩
  · rw [h] at hnat
    have : diffHead.toNat = 2 ^ 32 - 1 := rfl
    omega
  · rw [UInt32.toNat_and, hnat]
    refine (Nat.and_two_pow_sub_one_eq_mod _ 29).trans ?_
    omega
  · rw [UInt32.toNat_shiftRight, hnat, show levelShift.toNat % 32 = 29 from rfl,
      Nat.shiftRight_eq_div_pow]
    omega

theorem bucketIndex_lt (level : Nat) (hash : UInt32) : bucketIndex level hash < 32 := by
  unfold bucketIndex
  dsimp only
  omega

/-! ## Well-formed tries -/

/-- A leaf: the hashes in ascending order, and the keys and values. -/
structure LeafIn (provider : SegmentProvider) (view : SegmentView) (level : Nat)
    (leaf : RecordIdentifier) (entries : List CollectedEntry) : Prop where
  head : view.readU32 leaf.recordNumber 0 = .ok (mapHead level entries.length)
  hashes : ∀ i (hi : i < entries.length),
    view.readU32 leaf.recordNumber (4 + i * 4) = .ok (mapEntryHash entries[i].name)
  keys : ∀ i (hi : i < entries.length),
    view.readRecordIdentifier leaf.recordNumber (4 + entries.length * 4) (i * 2) =
      .ok entries[i].keyIdentifier
  values : ∀ i (hi : i < entries.length),
    view.readRecordIdentifier leaf.recordNumber (4 + entries.length * 4) (i * 2 + 1) =
      .ok entries[i].value
  names : ∀ entry ∈ entries, readString provider entry.keyIdentifier = .ok entry.name
  sorted : entries.Pairwise fun a b => mapEntryHash a.name ≤ mapEntryHash b.name
  distinct : (entries.map CollectedEntry.name).Nodup
  capacity : entries.length ≤ bucketsPerLevel ∨ level = maximumLevel

/-- A bucket of a branch: its bit, its record, and what is below it. -/
structure MapBucket where
  index : Nat
  record : RecordIdentifier
  entries : List CollectedEntry
  nodes : List RecordIdentifier

/-- A branch: the bits of its buckets, and their records in the order of the bits. -/
structure BranchIn (view : SegmentView) (level : Nat) (branch : RecordIdentifier)
    (buckets : List MapBucket) : Prop where
  head : view.readU32 branch.recordNumber 0 =
    .ok (mapHead level (buckets.flatMap MapBucket.entries).length)
  above : level < maximumLevel
  size : bucketsPerLevel < (buckets.flatMap MapBucket.entries).length
  bitmap : ∃ bitmap, view.readU32 branch.recordNumber 4 = .ok bitmap ∧
    (List.range 32).filter (fun bit => bitmap.toNat.testBit bit) = buckets.map MapBucket.index
  records : ∀ i (hi : i < buckets.length),
    view.readRecordIdentifier branch.recordNumber 8 i = .ok buckets[i].record
  placed : ∀ bucket ∈ buckets, ∀ entry ∈ bucket.entries,
    bucketIndex level (mapEntryHash entry.name) = bucket.index

/-- A trie from a level on, with at most some branches above a leaf, its entries in storage order
and its records. -/
def TrieAt (provider : SegmentProvider) :
    Nat → Nat → RecordIdentifier → List CollectedEntry → List RecordIdentifier → Prop
  | 0, level, record, entries, nodes =>
    ∃ view, provider record.segment = .ok view ∧ level ≤ maximumLevel ∧
      LeafIn provider view level record entries ∧ nodes = [record]
  | depth + 1, level, record, entries, nodes =>
    ∃ view, provider record.segment = .ok view ∧ level ≤ maximumLevel ∧
      ((LeafIn provider view level record entries ∧ nodes = [record]) ∨
        ∃ buckets, BranchIn view level record buckets ∧
          (∀ bucket ∈ buckets,
            TrieAt provider depth (level + 1) bucket.record bucket.entries bucket.nodes) ∧
          entries = buckets.flatMap MapBucket.entries ∧
          nodes = record :: buckets.flatMap MapBucket.nodes)

/-- A leaf but for the texts of its keys. -/
structure LeafShape (view : SegmentView) (level : Nat) (leaf : RecordIdentifier)
    (entries : List CollectedEntry) : Prop where
  head : view.readU32 leaf.recordNumber 0 = .ok (mapHead level entries.length)
  hashes : ∀ i (hi : i < entries.length),
    view.readU32 leaf.recordNumber (4 + i * 4) = .ok (mapEntryHash entries[i].name)
  keys : ∀ i (hi : i < entries.length),
    view.readRecordIdentifier leaf.recordNumber (4 + entries.length * 4) (i * 2) =
      .ok entries[i].keyIdentifier
  values : ∀ i (hi : i < entries.length),
    view.readRecordIdentifier leaf.recordNumber (4 + entries.length * 4) (i * 2 + 1) =
      .ok entries[i].value
  sorted : entries.Pairwise fun a b => mapEntryHash a.name ≤ mapEntryHash b.name
  distinct : (entries.map CollectedEntry.name).Nodup
  capacity : entries.length ≤ bucketsPerLevel ∨ level = maximumLevel

/-- A trie but for the texts of its keys. -/
def ShapeAt (provider : SegmentProvider) :
    Nat → Nat → RecordIdentifier → List CollectedEntry → List RecordIdentifier → Prop
  | 0, level, record, entries, nodes =>
    ∃ view, provider record.segment = .ok view ∧ level ≤ maximumLevel ∧
      LeafShape view level record entries ∧ nodes = [record]
  | depth + 1, level, record, entries, nodes =>
    ∃ view, provider record.segment = .ok view ∧ level ≤ maximumLevel ∧
      ((LeafShape view level record entries ∧ nodes = [record]) ∨
        ∃ buckets, BranchIn view level record buckets ∧
          (∀ bucket ∈ buckets,
            ShapeAt provider depth (level + 1) bucket.record bucket.entries bucket.nodes) ∧
          entries = buckets.flatMap MapBucket.entries ∧
          nodes = record :: buckets.flatMap MapBucket.nodes)

def valueOf (entries : List CollectedEntry) (name : String) : Option RecordIdentifier :=
  (entries.find? fun entry => entry.name == name).map CollectedEntry.value

variable {provider : SegmentProvider}

/-! ## Leaves -/

section

variable {view : SegmentView} {level : Nat} {leaf : RecordIdentifier}
  {entries : List CollectedEntry}

section

variable (h : LeafIn provider view level leaf entries)
include h

/-- The search finds where the hashes reach a hash. -/
theorem LeafIn.leafSearch (hash : UInt32)
    {rounds low high : Nat} (hrounds : high - low ≤ rounds) (hle : low ≤ high)
    (hhigh : high ≤ entries.length)
    (hbefore : ∀ i (hi : i < entries.length), i < low → mapEntryHash entries[i].name < hash)
    (hafter : ∀ i (hi : i < entries.length), high ≤ i → hash ≤ mapEntryHash entries[i].name) :
    ∃ position, leafSearch view leaf hash rounds low high = .ok position ∧
      position ≤ entries.length ∧
      (∀ i (hi : i < entries.length), i < position → mapEntryHash entries[i].name < hash) ∧
      ∀ i (hi : i < entries.length), position ≤ i → hash ≤ mapEntryHash entries[i].name := by
  induction rounds generalizing low high with
  | zero =>
    obtain rfl : low = high := by omega
    exact ⟨low, rfl, hhigh, hbefore, hafter⟩
  | succ rounds ih =>
    rw [Froe.leafSearch]
    by_cases hlt : low < high
    · have hmiddle : (low + high) / 2 < entries.length := by omega
      rw [if_pos hlt]
      dsimp only
      rw [h.hashes _ hmiddle, ok_bind_eq]
      have hsorted := List.pairwise_iff_getElem.mp h.sorted
      split
      · rename_i hless
        refine ih (by omega) (by omega) hhigh (fun i hi hi' => ?_) hafter
        rcases Nat.lt_or_ge i ((low + high) / 2) with hearlier | hlater
        · exact UInt32.lt_of_le_of_lt (hsorted i _ hi hmiddle hearlier) hless
        · obtain rfl : i = (low + high) / 2 := by omega
          exact hless
      · rename_i hnotless
        refine ih (by omega) (by omega) (by omega) hbefore fun i hi hi' => ?_
        rcases Nat.lt_or_ge ((low + high) / 2) i with hlater | hearlier
        · exact UInt32.le_trans (UInt32.not_lt.mp hnotless) (hsorted _ i hmiddle hi hlater)
        · obtain rfl : i = (low + high) / 2 := by omega
          exact UInt32.not_lt.mp hnotless
    · obtain rfl : low = high := by omega
      rw [if_neg hlt]
      exact ⟨low, rfl, hhigh, hbefore, hafter⟩

/-- The scan finds the entry of a name among those from a position on. -/
theorem LeafIn.leafScan (name : String)
    {rounds position : Nat} (hrounds : position + rounds = entries.length)
    (hafter : ∀ i (hi : i < entries.length), position ≤ i →
      mapEntryHash name ≤ mapEntryHash entries[i].name) :
    leafScan provider view leaf entries.length (mapEntryHash name) name rounds position =
      .ok (valueOf (entries.drop position) name) := by
  induction rounds generalizing position with
  | zero =>
    rw [List.drop_of_length_le (by omega)]
    rfl
  | succ rounds ih =>
    have hposition : position < entries.length := by omega
    rw [Froe.leafScan, h.hashes _ hposition, ok_bind_eq, List.drop_eq_getElem_cons hposition]
    by_cases hhash : mapEntryHash entries[position].name = mapEntryHash name
    · have hname := h.names _ (getElem_mem hposition)
      rw [if_neg (not_not.mpr hhash), h.keys _ hposition, ok_bind_eq, hname,
        ok_bind_eq, valueOf, List.find?_cons]
      by_cases heq : entries[position].name = name
      · rw [if_pos heq, h.values _ hposition, ok_bind_eq, beq_iff_eq.mpr heq]
        rfl
      · rw [if_neg heq, ih (by omega) fun i hi hi' => hafter i hi (by omega),
          beq_false_of_ne heq]
        rfl
    · -- all later hashes are above that of the name
      rw [if_pos hhash]
      have hnone : (entries[position] :: entries.drop (position + 1)).find?
          (fun entry => entry.name == name) = none := by
        rw [List.find?_eq_none]
        intro entry hmem heq
        rw [← List.drop_eq_getElem_cons hposition] at hmem
        obtain ⟨i, hi, rfl⟩ := List.getElem_of_mem hmem
        rw [List.length_drop] at hi
        rw [List.getElem_drop] at heq
        have hle := (List.pairwise_iff_getElem.mp h.sorted)
        have hfirst := hafter position hposition le_rfl
        have hname := beq_iff_eq.mp heq
        rcases Nat.eq_zero_or_pos i with rfl | hpos
        · exact hhash (congrArg mapEntryHash hname)
        · have hlater := hle position (position + i) hposition (by omega) (by omega)
          rw [hname] at hlater
          exact hhash (UInt32.le_antisymm hlater hfirst)
      rw [valueOf, hnone]
      rfl

theorem LeafIn.leafEntry (name : String) :
    leafEntry provider view leaf entries.length (mapEntryHash name) name =
      .ok (valueOf entries name) := by
  obtain ⟨position, hsearch, hle, hbefore, hafter⟩ := h.leafSearch (mapEntryHash name)
    (show entries.length - 0 ≤ entries.length by omega) (by omega) le_rfl
    (fun i _ hi => absurd hi (Nat.not_lt_zero i)) (fun i hi hi' => absurd hi (by omega))
  rw [Froe.leafEntry, hsearch, ok_bind_eq, h.leafScan name (by omega) hafter]
  have hnone : (entries.take position).find? (fun entry => entry.name == name) = none := by
    rw [List.find?_eq_none]
    intro entry hmem heq
    obtain ⟨i, hi, rfl⟩ := List.getElem_of_mem hmem
    rw [List.length_take] at hi
    rw [List.getElem_take] at heq
    have hless := hbefore i (by omega) (by omega)
    rw [beq_iff_eq.mp heq] at hless
    exact UInt32.lt_irrefl _ hless
  have hsplit : valueOf entries name = valueOf (entries.drop position) name := by
    unfold valueOf
    conv_lhs => rw [← List.take_append_drop position entries, List.find?_append, hnone]
    rfl
  rw [hsplit]

end

end

/-! ## Bitmaps -/

theorem toNat_bit {i : Nat} (hi : i < 32) : ((1 : UInt32) <<< UInt32.ofNat i).toNat = 2 ^ i := by
  have hnat : (UInt32.ofNat i).toNat = i := by
    rw [UInt32.toNat_ofNat']
    omega
  have hpow : 2 ^ i < 2 ^ 32 := Nat.pow_lt_pow_right (by decide) hi
  rw [UInt32.toNat_shiftLeft, hnat, Nat.mod_eq_of_lt hi, Nat.shiftLeft_eq,
    show (1 : UInt32).toNat = 1 from rfl, Nat.one_mul, Nat.mod_eq_of_lt hpow]

theorem and_bit_eq_zero_iff {bitmap : UInt32} {i : Nat} (hi : i < 32) :
    bitmap &&& (1 <<< UInt32.ofNat i) = 0 ↔ bitmap.toNat.testBit i = false := by
  rw [← UInt32.toNat_inj, UInt32.toNat_and, toNat_bit hi]
  constructor
  · intro h
    have hbit := congrArg (fun n => n.testBit i) h
    simpa using hbit
  · intro h
    refine Nat.eq_of_testBit_eq fun j => ?_
    by_cases hj : i = j
    · subst hj
      simp [h]
    · simp [Nat.testBit_two_pow_of_ne hj]

/-- The set bits below a bit. -/
theorem countOnes_below {bitmap : UInt32} {i : Nat} (hi : i < 32) :
    countOnes (bitmap &&& (1 <<< UInt32.ofNat i - 1)) =
      (((List.range 32).filter fun bit => bitmap.toNat.testBit bit).filter (· < i)).length := by
  have hone : (1 : UInt32) ≤ 1 <<< UInt32.ofNat i := by
    rw [UInt32.le_iff_toNat_le, toNat_bit hi]
    exact Nat.one_le_two_pow
  have hbits : ∀ bit, (bitmap &&& (1 <<< UInt32.ofNat i - 1)).toNat.testBit bit =
      (decide (bit < i) && bitmap.toNat.testBit bit) := by
    intro bit
    rw [UInt32.toNat_and, UInt32.toNat_sub_of_le _ _ hone, toNat_bit hi,
      show (1 : UInt32).toNat = 1 from rfl, Nat.testBit_and, Nat.testBit_two_pow_sub_one,
      Bool.and_comm]
  rw [countOnes, List.filter_filter]
  simp only [hbits]

theorem length_filter_lt_getElem {l : List Nat} (hsorted : l.Pairwise (· < ·)) (i : Nat)
    (hi : i < l.length) : (l.filter (· < l[i])).length = i := by
  induction l generalizing i with
  | nil => exact absurd hi (Nat.not_lt_zero i)
  | cons a l ih =>
    obtain ⟨hfirst, hrest⟩ := List.pairwise_cons.mp hsorted
    cases i with
    | zero =>
      rw [List.getElem_cons_zero, List.filter_cons_of_neg (by simp)]
      rw [List.length_eq_zero_iff, List.filter_eq_nil_iff]
      intro b hb
      simpa using (hfirst b hb).le
    | succ i =>
      have hi' : i < l.length := by simpa using hi
      rw [List.getElem_cons_succ, List.filter_cons_of_pos (by
        simpa using hfirst _ (getElem_mem hi')), length_cons, ih hrest i hi']

/-! ## Branches -/

section

variable {view : SegmentView} {level : Nat} {branch : RecordIdentifier} {buckets : List MapBucket}

section

variable (h : BranchIn view level branch buckets)
include h

theorem BranchIn.increasing :
    (buckets.map MapBucket.index).Pairwise (· < ·) := by
  obtain ⟨bitmap, -, hbits⟩ := h.bitmap
  rw [← hbits]
  exact (List.pairwise_lt_range).filter _

/-- No bucket can have a name whose bit is not set. -/
theorem valueOf_flatMap_of_notMem {name : String}
    (hname : bucketIndex level (mapEntryHash name) ∉ buckets.map MapBucket.index) :
    valueOf (buckets.flatMap MapBucket.entries) name = none := by
  have hnone : (buckets.flatMap MapBucket.entries).find? (fun entry => entry.name == name) =
      none := by
    rw [List.find?_eq_none]
    intro entry hmem heq
    obtain ⟨bucket, hbucket, hentry⟩ := List.mem_flatMap.mp hmem
    have hplaced := h.placed bucket hbucket entry hentry
    rw [beq_iff_eq.mp heq] at hplaced
    exact hname (hplaced ▸ mem_map_of_mem hbucket)
  rw [valueOf, hnone]
  rfl

/-- Only the bucket of its hash can have a name. -/
theorem valueOf_flatMap {name : String} {bucket : MapBucket} (hmem : bucket ∈ buckets)
    (hname : bucket.index = bucketIndex level (mapEntryHash name)) :
    valueOf (buckets.flatMap MapBucket.entries) name = valueOf bucket.entries name := by
  have hincreasing := h.increasing
  have hplaced := h.placed
  clear h
  unfold valueOf
  congr 1
  induction buckets with
  | nil => cases hmem
  | cons first rest ih =>
    rw [map_cons, List.pairwise_cons] at hincreasing
    rw [flatMap_cons, List.find?_append]
    have hother : ∀ other ∈ first :: rest, other.index ≠ bucket.index →
        other.entries.find? (fun entry => entry.name == name) = none := by
      intro other hother hne
      rw [List.find?_eq_none]
      intro entry hentry heq
      have := hplaced other hother entry hentry
      rw [beq_iff_eq.mp heq, ← hname] at this
      exact hne this.symm
    rcases mem_cons.mp hmem with rfl | hmem
    · have hrest : (rest.flatMap MapBucket.entries).find? (fun entry => entry.name == name) =
          none := by
        rw [List.find?_eq_none]
        intro entry hentry heq
        obtain ⟨other, hin, hentry⟩ := List.mem_flatMap.mp hentry
        have hlt := hincreasing.1 other.index (mem_map_of_mem hin)
        have hnone := hother other (mem_cons_of_mem _ hin) (by omega)
        exact List.find?_eq_none.mp hnone entry hentry heq
      rw [hrest, Option.or_none]
    · have hlt := hincreasing.1 bucket.index (mem_map_of_mem hmem)
      rw [hother first (mem_cons_self ..) (by omega), Option.none_or]
      exact ih hmem hincreasing.2 fun other hin => hplaced other (mem_cons_of_mem _ hin)

end

end

/-! ## Lookup -/

section

variable {view : SegmentView} {level rounds : Nat} {record : RecordIdentifier}
  {entries : List CollectedEntry} {buckets : List MapBucket}

theorem LeafIn.mapEntryWalk (hview : provider record.segment = .ok view)
    (h : LeafIn provider view level record entries) (hlevel : level ≤ 7)
    (hsize : entries.length ≤ maximumMapSize) (start : RecordIdentifier) (name : String) :
    mapEntryWalk provider start name (rounds + 1) record = .ok (valueOf entries name) := by
  obtain ⟨hdiff, hcount, hshift⟩ := mapHead_spec hlevel hsize
  rw [Froe.mapEntryWalk, hview, ok_bind_eq, h.head, ok_bind_eq, if_neg hdiff]
  dsimp only
  rw [hcount, hshift]
  by_cases hempty : entries.length = 0
  · rw [if_pos hempty, List.length_eq_zero_iff.mp hempty]
    rfl
  · have hleaf : ¬ (entries.length > bucketsPerLevel ∧ level < maximumLevel) := by
      rintro ⟨hmany, hbelow⟩
      rcases h.capacity with hfew | hdeepest
      · omega
      · omega
    rw [if_neg hempty, if_neg hleaf]
    exact h.leafEntry name

theorem BranchIn.mapEntryWalk (hview : provider record.segment = .ok view)
    (h : BranchIn view level record buckets)
    (hsize : (buckets.flatMap MapBucket.entries).length ≤ maximumMapSize)
    (start : RecordIdentifier) (name : String)
    (hbuckets : ∀ bucket ∈ buckets, mapEntryWalk provider start name rounds bucket.record =
      .ok (valueOf bucket.entries name)) :
    mapEntryWalk provider start name (rounds + 1) record =
      .ok (valueOf (buckets.flatMap MapBucket.entries) name) := by
  obtain ⟨hdiff, hcount, hshift⟩ := mapHead_spec h.above.le hsize
  obtain ⟨bitmap, hbitmap, hbits⟩ := h.bitmap
  have hlow : bucketsPerLevel < (buckets.flatMap MapBucket.entries).length := h.size
  have hmany : 0 < bucketsPerLevel := by decide
  rw [Froe.mapEntryWalk, hview, ok_bind_eq, h.head, ok_bind_eq, if_neg hdiff]
  dsimp only
  rw [hcount, hshift, if_neg (by omega), if_pos ⟨hlow, h.above⟩, hbitmap, ok_bind_eq]
  obtain ⟨index, hindex⟩ : ∃ index, index = bucketIndex level (mapEntryHash name) := ⟨_, rfl⟩
  have hindexLt : index < 32 := hindex ▸ bucketIndex_lt _ _
  rw [← hindex]
  by_cases hset : bitmap.toNat.testBit index = true
  · have hmem : index ∈ buckets.map MapBucket.index := by
      rw [← hbits, List.mem_filter]
      exact ⟨List.mem_range.mpr hindexLt, hset⟩
    obtain ⟨position, hposition, hat⟩ := List.getElem_of_mem hmem
    have hinside : position < buckets.length := by simpa using hposition
    have hcountBelow : countOnes (bitmap &&& (1 <<< UInt32.ofNat index - 1)) = position := by
      rw [countOnes_below hindexLt, hbits]
      have := length_filter_lt_getElem h.increasing position hposition
      rwa [hat] at this
    rw [if_neg (fun h0 => by rw [(and_bit_eq_zero_iff hindexLt).mp h0] at hset; cases hset),
      hcountBelow, h.records position hinside, ok_bind_eq,
      hbuckets _ (getElem_mem hinside)]
    have hbucket : buckets[position].index = bucketIndex level (mapEntryHash name) := by
      rw [← hindex, ← hat, List.getElem_map]
    rw [valueOf_flatMap h (getElem_mem hinside) hbucket]
  · have hclear : bitmap.toNat.testBit index = false := by simpa using hset
    rw [if_pos ((and_bit_eq_zero_iff hindexLt).mpr hclear)]
    have hnot : bucketIndex level (mapEntryHash name) ∉ buckets.map MapBucket.index := by
      rw [← hbits, ← hindex, List.mem_filter]
      exact fun hin => hset hin.2
    rw [valueOf_flatMap_of_notMem h hnot]
    rfl

end

/-- The length of a part of the entries. -/
theorem length_le_flatMap_of_mem {α β : Type} {f : α → List β} {l : List α} {a : α} (h : a ∈ l) :
    (f a).length ≤ (l.flatMap f).length := by
  obtain ⟨before, after, rfl⟩ := List.append_of_mem h
  rw [List.flatMap_append, flatMap_cons, length_append, length_append]
  omega

/-- A lookup finds the entry of a name. -/
theorem TrieAt.mapEntryWalk {depth level rounds : Nat} {record : RecordIdentifier}
    {entries : List CollectedEntry} {nodes : List RecordIdentifier}
    (h : TrieAt provider depth level record entries nodes) (hsize : entries.length ≤ maximumMapSize)
    (hrounds : depth < rounds) (start : RecordIdentifier) (name : String) :
    mapEntryWalk provider start name rounds record = .ok (valueOf entries name) := by
  induction depth generalizing level rounds record entries nodes with
  | zero =>
    obtain ⟨view, hview, hlevel, hleaf, -⟩ := h
    obtain ⟨rounds, rfl⟩ : ∃ n, rounds = n + 1 := ⟨rounds - 1, by omega⟩
    exact hleaf.mapEntryWalk hview hlevel hsize start name
  | succ depth ih =>
    obtain ⟨rounds, rfl⟩ : ∃ n, rounds = n + 1 := ⟨rounds - 1, by omega⟩
    obtain ⟨view, hview, hlevel, ⟨hleaf, -⟩ | ⟨buckets, hbranch, hbuckets, rfl, -⟩⟩ := h
    · exact hleaf.mapEntryWalk hview hlevel hsize start name
    · refine hbranch.mapEntryWalk hview hsize start name fun bucket hmem => ?_
      exact ih (hbuckets bucket hmem) ((length_le_flatMap_of_mem hmem).trans hsize) (by omega)

/-! ## Enumeration -/

section

variable {view : SegmentView} {level : Nat} {record : RecordIdentifier}
  {entries : List CollectedEntry} {buckets : List MapBucket}

theorem LeafIn.expandMapRecord (h : LeafIn provider view level record entries) (hlevel : level ≤ 7)
    (hsize : entries.length ≤ maximumMapSize) :
    expandMapRecord provider record view (mapHead level entries.length) = .ok (entries, []) := by
  obtain ⟨hdiff, hcount, hshift⟩ := mapHead_spec hlevel hsize
  rw [Froe.expandMapRecord, if_neg hdiff]
  dsimp only
  rw [hcount, hshift]
  by_cases hempty : entries.length = 0
  · rw [if_pos hempty, List.length_eq_zero_iff.mp hempty]
    rfl
  · have hleaf : ¬ (entries.length > bucketsPerLevel ∧ level < maximumLevel) := by
      rintro ⟨hmany, hbelow⟩
      rcases h.capacity with hfew | hdeepest
      · omega
      · omega
    rw [if_neg hempty, if_neg hleaf]
    have hall : (List.range entries.length).mapM
        (readLeafEntry provider view record (4 + entries.length * 4)) = .ok entries := by
      rw [Except.mapM_range_ok_iff]
      refine ⟨rfl, fun i hi => ?_⟩
      rw [readLeafEntry, h.keys i hi, ok_bind_eq, h.values i hi, ok_bind_eq,
        h.names _ (getElem_mem hi), ok_bind_eq]
      rfl
    rw [hall]
    rfl

theorem BranchIn.expandMapRecord (h : BranchIn view level record buckets)
    (hsize : (buckets.flatMap MapBucket.entries).length ≤ maximumMapSize) :
    expandMapRecord provider record view
      (mapHead level (buckets.flatMap MapBucket.entries).length) =
      .ok ([], buckets.map MapBucket.record) := by
  obtain ⟨hdiff, hcount, hshift⟩ := mapHead_spec h.above.le hsize
  obtain ⟨bitmap, hbitmap, hbits⟩ := h.bitmap
  have hlow : bucketsPerLevel < (buckets.flatMap MapBucket.entries).length := h.size
  have hones : countOnes bitmap = buckets.length := by
    rw [countOnes, hbits, length_map]
  rw [Froe.expandMapRecord, if_neg hdiff]
  dsimp only
  rw [hcount, hshift, if_neg (by omega), if_pos ⟨hlow, h.above⟩, hbitmap, ok_bind_eq, hones]
  have hall : (List.range buckets.length).mapM (fun bucketPosition =>
      view.readRecordIdentifier record.recordNumber 8 bucketPosition) =
      .ok (buckets.map MapBucket.record) := by
    rw [Except.mapM_range_ok_iff]
    refine ⟨length_map _, fun i hi => ?_⟩
    rw [length_map] at hi
    rw [h.records i hi, List.getElem_map]
  rw [hall]
  rfl

end

section

variable {rounds : Nat} {visited pending : List RecordIdentifier} {record : RecordIdentifier}
  {entries rest : List CollectedEntry}

theorem collectMapEntries_cons {scheduled : List RecordIdentifier} {view : SegmentView} {head : UInt32} (hnew : record ∉ visited)
    (hview : provider record.segment = .ok view)
    (hhead : view.readU32 record.recordNumber 0 = .ok head)
    (hexpand : expandMapRecord provider record view head = .ok (entries, scheduled))
    (hrest : collectMapEntries provider rounds (record :: visited) (scheduled ++ pending) =
      .ok rest) :
    collectMapEntries provider (rounds + 1) visited (record :: pending) = .ok (entries ++ rest) := by
  rw [collectMapEntries, if_neg hnew, hview, ok_bind_eq, hhead, ok_bind_eq, hexpand,
    ok_bind_eq]
  dsimp only
  rw [hrest]
  rfl

/-- An enumeration lists the entries of a trie, and goes on with what was pending. -/
theorem TrieAt.collectMapEntries {depth level : Nat} {nodes : List RecordIdentifier}
    (h : TrieAt provider depth level record entries nodes) (hsize : entries.length ≤ maximumMapSize)
    (hnodup : nodes.Nodup) (hvisited : ∀ node ∈ nodes, node ∉ visited)
    (hrest : ∀ visited', (∀ r, r ∈ visited' ↔ r ∈ nodes ∨ r ∈ visited) →
      collectMapEntries provider rounds visited' pending = .ok rest) :
    collectMapEntries provider (nodes.length + rounds) visited (record :: pending) =
      .ok (entries ++ rest) := by
  induction depth generalizing level rounds record entries rest nodes visited pending with
  | zero =>
    obtain ⟨view, hview, hlevel, hleaf, rfl⟩ := h
    rw [List.length_singleton, Nat.add_comm 1 rounds]
    refine collectMapEntries_cons (hvisited _ (List.mem_singleton_self _)) hview hleaf.head
      (hleaf.expandMapRecord hlevel hsize) (hrest _ fun r => ?_)
    rw [mem_cons, List.mem_singleton]
  | succ depth ih =>
    obtain ⟨view, hview, hlevel, ⟨hleaf, rfl⟩ | ⟨buckets, hbranch, hbuckets, rfl, rfl⟩⟩ := h
    · rw [List.length_singleton, Nat.add_comm 1 rounds]
      refine collectMapEntries_cons (hvisited _ (List.mem_singleton_self _)) hview hleaf.head
        (hleaf.expandMapRecord hlevel hsize) (hrest _ fun r => ?_)
      rw [mem_cons, List.mem_singleton]
    · obtain ⟨hrecord, hbelow⟩ := List.nodup_cons.mp hnodup
      -- the buckets one after the other
      have hall : ∀ (some : List MapBucket) (visited' : List RecordIdentifier),
          some ⊆ buckets → (some.flatMap MapBucket.nodes).Nodup →
          (∀ node ∈ some.flatMap MapBucket.nodes, node ∉ visited') →
          (∀ later, (∀ r, r ∈ later ↔ r ∈ some.flatMap MapBucket.nodes ∨ r ∈ visited') →
            Froe.collectMapEntries provider rounds later pending = .ok rest) →
          Froe.collectMapEntries provider ((some.flatMap MapBucket.nodes).length + rounds)
            visited' (some.map MapBucket.record ++ pending) =
            .ok (some.flatMap MapBucket.entries ++ rest) := by
        intro some
        induction some with
        | nil =>
          intro visited' _ _ _ hlater
          rw [List.flatMap_nil, List.length_nil, Nat.zero_add]
          exact hlater visited' fun r => by simp
        | cons bucket some ih' =>
          intro visited' hsub hdistinct hfresh hlater
          have hmem := hsub (mem_cons_self ..)
          rw [flatMap_cons] at hdistinct hfresh
          obtain ⟨hown, hother, hdisjoint⟩ := List.nodup_append.mp hdistinct
          rw [flatMap_cons, flatMap_cons, length_append, Nat.add_assoc,
            List.append_assoc, map_cons, List.cons_append]
          refine ih (hbuckets bucket hmem) ((length_le_flatMap_of_mem hmem).trans hsize) hown
            (fun node hnode => hfresh node (List.mem_append_left _ hnode)) ?_
          intro between hbetween
          refine ih' between (fun b hb => hsub (mem_cons_of_mem _ hb)) hother ?_ ?_
          · intro node hnode hin
            rcases (hbetween node).mp hin with hin | hin
            · exact hdisjoint node hin node hnode rfl
            · exact hfresh node (List.mem_append_right _ hnode) hin
          · intro later hlaterMem
            refine hlater later fun r => ?_
            rw [hlaterMem, hbetween, flatMap_cons, List.mem_append]
            exact or_left_comm.trans (or_assoc.symm)
      rw [length_cons, Nat.add_right_comm,
        ← List.nil_append (buckets.flatMap MapBucket.entries ++ rest)]
      refine collectMapEntries_cons (hvisited _ (mem_cons_self ..)) hview hbranch.head
        (hbranch.expandMapRecord hsize) (hall buckets (record :: visited) (List.Subset.refl _)
          hbelow ?_ fun later hlater => hrest later fun r => ?_)
      · intro node hnode hin
        rcases mem_cons.mp hin with rfl | hin
        · exact hrecord hnode
        · exact hvisited node (mem_cons_of_mem _ hnode) hin
      · rw [hlater, mem_cons, mem_cons]
        exact or_left_comm.trans (or_assoc.symm)

end

/-! ## Tries -/

theorem length_flatMap_le {α β : Type} {f : α → List β} {l : List α} {n : Nat}
    (h : ∀ a ∈ l, (f a).length ≤ n) : (l.flatMap f).length ≤ l.length * n := by
  induction l with
  | nil => exact Nat.zero_le _
  | cons a l ih =>
    have hfirst := h a (mem_cons_self ..)
    have hrest := ih fun b hb => h b (mem_cons_of_mem _ hb)
    rw [flatMap_cons, length_append, length_cons, Nat.succ_mul]
    omega

section

variable {view : SegmentView} {level depth : Nat}
  {record : RecordIdentifier} {entries : List CollectedEntry} {nodes : List RecordIdentifier}

theorem LeafShape.leaf (h : LeafShape view level record entries)
    (hnames : ∀ entry ∈ entries, readString provider entry.keyIdentifier = .ok entry.name) :
    LeafIn provider view level record entries :=
  ⟨h.head, h.hashes, h.keys, h.values, hnames, h.sorted, h.distinct, h.capacity⟩

/-- With the texts of its keys a shape is a trie. -/
theorem ShapeAt.trie (h : ShapeAt provider depth level record entries nodes)
    (hnames : ∀ entry ∈ entries, readString provider entry.keyIdentifier = .ok entry.name) :
    TrieAt provider depth level record entries nodes := by
  induction depth generalizing level record entries nodes with
  | zero =>
    obtain ⟨view, hview, hlevel, hleaf, hnodes⟩ := h
    exact ⟨view, hview, hlevel, hleaf.leaf hnames, hnodes⟩
  | succ depth ih =>
    obtain ⟨view, hview, hlevel, ⟨hleaf, hnodes⟩ | ⟨buckets, hbranch, hbuckets, rfl, hnodes⟩⟩ := h
    · exact ⟨view, hview, hlevel, .inl ⟨hleaf.leaf hnames, hnodes⟩⟩
    · refine ⟨view, hview, hlevel, .inr ⟨buckets, hbranch, fun bucket hmem => ?_, rfl, hnodes⟩⟩
      exact ih (hbuckets bucket hmem) fun entry hentry =>
        hnames entry (List.mem_flatMap_of_mem hmem hentry)

theorem LeafIn.shape (h : LeafIn provider view level record entries) :
    LeafShape view level record entries :=
  ⟨h.head, h.hashes, h.keys, h.values, h.sorted, h.distinct, h.capacity⟩

theorem TrieAt.shape (h : TrieAt provider depth level record entries nodes) :
    ShapeAt provider depth level record entries nodes := by
  induction depth generalizing level record entries nodes with
  | zero =>
    obtain ⟨view, hview, hlevel, hleaf, hnodes⟩ := h
    exact ⟨view, hview, hlevel, hleaf.shape, hnodes⟩
  | succ depth ih =>
    obtain ⟨view, hview, hlevel, ⟨hleaf, hnodes⟩ | ⟨buckets, hbranch, hbuckets, hrest⟩⟩ := h
    · exact ⟨view, hview, hlevel, .inl ⟨hleaf.shape, hnodes⟩⟩
    · exact ⟨view, hview, hlevel, .inr ⟨buckets, hbranch,
        fun bucket hmem => ih (hbuckets bucket hmem), hrest⟩⟩

end

namespace ShapeAt

variable {depth level : Nat} {record : RecordIdentifier} {entries : List CollectedEntry}
  {nodes : List RecordIdentifier}

section

variable (h : ShapeAt provider depth level record entries nodes)
include h

/-- The number of records of a trie. -/
theorem length_nodes :
    nodes.length ≤ 33 ^ depth := by
  induction depth generalizing level record entries nodes with
  | zero =>
    obtain ⟨view, -, -, -, rfl⟩ := h
    exact le_rfl
  | succ depth ih =>
    obtain ⟨view, -, -, ⟨-, rfl⟩ | ⟨buckets, hbranch, hbuckets, -, rfl⟩⟩ := h
    · exact Nat.one_le_pow _ _ (by decide)
    · have hcount : buckets.length ≤ 32 := by
        obtain ⟨bitmap, -, hbits⟩ := hbranch.bitmap
        have := List.length_filter_le (fun bit => bitmap.toNat.testBit bit) (List.range 32)
        rwa [hbits, length_map, List.length_range] at this
      have hsum := length_flatMap_le fun bucket hmem => ih (hbuckets bucket hmem)
      have hpos : 1 ≤ 33 ^ depth := Nat.one_le_pow _ _ (by decide)
      have hmul : buckets.length * 33 ^ depth ≤ 32 * 33 ^ depth := Nat.mul_le_mul_right _ hcount
      rw [length_cons, pow_succ]
      omega

theorem head :
    ∃ view level, provider record.segment = .ok view ∧ level ≤ 7 ∧
      view.readU32 record.recordNumber 0 = .ok (mapHead level entries.length) := by
  cases depth with
  | zero =>
    obtain ⟨view, hview, hlevel, hleaf, -⟩ := h
    exact ⟨view, level, hview, hlevel, hleaf.head⟩
  | succ depth =>
    obtain ⟨view, hview, hlevel, ⟨hleaf, -⟩ | ⟨buckets, hbranch, -, rfl, -⟩⟩ := h
    · exact ⟨view, level, hview, hlevel, hleaf.head⟩
    · exact ⟨view, level, hview, hlevel, hbranch.head⟩

/-- The size of a trie is stored. -/
theorem mapSizeWalk
    (hsize : entries.length ≤ maximumMapSize) (start : RecordIdentifier) (rounds : Nat) :
    mapSizeWalk provider start (rounds + 1) record = .ok entries.length := by
  obtain ⟨view, level, hview, hlevel, hhead⟩ := h.head
  obtain ⟨hdiff, hcount, -⟩ := mapHead_spec hlevel hsize
  rw [Froe.mapSizeWalk, hview, ok_bind_eq, hhead, ok_bind_eq, if_neg hdiff, hcount]
  rfl

/-- A chain of diffs ends at a trie. -/
theorem readDiffChain
    (hsize : entries.length ≤ maximumMapSize) (start : RecordIdentifier) (rounds : Nat)
    (overlays : List (RecordIdentifier × RecordIdentifier)) :
    readDiffChain provider start (rounds + 1) overlays record = .ok (overlays, record) := by
  obtain ⟨view, level, hview, hlevel, hhead⟩ := h.head
  obtain ⟨hdiff, -, -⟩ := mapHead_spec hlevel hsize
  rw [Froe.readDiffChain, hview, ok_bind_eq, hhead, ok_bind_eq, if_neg hdiff]
  rfl

end

end ShapeAt

namespace TrieAt

variable {depth level : Nat} {record : RecordIdentifier} {entries : List CollectedEntry}
  {nodes : List RecordIdentifier}

/-- A trie has no name twice: the buckets of a branch have different hashes. -/
theorem distinct (h : TrieAt provider depth level record entries nodes) :
    (entries.map CollectedEntry.name).Nodup := by
  induction depth generalizing level record entries nodes with
  | zero =>
    obtain ⟨view, -, -, hleaf, -⟩ := h
    exact hleaf.distinct
  | succ depth ih =>
    obtain ⟨view, -, -, ⟨hleaf, -⟩ | ⟨buckets, hbranch, hbuckets, rfl, -⟩⟩ := h
    · exact hleaf.distinct
    · rw [List.map_flatMap, List.nodup_flatMap]
      refine ⟨fun bucket hmem => ih (hbuckets bucket hmem), ?_⟩
      have hincreasing := List.pairwise_map.mp hbranch.increasing
      refine hincreasing.imp_of_mem fun {a b} ha hb hlt => ?_
      intro name hin hin'
      obtain ⟨entry, hentry, rfl⟩ := List.mem_map.mp hin
      obtain ⟨other, hother, heq⟩ := List.mem_map.mp hin'
      have hfirst := hbranch.placed a ha entry hentry
      have hsecond := hbranch.placed b hb other hother
      rw [heq, hfirst] at hsecond
      omega

theorem collect (h : TrieAt provider depth level record entries nodes) (hdepth : depth ≤ 7)
    (hsize : entries.length ≤ maximumMapSize) (hnodup : nodes.Nodup) :
    Froe.collectMapEntries provider recordIdentifierCount [] [record] = .ok entries := by
  have hnodes : nodes.length ≤ recordIdentifierCount := by
    refine (h.shape.length_nodes.trans (Nat.pow_le_pow_right (by decide) hdepth)).trans ?_
    decide
  obtain ⟨rounds, hrounds⟩ : ∃ rounds, recordIdentifierCount = nodes.length + rounds :=
    ⟨_, (Nat.add_sub_cancel' hnodes).symm⟩
  have hdone : ∀ visited, Froe.collectMapEntries provider rounds visited [] = .ok [] := by
    intro visited
    cases rounds <;> rfl
  rw [hrounds, h.collectMapEntries hsize hnodup (fun _ _ => List.not_mem_nil)
    (fun visited _ => hdone visited), List.append_nil]

end TrieAt

/-- The names are those of the keys. -/
theorem TrieAt.names {depth level : Nat} {record : RecordIdentifier}
    {entries : List CollectedEntry} {nodes : List RecordIdentifier}
    (h : TrieAt provider depth level record entries nodes) :
    ∀ entry ∈ entries, readString provider entry.keyIdentifier = .ok entry.name := by
  induction depth generalizing level record entries nodes with
  | zero =>
    obtain ⟨view, -, -, hleaf, -⟩ := h
    exact hleaf.names
  | succ depth ih =>
    obtain ⟨view, -, -, ⟨hleaf, -⟩ | ⟨buckets, hbranch, hbuckets, rfl, -⟩⟩ := h
    · exact hleaf.names
    · intro entry hmem
      obtain ⟨bucket, hbucket, hentry⟩ := List.mem_flatMap.mp hmem
      exact ih (hbuckets bucket hbucket) entry hentry

/-- Looking up is finding an entry. -/
theorem valueOf_eq_some_iff {entries : List CollectedEntry} {name : String}
    {value : RecordIdentifier} (h : (entries.map CollectedEntry.name).Nodup) :
    valueOf entries name = some value ↔
      ∃ entry ∈ entries, entry.name = name ∧ entry.value = value := by
  induction entries with
  | nil => simp [valueOf]
  | cons first rest ih =>
    rw [map_cons, List.nodup_cons] at h
    rw [valueOf, List.find?_cons]
    by_cases heq : first.name = name
    · rw [beq_iff_eq.mpr heq]
      constructor
      · intro hvalue
        exact ⟨first, mem_cons_self .., heq, Option.some.inj hvalue⟩
      · rintro ⟨entry, hmem, hname, rfl⟩
        rcases mem_cons.mp hmem with rfl | hmem
        · rfl
        · have hagain := mem_map_of_mem (f := CollectedEntry.name) hmem
          rw [hname, ← heq] at hagain
          exact absurd hagain h.1
    · rw [beq_false_of_ne heq]
      refine (ih h.2).trans ?_
      constructor
      · rintro ⟨entry, hmem, hentry⟩
        exact ⟨entry, mem_cons_of_mem _ hmem, hentry⟩
      · rintro ⟨entry, hmem, hname, hvalue⟩
        rcases mem_cons.mp hmem with rfl | hmem
        · exact absurd hname heq
        · exact ⟨entry, hmem, hname, hvalue⟩

end Froe
