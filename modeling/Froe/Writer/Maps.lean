import Froe.Content.MapDiff
import Froe.Writer.Limits

/-!
# Writing maps

The entries of a map go into a trie by five bits of their hash a level: up to 32
entries, or any number on the last level, make a leaf, more of them a branch over
the buckets of the level.  What is written is a trie of the entries whose
records are all new (`writeMapBucket_spec`).
-/

namespace Froe

open List (flatMap_cons getElem_map getElem_of_mem length_cons length_map map_cons map_map
  mem_cons mem_cons_of_mem mem_cons_self mem_filter mem_flatMap mem_map)
open Except (bind_ok_iff pure_ok_iff)

/-- The most entries of a leaf above the last level. -/
def mapLeafCapacity : Nat := 32

/-- An entry with its hash and the record of its key. -/
structure PreparedEntry where
  hash : UInt32
  name : String
  keyIdentifier : RecordIdentifier
  value : RecordIdentifier
deriving DecidableEq

def PreparedEntry.collected (entry : PreparedEntry) : CollectedEntry :=
  ⟨entry.name, entry.keyIdentifier, entry.value⟩

/-- The order of the entries of a leaf: by hash, then by name. -/
def compareEntries (first second : PreparedEntry) : Ordering :=
  (compare first.hash second.hash).then (compareUtf16Strings first.name second.name)

/-- The head word of a map record. -/
def packMapHead (level size : Nat) : UInt32 := (UInt32.ofNat level <<< 29) ||| UInt32.ofNat size

/-- The content of a leaf: the head, the hashes, and the keys and values. -/
def mapLeafFields (level : Nat) (entries : List PreparedEntry) : List Field :=
  .raw (Bytes.be32 (packMapHead level entries.length)) ::
    (entries.map (fun entry => .raw (Bytes.be32 entry.hash)) ++
      entries.flatMap fun entry => [.identifier entry.keyIdentifier, .identifier entry.value])

/-- The buckets of a level that are not empty, with their bits. -/
def mapBuckets (level : Nat) (entries : List PreparedEntry) : List (Nat × List PreparedEntry) :=
  (List.range 32).filterMap fun index =>
    let bucket := entries.filter fun entry => bucketIndex level entry.hash = index
    if bucket = [] then none else some (index, bucket)

/-- The bitmap of some buckets. -/
def mapBitmap (indices : List Nat) : UInt32 :=
  indices.foldl (fun bitmap index => bitmap ||| (1 <<< UInt32.ofNat index)) 0

namespace RecordWriter

variable (env : Environment)

def writeMapLeaf (level : Nat) (entries : List PreparedEntry) : Writing RecordIdentifier :=
  let entries := sortBy compareEntries entries
  writeRecord env .mapLeaf (4 + entries.length * 4 + entries.length * 12)
    (entries.flatMap fun entry => [entry.keyIdentifier, entry.value])
    fun _ => mapLeafFields level entries

/-- Writes a trie from a level on: a leaf, or a branch over the buckets.  The first argument counts
the levels below. -/
def writeMapBucket : Nat → Nat → List PreparedEntry → Writing RecordIdentifier
  | 0, level, entries => writeMapLeaf env level entries
  | levels + 1, level, entries => do
    if entries.length ≤ mapLeafCapacity then writeMapLeaf env level entries
    else
      let buckets := mapBuckets level entries
      let bucketIdentifiers ← buckets.mapM fun bucket =>
        writeMapBucket levels (level + 1) bucket.2
      writeRecord env .mapBranch (4 + 4 + bucketIdentifiers.length * 6) bucketIdentifiers fun _ =>
        .raw (Bytes.be32 (packMapHead level entries.length)) ::
          .raw (Bytes.be32 (mapBitmap (buckets.map Prod.fst))) ::
          bucketIdentifiers.map .identifier

/-- Writes the keys of some entries.  A name may be there only once.  `quote` is `{:?}` up to
characters that do not print. -/
def prepareEntries : List String → List (String × RecordIdentifier) → Writing (List PreparedEntry)
  | _, [] => return []
  | names, (name, value) :: entries => do
    if name ∈ names then throw (.invalidFormat s!"duplicate child name {name.quote} in a map")
    else
      let keyIdentifier ← writeString env name
      let rest ← prepareEntries (name :: names) entries
      return ⟨mapEntryHash name, name, keyIdentifier, value⟩ :: rest

def writeMap (entries : List (String × RecordIdentifier)) : Writing RecordIdentifier := do
  if entries.length ≥ 2 ^ 29 - 1 then
    throw (.invalidFormat s!"a child map of {entries.length} entries exceeds MAX_SIZE")
  else
    let prepared ← prepareEntries env [] entries
    writeMapBucket env maximumLevel 0 prepared

end RecordWriter

open RecordWriter

/-! ## Head words and bitmaps -/

theorem packMapHead_eq {level size : Nat} (hlevel : level ≤ 7) (hsize : size ≤ maximumMapSize) :
    packMapHead level size = mapHead level size := by
  unfold maximumMapSize at hsize
  have hlevelNat : (UInt32.ofNat level).toNat = level := by
    rw [UInt32.toNat_ofNat']
    omega
  have hsizeNat : (UInt32.ofNat size).toNat = size := by
    rw [UInt32.toNat_ofNat']
    omega
  rw [← UInt32.toNat_inj, packMapHead, mapHead, UInt32.toNat_or, UInt32.toNat_shiftLeft, hlevelNat,
    hsizeNat, show (29 : UInt32).toNat % 32 = 29 from rfl, Nat.shiftLeft_eq,
    Nat.mod_eq_of_lt (show level * 2 ^ 29 < 2 ^ 32 by omega), UInt32.toNat_ofNat',
    Nat.mod_eq_of_lt (show level * 2 ^ 29 + size < 2 ^ 32 by omega), Nat.mul_comm level,
    Nat.two_pow_add_eq_or_of_lt (by omega)]

theorem testBit_mapBitmap_foldl {indices : List Nat} (h : ∀ index ∈ indices, index < 32)
    (bitmap : UInt32) (bit : Nat) :
    (indices.foldl (fun bitmap index => bitmap ||| (1 <<< UInt32.ofNat index))
      bitmap).toNat.testBit bit = (bitmap.toNat.testBit bit || decide (bit ∈ indices)) := by
  induction indices generalizing bitmap with
  | nil => simp
  | cons index indices ih =>
    rw [List.foldl_cons, ih (fun i hi => h i (mem_cons_of_mem _ hi)), UInt32.toNat_or,
      toNat_bit (h index (mem_cons_self ..)), Nat.testBit_or, Nat.testBit_two_pow,
      Bool.or_assoc]
    congr 1
    simp [eq_comm]

/-- The bits of a bitmap. -/
theorem filter_mapBitmap {level : Nat} {entries : List PreparedEntry} :
    (List.range 32).filter (fun bit =>
      (mapBitmap ((mapBuckets level entries).map Prod.fst)).toNat.testBit bit) =
      (mapBuckets level entries).map Prod.fst := by
  have hmap : (mapBuckets level entries).map Prod.fst = (List.range 32).filter fun index =>
      entries.filter (fun entry => bucketIndex level entry.hash = index) ≠ [] := by
    rw [mapBuckets, List.map_filterMap, ← List.filterMap_eq_filter]
    refine List.filterMap_congr fun index _ => ?_
    dsimp only [Function.comp, Option.guard]
    by_cases hempty : entries.filter (fun entry => bucketIndex level entry.hash = index) = []
    · rw [if_pos hempty, if_neg (by simpa using hempty)]
      rfl
    · rw [if_neg hempty, if_pos (decide_eq_true hempty)]
      rfl
  have hlt : ∀ index ∈ (mapBuckets level entries).map Prod.fst, index < 32 := by
    rw [hmap]
    intro index hmem
    exact List.mem_range.mp (mem_filter.mp hmem).1
  conv_rhs => rw [hmap]
  refine List.filter_congr fun index hmem => ?_
  rw [mapBitmap, testBit_mapBitmap_foldl hlt, hmap]
  have hzero : (0 : UInt32).toNat.testBit index = false := by
    rw [show (0 : UInt32).toNat = 0 from rfl, Nat.zero_testBit]
  rw [hzero, Bool.false_or, Bool.eq_iff_iff, decide_eq_true_eq, mem_filter]
  exact and_iff_right hmem

/-! ## Reading the records -/

/-- A run of words is read by index. -/
theorem SegmentView.Holds.readWords {view : SegmentView} {number : UInt32} {offset : Nat}
    {words : List UInt32} {rest : List Field}
    (h : view.Holds number offset (words.map (fun word => .raw (Bytes.be32 word)) ++ rest)) (i : Nat)
    (hi : i < words.length) : view.readU32 number (offset + i * 4) = .ok words[i] := by
  induction words generalizing offset i with
  | nil => exact absurd hi (Nat.not_lt_zero i)
  | cons word words ih =>
    cases i with
    | zero =>
      rw [Nat.zero_mul, Nat.add_zero]
      exact SegmentView.Holds.readU32 h
    | succ i =>
      have hrest := h.2
      rw [Bytes.length_be32] at hrest
      have := ih hrest i (by simpa using hi)
      rw [List.getElem_cons_succ, ← this, Nat.succ_mul, Nat.add_comm (i * 4) 4, Nat.add_assoc]

variable {α β : Type} {own : RecordIdentifier} {levels : Nat}

theorem getElem?_flatMap_pairs (f g : α → β) (l : List α) (i : Nat) :
    (l.flatMap fun a => [f a, g a])[i * 2]? = l[i]?.map f ∧
      (l.flatMap fun a => [f a, g a])[i * 2 + 1]? = l[i]?.map g := by
  induction l generalizing i with
  | nil => simp
  | cons a l ih =>
    cases i with
    | zero => simp
    | succ i =>
      rw [flatMap_cons, Nat.succ_mul]
      exact ih i

theorem length_flatMap_pairs (f g : α → β) (l : List α) :
    (l.flatMap fun a => [f a, g a]).length = l.length * 2 := by
  induction l with
  | nil => rfl
  | cons a l ih =>
    rw [flatMap_cons, List.length_append, ih, length_cons]
    simp only [length_cons, List.length_nil]
    omega

theorem fieldsLength_words (words : List UInt32) :
    fieldsLength (words.map fun word => .raw (Bytes.be32 word)) = words.length * 4 := by
  induction words with
  | nil => rfl
  | cons word words ih =>
    rw [map_cons, fieldsLength_cons, ih, Field.length, Bytes.length_be32, length_cons]
    omega

theorem mapLeafFields_eq (level : Nat) (entries : List PreparedEntry) :
    mapLeafFields level entries = .raw (Bytes.be32 (packMapHead level entries.length)) ::
      ((entries.map PreparedEntry.hash).map (fun word => .raw (Bytes.be32 word)) ++
        ((entries.flatMap fun entry => [entry.keyIdentifier, entry.value]).map .identifier ++
          [])) := by
  rw [mapLeafFields, map_map, List.append_nil, List.map_flatMap]
  rfl

theorem fieldsLength_mapLeafFields (level : Nat) (entries : List PreparedEntry) :
    fieldsLength (mapLeafFields level entries) =
      4 + entries.length * 4 + entries.length * 12 := by
  rw [mapLeafFields_eq, fieldsLength_cons, fieldsLength_append, fieldsLength_append,
    fieldsLength_words, SegmentView.fieldsLength_identifiers, length_flatMap_pairs, length_map,
    Field.length, Bytes.length_be32]
  simp only [fieldsLength, List.map_nil, List.sum_nil]
  omega

section

variable {view : SegmentView} {level : Nat} {leaf : RecordIdentifier}
  {entries : List PreparedEntry}

theorem LeafShape.of_holds (hlevel : level ≤ 7) (hsize : entries.length ≤ maximumMapSize)
    (h : view.Holds leaf.recordNumber 0 (mapLeafFields level entries))
    (hhash : ∀ entry ∈ entries, entry.hash = mapEntryHash entry.name)
    (hsorted : entries.Pairwise fun a b => a.hash ≤ b.hash)
    (hdistinct : (entries.map PreparedEntry.name).Nodup)
    (hcapacity : entries.length ≤ bucketsPerLevel ∨ level = maximumLevel) :
    LeafShape view level leaf (entries.map PreparedEntry.collected) := by
  rw [mapLeafFields_eq] at h
  have hhead := SegmentView.Holds.readU32 h
  have hwords := SegmentView.Holds.readWords h.2
  have hidentifiers := (SegmentView.holds_append.mp h.2).2
  rw [Bytes.length_be32, fieldsLength_words, length_map, Nat.zero_add] at hidentifiers
  have hread := SegmentView.Holds.readIdentifiers hidentifiers
  rw [Bytes.length_be32, Nat.zero_add] at hwords
  have hpair : ∀ i (hi : i < entries.length),
      view.readRecordIdentifier leaf.recordNumber (4 + entries.length * 4) (i * 2) =
        .ok entries[i].keyIdentifier ∧
      view.readRecordIdentifier leaf.recordNumber (4 + entries.length * 4) (i * 2 + 1) =
        .ok entries[i].value := by
    intro i hi
    obtain ⟨hkey, hvalue⟩ := getElem?_flatMap_pairs PreparedEntry.keyIdentifier
      PreparedEntry.value entries i
    have hlength := length_flatMap_pairs PreparedEntry.keyIdentifier PreparedEntry.value entries
    rw [List.getElem?_eq_getElem hi, Option.map_some, List.getElem?_eq_some_iff] at hkey hvalue
    obtain ⟨hinside, hkey⟩ := hkey
    obtain ⟨hinside', hvalue⟩ := hvalue
    exact ⟨by rw [hread _ hinside, hkey], by rw [hread _ hinside', hvalue]⟩
  refine ⟨?_, ?_, ?_, ?_, ?_, ?_, ?_⟩
  · rw [hhead, packMapHead_eq hlevel hsize, length_map]
  · intro i hi
    have hi' : i < entries.length := by simpa using hi
    rw [hwords i (by simpa using hi'), getElem_map, getElem_map,
      hhash _ (List.getElem_mem hi')]
    rfl
  · intro i hi
    have hi' : i < entries.length := by simpa using hi
    rw [length_map, (hpair i hi').1, getElem_map]
    rfl
  · intro i hi
    have hi' : i < entries.length := by simpa using hi
    rw [length_map, (hpair i hi').2, getElem_map]
    rfl
  · rw [List.pairwise_map]
    refine hsorted.imp_of_mem fun {a b} ha hb hle => ?_
    rw [hhash a ha, hhash b hb] at hle
    exact hle
  · rw [map_map]
    exact hdistinct
  · rw [length_map]
    exact hcapacity

end

/-! ## Buckets -/

theorem perm_flatMap_filter (f : α → Nat) {l : List α} {n : Nat} (h : ∀ a ∈ l, f a < n) :
    ((List.range n).flatMap fun i => l.filter fun a => f a = i).Perm l := by
  induction n generalizing l with
  | zero =>
    cases l with
    | nil => exact List.Perm.refl _
    | cons a l => exact absurd (h a (mem_cons_self ..)) (Nat.not_lt_zero _)
  | succ n ih =>
    have hbelow := @ih (l.filter fun a => f a < n) (fun a ha => by
      simpa using (mem_filter.mp ha).2)
    have hsame : (List.range n).flatMap (fun i => (l.filter fun a => f a < n).filter
        fun a => f a = i) = (List.range n).flatMap fun i => l.filter fun a => f a = i := by
      refine List.flatMap_congr fun i hi => ?_
      rw [List.filter_filter]
      refine List.filter_congr fun a _ => ?_
      have hlt := List.mem_range.mp hi
      rw [Bool.eq_iff_iff]
      simp only [Bool.and_eq_true, decide_eq_true_eq]
      constructor
      · exact fun ⟨heq, _⟩ => heq
      · exact fun heq => ⟨heq, by omega⟩
    rw [hsame] at hbelow
    rw [List.range_succ, List.flatMap_append, List.flatMap_singleton]
    refine (hbelow.append_right _).trans ?_
    have hlast : (l.filter fun a => f a = n) = l.filter fun a => !decide (f a < n) := by
      refine List.filter_congr fun a ha => ?_
      have := h a ha
      rw [Bool.eq_iff_iff, Bool.not_eq_true', decide_eq_true_eq, decide_eq_false_iff_not]
      omega
    rw [hlast]
    exact List.filter_append_perm (fun a => decide (f a < n)) l

theorem flatMap_filterMap_nonempty [DecidableEq β] (g : α → List β) (l : List α) :
    (l.filterMap fun a => if g a = [] then none else some (a, g a)).flatMap Prod.snd =
      l.flatMap g := by
  induction l with
  | nil => rfl
  | cons a l ih =>
    by_cases hempty : g a = []
    · rw [List.filterMap_cons_none (by rw [if_pos hempty]), ih, flatMap_cons, hempty,
        List.nil_append]
    · rw [List.filterMap_cons_some (by rw [if_neg hempty]), flatMap_cons, ih,
        flatMap_cons]

theorem perm_mapBuckets (level : Nat) (entries : List PreparedEntry) :
    ((mapBuckets level entries).flatMap Prod.snd).Perm entries := by
  rw [mapBuckets, flatMap_filterMap_nonempty]
  exact perm_flatMap_filter _ fun entry _ => bucketIndex_lt level entry.hash

theorem mem_mapBuckets {level : Nat} {entries : List PreparedEntry}
    {bucket : Nat × List PreparedEntry} (h : bucket ∈ mapBuckets level entries) :
    bucket.2 = entries.filter (fun entry => bucketIndex level entry.hash = bucket.1) := by
  obtain ⟨index, -, hbucket⟩ := List.mem_filterMap.mp h
  dsimp only at hbucket
  split at hbucket
  · cases hbucket
  · cases hbucket
    rfl

/-! ## Prepared entries -/

variable {c : Session} {w w' : RecordWriter}

/-- Entries whose keys have been written. -/
structure Prepared (c : Session) (w : RecordWriter) (entries : List PreparedEntry) : Prop where
  hash : ∀ entry ∈ entries, entry.hash = mapEntryHash entry.name
  distinct : (entries.map PreparedEntry.name).Nodup
  keys : ∀ entry ∈ entries, entry.name.utf8.length ≤ maximumValueLength →
    Assured c w (ValueAt · entry.keyIdentifier entry.name.utf8)
  allowed : ∀ entry ∈ entries,
    Allowed c w entry.keyIdentifier.segment ∧ Allowed c w entry.value.segment

section

variable {entries : List PreparedEntry} (h : Prepared c w entries)
include h

theorem Prepared.mono (hw : Valid c w) (hsteps : Steps c w w') : Prepared c w' entries :=
  ⟨h.hash, h.distinct, fun entry hmem hlength => hsteps.assured hw (h.keys entry hmem hlength),
    fun entry hmem => ⟨hsteps.allowed (h.allowed entry hmem).1,
      hsteps.allowed (h.allowed entry hmem).2⟩⟩

theorem Prepared.sublist {some : List PreparedEntry}
    (hsub : some.Sublist entries) : Prepared c w some :=
  ⟨fun entry hmem => h.hash entry (hsub.subset hmem), (hsub.map _).nodup h.distinct,
    fun entry hmem => h.keys entry (hsub.subset hmem),
    fun entry hmem => h.allowed entry (hsub.subset hmem)⟩

theorem Prepared.perm {some : List PreparedEntry} (hperm : some.Perm entries) : Prepared c w some :=
  ⟨fun entry hmem => h.hash entry (hperm.subset hmem), (hperm.map _).nodup_iff.mpr h.distinct,
    fun entry hmem => h.keys entry (hperm.subset hmem),
    fun entry hmem => h.allowed entry (hperm.subset hmem)⟩

end

theorem prepareEntries_spec {names : List String} {entries : List (String × RecordIdentifier)}
    {prepared : List PreparedEntry} (hw : Valid c w)
    (h : (prepareEntries c.environment names entries).run w = .ok (prepared, w'))
    (hallowed : ∀ entry ∈ entries, Allowed c w entry.2.segment) :
    Steps c w w' ∧ Prepared c w' prepared ∧
      prepared.map (fun entry => (entry.name, entry.value)) = entries ∧
      ∀ name ∈ names, name ∉ entries.map Prod.fst := by
  induction entries generalizing w names prepared with
  | nil =>
    obtain ⟨rfl, rfl⟩ := StateT.pure_ok_iff.mp h
    exact ⟨Steps.refl _, ⟨nofun, List.nodup_nil, nofun, nofun⟩, rfl, fun _ _ => List.not_mem_nil⟩
  | cons entry entries ih =>
    obtain ⟨name, value⟩ := entry
    rw [prepareEntries] at h
    split at h
    · exact absurd h StateT.throw_ok
    · rename_i hnew
      obtain ⟨key, w₁, hkey, h⟩ := StateT.bind_ok_iff.mp h
      obtain ⟨rest, w₂, hrest, h⟩ := StateT.bind_ok_iff.mp h
      obtain ⟨rfl, rfl⟩ := StateT.pure_ok_iff.mp h
      obtain ⟨hsteps, hkeyAllowed, hkeyValue⟩ := writeDeduplicatedValue_spec hw hkey
      have hw₁ := hsteps.valid hw
      obtain ⟨hsteps', hprepared, hmap, hnames⟩ := ih hw₁ hrest
        (fun entry hmem => hsteps.allowed (hallowed entry (mem_cons_of_mem _ hmem)))
      have hfirst : name ∉ rest.map PreparedEntry.name := by
        have := hnames name (mem_cons_self ..)
        rw [← hmap, map_map] at this
        exact this
      refine ⟨hsteps.trans hsteps', ⟨?_, ?_, ?_, ?_⟩, by rw [map_cons, hmap], ?_⟩
      · intro entry hmem
        rcases mem_cons.mp hmem with rfl | hmem
        · rfl
        · exact hprepared.hash entry hmem
      · exact List.nodup_cons.mpr ⟨hfirst, hprepared.distinct⟩
      · intro entry hmem hlength
        rcases mem_cons.mp hmem with rfl | hmem
        · exact hsteps'.assured hw₁ (hkeyValue hlength)
        · exact hprepared.keys entry hmem hlength
      · intro entry hmem
        rcases mem_cons.mp hmem with rfl | hmem
        · exact ⟨hsteps'.allowed hkeyAllowed, (hsteps.trans hsteps').allowed
            (hallowed _ (mem_cons_self ..))⟩
        · exact hprepared.allowed entry hmem
      · intro other hother hmem
        rcases mem_cons.mp hmem with rfl | hmem
        · exact hnew hother
        · exact hnames other (mem_cons_of_mem _ hother) hmem

/-! ## Tries -/

theorem instTransCompareEntries : Std.TransCmp compareEntries := by
  have h : Std.TransCmp (compareLex (compareOn PreparedEntry.hash)
      fun a b => compareUtf16Strings a.name b.name) := by
    have : Std.TransCmp fun a b : PreparedEntry => compareUtf16Strings a.name b.name :=
      { eq_swap := Std.OrientedCmp.eq_swap
        isLE_trans := Std.TransCmp.isLE_trans }
    infer_instance
  exact h

theorem pairwise_sortBy_hash (entries : List PreparedEntry) :
    (sortBy compareEntries entries).Pairwise fun a b => a.hash ≤ b.hash := by
  have := instTransCompareEntries
  refine (pairwise_sortBy compareEntries entries).imp fun {a b} hle => ?_
  by_contra hlt
  refine hle ?_
  have hgt : compare a.hash b.hash = .gt := by
    rw [Std.compare_eq_gt]
    exact UInt32.not_le.mp hlt
  rw [compareEntries, hgt]
  rfl

theorem writeMapLeaf_spec {level : Nat} {entries : List PreparedEntry}
    (hw : Valid c w) (h : (writeMapLeaf c.environment level entries).run w = .ok (own, w'))
    (hprepared : Prepared c w entries) (hlevel : level ≤ 7)
    (hsize : entries.length ≤ maximumMapSize)
    (hcapacity : entries.length ≤ bucketsPerLevel ∨ level = maximumLevel) :
    Steps c w w' ∧ Allowed c w' own.segment ∧ New w w' own ∧
      Assured c w' fun provider => ∀ depth, ShapeAt provider depth level own
        ((sortBy compareEntries entries).map PreparedEntry.collected) [own] := by
  obtain ⟨sorted, hsorted⟩ : ∃ sorted, sorted = sortBy compareEntries entries := ⟨_, rfl⟩
  have hperm : sorted.Perm entries := hsorted ▸ perm_sortBy compareEntries entries
  have hall := hprepared.perm hperm
  unfold writeMapLeaf at h
  dsimp only at h
  rw [← hsorted] at h ⊢
  obtain ⟨hsteps, hrecorded, hsegment, hnew⟩ := writeRecord_spec hw h nofun
    (fun _ => (fieldsLength_mapLeafFields level sorted).symm) (by omega)
    (fun _ record hmem => .inr (by simpa [mapLeafFields] using hmem)) (by
      intro record hmem
      obtain ⟨entry, hentry, hrecord⟩ := mem_flatMap.mp hmem
      rcases mem_cons.mp hrecord with rfl | hrecord
      · exact (hall.allowed entry hentry).1
      · rw [List.mem_singleton.mp hrecord]
        exact (hall.allowed entry hentry).2)
  refine ⟨hsteps, .inr (.inl hsegment), hnew, fun provider hserves depth => ?_⟩
  obtain ⟨view, hview, hholds⟩ := hrecorded.assured provider hserves
  have hleaf : LeafShape view level own (sorted.map PreparedEntry.collected) :=
    LeafShape.of_holds hlevel (hperm.length_eq.trans_le hsize) hholds hall.hash
      (hsorted ▸ pairwise_sortBy_hash entries) hall.distinct (by rwa [hperm.length_eq])
  cases depth with
  | zero => exact ⟨view, hview, hlevel, hleaf, rfl⟩
  | succ depth => exact ⟨view, hview, hlevel, .inl ⟨hleaf, rfl⟩⟩

/-- What was written of a bucket between two states. -/
structure Planted (c : Session) (w w' : RecordWriter) (levels level : Nat)
    (entries : List PreparedEntry) (bucket : MapBucket) : Prop where
  perm : bucket.entries.Perm (entries.map PreparedEntry.collected)
  allowed : Allowed c w' bucket.record.segment
  new : ∀ node ∈ bucket.nodes, New w w' node
  nodup : w'.identifiers.Nodup → bucket.nodes.Nodup
  shape : Assured c w' (ShapeAt · levels level bucket.record bucket.entries bucket.nodes)

theorem Planted.mono {w₁ w₂ w₃ w₄ : RecordWriter} {level : Nat}
    {entries : List PreparedEntry} {bucket : MapBucket}
    (h : Planted c w₂ w₃ levels level entries bucket) (hw₃ : Valid c w₃)
    (hbefore : Steps c w₁ w₂) (hafter : Steps c w₃ w₄) :
    Planted c w₁ w₄ levels level entries bucket :=
  ⟨h.perm, hafter.allowed h.allowed, fun node hmem => (h.new node hmem).mono hbefore hafter,
    fun hunique => h.nodup (hafter.identifiers.nodup hunique), hafter.assured hw₃ h.shape⟩

/-- The records of the buckets of a branch are distinct: what one bucket adds was not there before
it, and is there after it. -/
theorem mapM_planted {level : Nat} {f : Nat × List PreparedEntry → Writing RecordIdentifier}
    {buckets : List (Nat × List PreparedEntry)} {records : List RecordIdentifier} (hw : Valid c w)
    (hstep : ∀ bucket ∈ buckets, ∀ t record t', Valid c t → Steps c w t →
      (f bucket).run t = .ok (record, t') → Steps c t t' ∧ ∃ entries nodes,
        Planted c t t' levels level bucket.2 ⟨bucket.1, record, entries, nodes⟩)
    (h : (buckets.mapM f).run w = .ok (records, w')) :
    Steps c w w' ∧ ∃ planted : List MapBucket, planted.map MapBucket.record = records ∧
      List.Forall₂ (fun bucket plant => plant.index = bucket.1 ∧
        Planted c w w' levels level bucket.2 plant) buckets planted ∧
      (w'.identifiers.Nodup → (planted.flatMap MapBucket.nodes).Nodup) := by
  induction buckets generalizing w records with
  | nil =>
    rw [List.mapM_nil] at h
    obtain ⟨rfl, rfl⟩ := StateT.pure_ok_iff.mp h
    exact ⟨Steps.refl _, [], rfl, .nil, fun _ => List.nodup_nil⟩
  | cons bucket buckets ih =>
    rw [List.mapM_cons] at h
    obtain ⟨record, w₁, hfirst, h⟩ := StateT.bind_ok_iff.mp h
    obtain ⟨rest, w₂, hrest, h⟩ := StateT.bind_ok_iff.mp h
    obtain ⟨rfl, rfl⟩ := StateT.pure_ok_iff.mp h
    obtain ⟨hsteps, entries, nodes, hplant⟩ := hstep bucket (mem_cons_self ..) w record w₁ hw
      (Steps.refl _) hfirst
    have hw₁ := hsteps.valid hw
    obtain ⟨hsteps', planted, hrecords, hplanted, hnodup⟩ := ih hw₁
      (fun other hmem t record t' ht hbefore => hstep other (mem_cons_of_mem _ hmem) t record
        t' ht (hsteps.trans hbefore)) hrest
    have hw₂ := hsteps'.valid hw₁
    have hlater : ∀ plant ∈ planted, ∀ node ∈ plant.nodes, New w₁ w₂ node := by
      intro plant hmem node hnode
      obtain ⟨i, hi, rfl⟩ := getElem_of_mem hmem
      have hall := List.forall₂_iff_get.mp hplanted
      exact (hall.2 i (by omega) hi).2.new node hnode
    refine ⟨hsteps.trans hsteps', ⟨bucket.1, record, entries, nodes⟩ :: planted, ?_, ?_, ?_⟩
    · rw [map_cons, hrecords]
    · refine .cons ⟨rfl, hplant.mono hw₁ (Steps.refl _) hsteps'⟩ (hplanted.imp ?_)
      exact fun other plant hother => ⟨hother.1, hother.2.mono hw₂ hsteps (Steps.refl _)⟩
    · intro hunique
      rw [flatMap_cons, List.nodup_append']
      refine ⟨hplant.nodup (hsteps'.identifiers.nodup hunique), hnodup hunique, ?_⟩
      intro node hnode hother
      obtain ⟨plant, hmem, hother⟩ := mem_flatMap.mp hother
      exact (hlater plant hmem node hother).2 hunique (hplant.new node hnode).1

section

variable {view : SegmentView} {level : Nat} {branch : RecordIdentifier}
  {entries : List PreparedEntry} {planted : List MapBucket}

theorem forall₂_map_eq {α β γ : Type} {f : α → γ} {g : β → γ} {l : List α} {l' : List β}
    (h : List.Forall₂ (fun a b => g b = f a) l l') : l'.map g = l.map f := by
  induction h with
  | nil => rfl
  | cons hfirst _ ih => rw [map_cons, map_cons, hfirst, ih]

theorem perm_of_planted
    (h : List.Forall₂ (fun (bucket : Nat × List PreparedEntry) (plant : MapBucket) =>
      plant.entries.Perm (bucket.2.map PreparedEntry.collected)) (mapBuckets level entries)
      planted) :
    (planted.flatMap MapBucket.entries).Perm (entries.map PreparedEntry.collected) := by
  refine List.Perm.trans ?_ ((perm_mapBuckets level entries).map PreparedEntry.collected)
  generalize mapBuckets level entries = buckets at h
  induction h with
  | nil => exact List.Perm.refl _
  | cons hfirst _ ih =>
    rw [flatMap_cons, flatMap_cons, List.map_append]
    exact hfirst.append ih

theorem BranchIn.of_holds (hlevel : level < maximumLevel)
    (hsize : entries.length ≤ maximumMapSize) (hbranch : bucketsPerLevel < entries.length)
    (h : view.Holds branch.recordNumber 0
      (.raw (Bytes.be32 (packMapHead level entries.length)) ::
        .raw (Bytes.be32 (mapBitmap ((mapBuckets level entries).map Prod.fst))) ::
        (planted.map MapBucket.record).map .identifier))
    (hhash : ∀ entry ∈ entries, entry.hash = mapEntryHash entry.name)
    (hplanted : List.Forall₂ (fun (bucket : Nat × List PreparedEntry) (plant : MapBucket) =>
      plant.index = bucket.1 ∧ plant.entries.Perm (bucket.2.map PreparedEntry.collected))
      (mapBuckets level entries) planted) :
    BranchIn view level branch planted := by
  have hperm := perm_of_planted (hplanted.imp fun _ _ h => h.2)
  have hlength : (planted.flatMap MapBucket.entries).length = entries.length := by
    rw [hperm.length_eq, length_map]
  have hlevel' : level ≤ 7 := by
    unfold maximumLevel at hlevel
    omega
  have hhead := SegmentView.Holds.readU32 h
  have hbitmap := SegmentView.Holds.readU32 h.2
  have hrecords := h.2.2
  rw [Bytes.length_be32, Nat.zero_add] at hbitmap hrecords
  rw [Bytes.length_be32] at hrecords
  refine ⟨?_, hlevel, ?_, ⟨_, hbitmap, ?_⟩, ?_, ?_⟩
  · rw [hhead, packMapHead_eq hlevel' hsize, hlength]
  · rwa [hlength]
  · rw [filter_mapBitmap, forall₂_map_eq (hplanted.imp fun _ _ h => h.1)]
  · intro i hi
    rw [← List.append_nil (List.map _ _)] at hrecords
    have := SegmentView.Holds.readIdentifiers hrecords i (by simpa using hi)
    rw [this, getElem_map]
  · intro plant hmem entry hentry
    obtain ⟨i, hi, rfl⟩ := getElem_of_mem hmem
    have hall := List.forall₂_iff_get.mp hplanted
    have hi' : i < (mapBuckets level entries).length := by omega
    obtain ⟨hindex, hbucket⟩ := hall.2 i hi' hi
    obtain ⟨prepared, hprepared, rfl⟩ := mem_map.mp (hbucket.subset hentry)
    have hin := mem_mapBuckets (List.getElem_mem hi')
    rw [List.get_eq_getElem] at hprepared hindex
    rw [hin, mem_filter, decide_eq_true_eq] at hprepared
    rw [List.get_eq_getElem] at hindex
    rw [hindex, ← hprepared.2, hhash prepared hprepared.1]
    rfl

end

theorem writeMapLeaf_planted {level index : Nat} {entries : List PreparedEntry} (hw : Valid c w)
    (h : (writeMapLeaf c.environment level entries).run w = .ok (own, w'))
    (hprepared : Prepared c w entries) (hlevel : level ≤ 7)
    (hsize : entries.length ≤ maximumMapSize)
    (hcapacity : entries.length ≤ bucketsPerLevel ∨ level = maximumLevel) :
    Steps c w w' ∧ ∃ stored nodes,
      Planted c w w' levels level entries ⟨index, own, stored, nodes⟩ := by
  obtain ⟨hsteps, hallowed, hnew, hshape⟩ := writeMapLeaf_spec hw h hprepared hlevel hsize
    hcapacity
  refine ⟨hsteps, _, _, (perm_sortBy compareEntries entries).map _, hallowed, ?_,
    fun _ => List.nodup_singleton _, fun provider hserves => hshape provider hserves levels⟩
  intro node hmem
  rw [List.mem_singleton.mp hmem]
  exact hnew

/-- A trie of the entries is written, all of it in new records. -/
theorem writeMapBucket_spec {levels level index : Nat} {entries : List PreparedEntry}
    {own : RecordIdentifier} (hw : Valid c w)
    (h : (writeMapBucket c.environment levels level entries).run w = .ok (own, w'))
    (hprepared : Prepared c w entries) (hlevels : level + levels = maximumLevel)
    (hsize : entries.length ≤ maximumMapSize) :
    Steps c w w' ∧ ∃ stored nodes,
      Planted c w w' levels level entries ⟨index, own, stored, nodes⟩ := by
  induction levels generalizing w w' level index entries own with
  | zero =>
    exact writeMapLeaf_planted hw h hprepared (Nat.le_of_eq hlevels) hsize (.inr hlevels)
  | succ levels ih =>
    have habove : level < maximumLevel := by omega
    rw [writeMapBucket] at h
    split at h
    · rename_i hle
      exact writeMapLeaf_planted hw h hprepared habove.le hsize (.inl hle)
    · rename_i hlt
      obtain ⟨records, w₁, hbuckets, h⟩ := StateT.bind_ok_iff.mp h
      obtain ⟨hsteps, planted, rfl, hplanted, hnodup⟩ := mapM_planted hw
        (show ∀ bucket ∈ mapBuckets level entries, ∀ t record t', Valid c t → Steps c w t →
          (writeMapBucket c.environment levels (level + 1) bucket.2).run t = .ok (record, t') →
            Steps c t t' ∧ ∃ stored nodes, Planted c t t' levels (level + 1) bucket.2
              ⟨bucket.1, record, stored, nodes⟩ from by
          intro bucket hmem t record t' ht hbefore hrun
          have hsub : bucket.2.Sublist entries := by
            rw [mem_mapBuckets hmem]
            exact List.filter_sublist
          exact ih ht hrun ((hprepared.sublist hsub).mono hw hbefore) (by omega)
            (hsub.length_le.trans hsize)) hbuckets
      have hw₁ := hsteps.valid hw
      have hplant : ∀ plant ∈ planted, ∃ bucket ∈ mapBuckets level entries,
          Planted c w w₁ levels (level + 1) bucket.2 plant := by
        intro plant hmem
        obtain ⟨i, hi, rfl⟩ := getElem_of_mem hmem
        have hall := List.forall₂_iff_get.mp hplanted
        have hi' : i < (mapBuckets level entries).length := by omega
        exact ⟨_, List.getElem_mem hi', (hall.2 i hi' hi).2⟩
      obtain ⟨hstep, hrecorded, hsegment, hnew⟩ := writeRecord_spec hw₁ h nofun (by
          intro own
          rw [fieldsLength_cons, fieldsLength_cons, SegmentView.fieldsLength_identifiers,
            Field.length, Field.length, Bytes.length_be32, Bytes.length_be32, Nat.add_assoc,
            Nat.mul_comm]) (by omega)
        (fun _ record hmem => .inr (by simpa using hmem)) (by
          intro record hmem
          obtain ⟨plant, hplanted, rfl⟩ := mem_map.mp hmem
          obtain ⟨_, _, hplant⟩ := hplant plant hplanted
          exact hplant.allowed)
      refine ⟨hsteps.trans hstep, planted.flatMap MapBucket.entries,
        own :: planted.flatMap MapBucket.nodes, perm_of_planted (hplanted.imp fun _ _ h => h.2.perm),
        .inr (.inl hsegment), ?_, ?_, ?_⟩
      · intro node hmem
        rcases mem_cons.mp hmem with rfl | hmem
        · exact hnew.mono hsteps (Steps.refl _)
        · obtain ⟨plant, hplanted, hnode⟩ := mem_flatMap.mp hmem
          obtain ⟨_, _, hplant⟩ := hplant plant hplanted
          exact (hplant.new node hnode).mono (Steps.refl w) hstep
      · intro hunique
        refine List.nodup_cons.mpr ⟨fun hmem => ?_, hnodup (hstep.identifiers.nodup hunique)⟩
        obtain ⟨plant, hplanted, hnode⟩ := mem_flatMap.mp hmem
        obtain ⟨_, _, hplant⟩ := hplant plant hplanted
        exact hnew.2 hunique (hplant.new own hnode).1
      · intro provider hserves
        obtain ⟨view, hview, hholds⟩ := hrecorded.assured provider hserves
        refine ⟨view, hview, habove.le, .inr ⟨planted, BranchIn.of_holds habove hsize
          (not_le.mp hlt) hholds hprepared.hash (hplanted.imp fun _ _ h => ⟨h.1, h.2.perm⟩),
          fun plant hmem => ?_, rfl, rfl⟩⟩
        obtain ⟨_, _, hplant⟩ := hplant plant hmem
        exact hplant.shape provider (hstep.serves hw₁ hserves)

/-! ## Maps -/

/-- A provider serves a map of some entries. -/
def MapOf (provider : SegmentProvider) (record : RecordIdentifier)
    (entries : List (String × RecordIdentifier)) : Prop :=
  ∃ stored, MapAt provider record record [] stored maximumLevel ∧
    (stored.map fun entry => (entry.name, entry.value)).Perm entries

/-- A provider serves the records of a map of some entries. -/
def MapShape (provider : SegmentProvider) (record : RecordIdentifier)
    (entries : List (String × RecordIdentifier)) : Prop :=
  ∃ stored nodes, ShapeAt provider maximumLevel 0 record stored nodes ∧ nodes.Nodup ∧
    stored.length ≤ maximumMapSize ∧
    (stored.map fun entry => (entry.name, entry.value)).Perm entries ∧
    ∀ entry ∈ stored, entry.name.utf8.length ≤ maximumValueLength →
      ValueAt provider entry.keyIdentifier entry.name.utf8

theorem writeMap_spec {entries : List (String × RecordIdentifier)}
    (hw : Valid c w) (h : (writeMap c.environment entries).run w = .ok (own, w'))
    (hallowed : ∀ entry ∈ entries, Allowed c w entry.2.segment) :
    Steps c w w' ∧ Allowed c w' own.segment ∧ Assured c w' (MapShape · own entries) := by
  rw [writeMap] at h
  split at h
  · exact absurd h StateT.throw_ok
  · rename_i hsize
    obtain ⟨prepared, w₁, hprepare, h⟩ := StateT.bind_ok_iff.mp h
    obtain ⟨hsteps, hprepared, hmap, -⟩ := prepareEntries_spec hw hprepare hallowed
    have hlength : prepared.length = entries.length := by
      rw [← hmap, length_map]
    have hsmall : prepared.length ≤ maximumMapSize := by
      unfold maximumMapSize
      omega
    have hw₁ := hsteps.valid hw
    obtain ⟨hsteps', stored, nodes, hplanted⟩ := @writeMapBucket_spec _ _ _ _ _ 0 _ _ hw₁ h
      hprepared (Nat.zero_add _) hsmall
    have hperm := hplanted.perm
    dsimp only at hperm
    refine ⟨hsteps.trans hsteps', hplanted.allowed, fun provider hserves => ⟨stored, nodes,
      hplanted.shape provider hserves, hplanted.nodup hserves.unique, ?_, ?_, ?_⟩⟩
    · rw [hperm.length_eq, length_map]
      exact hsmall
    · have hpairs := hperm.map fun entry : CollectedEntry => (entry.name, entry.value)
      rw [map_map] at hpairs
      exact hpairs.trans (.of_eq hmap)
    · intro entry hmem hlong
      obtain ⟨original, horiginal, rfl⟩ := mem_map.mp (hperm.subset hmem)
      exact hsteps'.assured hw₁ (hprepared.keys original horiginal hlong) provider hserves

section

variable {provider : SegmentProvider} {record : RecordIdentifier}
  {entries : List (String × RecordIdentifier)}

/-- One round of an enumeration that succeeds. -/
theorem collectMapEntries_ok {rounds : Nat} {visited pending : List RecordIdentifier}
    {listed : List CollectedEntry}
    (h : collectMapEntries provider (rounds + 1) visited (record :: pending) = .ok listed) :
    ∃ view head expanded scheduled rest, provider record.segment = .ok view ∧
      view.readU32 record.recordNumber 0 = .ok head ∧
      expandMapRecord provider record view head = .ok (expanded, scheduled) ∧
      collectMapEntries provider rounds (record :: visited) (scheduled ++ pending) = .ok rest ∧
      listed = expanded ++ rest := by
  rw [collectMapEntries] at h
  split at h
  · cases h
  · obtain ⟨view, hview, h⟩ := bind_ok_iff.mp h
    obtain ⟨head, hhead, h⟩ := bind_ok_iff.mp h
    obtain ⟨⟨expanded, scheduled⟩, hexpand, h⟩ := bind_ok_iff.mp h
    obtain ⟨rest, hrest, h⟩ := bind_ok_iff.mp h
    exact ⟨view, head, expanded, scheduled, rest, hview, hhead, hexpand, hrest,
      (pure_ok_iff.mp h).symm⟩

variable {expanded : List CollectedEntry} {scheduled : List RecordIdentifier}

theorem LeafShape.readable {view : SegmentView} {level : Nat} {stored : List CollectedEntry} (h : LeafShape view level record stored) (hlevel : level ≤ 7)
    (hsize : stored.length ≤ maximumMapSize)
    (hok : expandMapRecord provider record view (mapHead level stored.length) =
      .ok (expanded, scheduled)) :
    (∀ entry ∈ stored, ∃ text, readString provider entry.keyIdentifier = .ok text) ∧
      scheduled = [] := by
  obtain ⟨hdiff, hcount, hshift⟩ := mapHead_spec hlevel hsize
  rw [expandMapRecord, if_neg hdiff] at hok
  dsimp only at hok
  rw [hcount, hshift] at hok
  split at hok
  · rename_i hempty
    obtain ⟨-, rfl⟩ := Prod.mk.inj (pure_ok_iff.mp hok)
    rw [List.length_eq_zero_iff.mp hempty]
    exact ⟨(by rintro _ ⟨⟩), rfl⟩
  split at hok
  · rename_i hbranch
    rcases h.capacity with hfew | hdeepest
    · omega
    · omega
  · obtain ⟨read, hread, hok⟩ := bind_ok_iff.mp hok
    obtain ⟨-, rfl⟩ := Prod.mk.inj (pure_ok_iff.mp hok)
    obtain ⟨hlength, hentries⟩ := Except.mapM_range_ok_iff.mp hread
    refine ⟨fun entry hmem => ?_, rfl⟩
    obtain ⟨i, hi, rfl⟩ := getElem_of_mem hmem
    have hentry := hentries i (by omega)
    rw [readLeafEntry, h.keys i hi, Except.ok_bind_eq, h.values i hi, Except.ok_bind_eq] at hentry
    obtain ⟨text, htext, -⟩ := bind_ok_iff.mp hentry
    exact ⟨text, htext⟩

section

variable {rounds : Nat} {visited pending : List RecordIdentifier} {listed : List CollectedEntry}

/-- What an enumeration has read of every bucket, it has read of all of them. -/
theorem readable_of_buckets {buckets : List MapBucket}
    (hbucket : ∀ bucket ∈ buckets, ∀ rounds visited pending listed,
      collectMapEntries provider (bucket.nodes.length + rounds) visited
        (bucket.record :: pending) = .ok listed →
      (∀ entry ∈ bucket.entries, ∃ text, readString provider entry.keyIdentifier = .ok text) ∧
        ∃ visited' rest, collectMapEntries provider rounds visited' pending = .ok rest)
    (hok : collectMapEntries provider ((buckets.flatMap MapBucket.nodes).length + rounds) visited
      (buckets.map MapBucket.record ++ pending) = .ok listed) :
    (∀ entry ∈ buckets.flatMap MapBucket.entries,
      ∃ text, readString provider entry.keyIdentifier = .ok text) ∧
      ∃ visited' rest, collectMapEntries provider rounds visited' pending = .ok rest := by
  induction buckets generalizing visited listed with
  | nil =>
    rw [List.flatMap_nil, List.length_nil, Nat.zero_add] at hok
    exact ⟨nofun, visited, listed, hok⟩
  | cons bucket buckets ih =>
    rw [flatMap_cons, List.length_append, Nat.add_assoc, map_cons,
      List.cons_append] at hok
    obtain ⟨hfirst, visited', rest, hrest⟩ := hbucket bucket (mem_cons_self ..) _ _ _ _ hok
    obtain ⟨hothers, hpending⟩ := ih (fun other hmem => hbucket other (mem_cons_of_mem _ hmem))
      hrest
    refine ⟨fun entry hmem => ?_, hpending⟩
    rw [flatMap_cons] at hmem
    rcases List.mem_append.mp hmem with hmem | hmem
    · exact hfirst entry hmem
    · exact hothers entry hmem

variable {stored : List CollectedEntry}

theorem LeafShape.collected {view : SegmentView} {level : Nat}
    (h : LeafShape view level record stored) (hview : provider record.segment = .ok view)
    (hlevel : level ≤ maximumLevel) (hsize : stored.length ≤ maximumMapSize)
    (hok : collectMapEntries provider ([record].length + rounds) visited (record :: pending) =
      .ok listed) :
    (∀ entry ∈ stored, ∃ text, readString provider entry.keyIdentifier = .ok text) ∧
      ∃ visited' rest, collectMapEntries provider rounds visited' pending = .ok rest := by
  rw [List.length_singleton, Nat.add_comm] at hok
  obtain ⟨_, _, expanded, scheduled, rest, hview', hhead, hexpand, hrest, -⟩ :=
    collectMapEntries_ok hok
  obtain rfl := Except.ok.inj (hview.symm.trans hview')
  obtain rfl := Except.ok.inj (h.head.symm.trans hhead)
  obtain ⟨hreadable, rfl⟩ := h.readable hlevel hsize hexpand
  exact ⟨hreadable, _, rest, hrest⟩

/-- An enumeration that succeeds has read every key of a shape, and gone on with what was
pending. -/
theorem ShapeAt.readable {depth level : Nat} {nodes : List RecordIdentifier}
    (h : ShapeAt provider depth level record stored nodes) (hsize : stored.length ≤ maximumMapSize)
    (hok : collectMapEntries provider (nodes.length + rounds) visited (record :: pending) =
      .ok listed) :
    (∀ entry ∈ stored, ∃ text, readString provider entry.keyIdentifier = .ok text) ∧
      ∃ visited' rest, collectMapEntries provider rounds visited' pending = .ok rest := by
  induction depth generalizing level record stored nodes rounds visited pending listed with
  | zero =>
    obtain ⟨view, hview, hlevel, hshape, rfl⟩ := h
    exact hshape.collected hview hlevel hsize hok
  | succ depth ih =>
    obtain ⟨view, hview, hlevel, ⟨hshape, rfl⟩ | ⟨buckets, hbranch, hbuckets, rfl, rfl⟩⟩ := h
    · exact hshape.collected hview hlevel hsize hok
    · rw [length_cons, Nat.add_right_comm] at hok
      obtain ⟨_, _, expanded, scheduled, rest, hview', hhead, hexpand, hrest, -⟩ :=
        collectMapEntries_ok hok
      obtain rfl := Except.ok.inj (hview.symm.trans hview')
      obtain rfl := Except.ok.inj (hbranch.head.symm.trans hhead)
      rw [hbranch.expandMapRecord hsize] at hexpand
      obtain ⟨-, rfl⟩ := Prod.mk.inj (Except.ok.inj hexpand)
      refine readable_of_buckets (fun bucket hmem _ _ _ _ hbucket => ?_) hrest
      exact ih (hbuckets bucket hmem) ((length_le_flatMap_of_mem hmem).trans hsize) hbucket

end

theorem names_expandMapRecord {view : SegmentView} {head : UInt32}
    (h : expandMapRecord provider record view head = .ok (expanded, scheduled)) :
    ∀ entry ∈ expanded, ∃ key, readString provider key = .ok entry.name := by
  rw [expandMapRecord] at h
  split at h
  · obtain ⟨base, -, h⟩ := bind_ok_iff.mp h
    obtain ⟨rfl, -⟩ := Prod.mk.inj (pure_ok_iff.mp h)
    rintro _ ⟨⟩
  dsimp only at h
  split at h
  · obtain ⟨rfl, -⟩ := Prod.mk.inj (pure_ok_iff.mp h)
    rintro _ ⟨⟩
  split at h
  · obtain ⟨bitmap, -, h⟩ := bind_ok_iff.mp h
    obtain ⟨buckets, -, h⟩ := bind_ok_iff.mp h
    obtain ⟨rfl, -⟩ := Prod.mk.inj (pure_ok_iff.mp h)
    rintro _ ⟨⟩
  · obtain ⟨read, hread, h⟩ := bind_ok_iff.mp h
    obtain ⟨rfl, -⟩ := Prod.mk.inj (pure_ok_iff.mp h)
    obtain ⟨-, hentries⟩ := Except.mapM_range_ok_iff.mp hread
    intro entry hmem
    obtain ⟨i, hi, rfl⟩ := getElem_of_mem hmem
    obtain ⟨key, -, hentry⟩ := bind_ok_iff.mp (hentries i hi)
    obtain ⟨value, -, hentry⟩ := bind_ok_iff.mp hentry
    obtain ⟨text, htext, hentry⟩ := bind_ok_iff.mp hentry
    rw [← pure_ok_iff.mp hentry]
    exact ⟨key, htext⟩

/-- The names of an enumeration have been read. -/
theorem names_collectMapEntries {rounds : Nat} {visited pending : List RecordIdentifier}
    {listed : List CollectedEntry}
    (h : collectMapEntries provider rounds visited pending = .ok listed) :
    ∀ entry ∈ listed, ∃ key, readString provider key = .ok entry.name := by
  induction rounds generalizing visited pending listed with
  | zero =>
    cases h
    nofun
  | succ rounds ih =>
    cases pending with
    | nil =>
      cases h
      nofun
    | cons record pending =>
      obtain ⟨view, head, expanded, scheduled, rest, -, -, hexpand, hrest, rfl⟩ :=
        collectMapEntries_ok h
      intro entry hmem
      rcases List.mem_append.mp hmem with hmem | hmem
      · exact names_expandMapRecord hexpand entry hmem
      · exact ih hrest entry hmem

/-- The keys of a map that is enumerated are readable. -/
theorem MapShape.readable {listed : List MapEntry} (h : MapShape provider record entries)
    (hlisted : mapEntries provider record = .ok listed)
    (hperm : (listed.map fun entry => (entry.name, entry.value)).Perm entries) :
    ∀ entry ∈ entries, Readable entry.1 := by
  obtain ⟨stored, nodes, hshape, -, hsize, hstored, hkeys⟩ := h
  have hroot := hshape.readDiffChain hsize record (maximumWalkLength - 1) []
  rw [mapEntries] at hlisted
  obtain ⟨chain, hchain, hrest⟩ := bind_ok_iff.mp hlisted
  obtain rfl : chain = ([], record) := Except.ok.inj (hchain.symm.trans hroot)
  obtain ⟨collected, hcollect, hoverlaid⟩ := bind_ok_iff.mp hrest
  obtain rfl := pure_ok_iff.mp hoverlaid
  have hnodes : nodes.length ≤ recordIdentifierCount := by
    refine hshape.length_nodes.trans ?_
    decide
  have hread : ∀ entry ∈ stored, ∃ text, readString provider entry.keyIdentifier = .ok text := by
    rw [← Nat.add_sub_cancel' hnodes] at hcollect
    exact (hshape.readable hsize hcollect).1
  intro entry hmem
  by_contra hlong
  have hlong : 2 ^ 31 - 1 ≤ entry.1.utf8.length := not_lt.mp hlong
  by_cases hlength : entry.1.utf8.length ≤ maximumValueLength
  · obtain ⟨original, horiginal, rfl⟩ := mem_map.mp (hstored.symm.subset hmem)
    obtain ⟨text, htext⟩ := hread original horiginal
    exact (hkeys original horiginal hlength).readString_long hlong text htext
  · obtain ⟨found, hfound, rfl⟩ := mem_map.mp (hperm.symm.subset hmem)
    obtain ⟨original, horiginal, rfl⟩ := mem_map.mp hfound
    obtain ⟨key, hkey⟩ := names_collectMapEntries hcollect original horiginal
    have hshort := length_readString hkey
    have hmaximum : 4 * (2 ^ 31 - 2) ≤ maximumValueLength := by decide
    exact hlength (hshort.trans hmaximum)

theorem MapShape.mapOf (h : MapShape provider record entries)
    (hreadable : ∀ entry ∈ entries, Readable entry.1) : MapOf provider record entries := by
  obtain ⟨stored, nodes, hshape, hnodup, hsize, hperm, hkeys⟩ := h
  refine ⟨stored, ⟨rfl, ⟨nodes, hshape.trie fun entry hmem => ?_, hnodup⟩, le_rfl, hsize, nofun⟩,
    hperm⟩
  have hshort : Readable entry.name :=
    hreadable (entry.name, entry.value) (hperm.subset (List.mem_map_of_mem hmem))
  have hlength : entry.name.utf8.length ≤ maximumValueLength :=
    hshort.le.trans (show 2 ^ 31 - 1 ≤ maximumValueLength by decide)
  rw [(hkeys entry hmem hlength).readString hshort, Utf8.decodeLossy_utf8]

end

theorem MapOf.read {provider : SegmentProvider} {record : RecordIdentifier}
    {entries : List (String × RecordIdentifier)} (h : MapOf provider record entries) :
    mapSize provider record = .ok entries.length ∧
      (∀ name value, (name, value) ∈ entries → mapEntry provider record name = .ok (some value)) ∧
      (∀ name, name ∉ entries.map Prod.fst → mapEntry provider record name = .ok none) ∧
      ∃ listed, mapEntries provider record = .ok listed ∧
        (listed.map fun entry => (entry.name, entry.value)).Perm entries := by
  obtain ⟨stored, hmap, hperm⟩ := h
  obtain ⟨nodes, htrie, -⟩ := hmap.trie
  have hlookup := hmap.mapEntry (by decide)
  refine ⟨?_, fun name value hmem => ?_, fun name hnot => ?_, _, hmap.mapEntries (by decide), ?_⟩
  · rw [← hperm.length_eq, length_map]
    exact htrie.shape.mapSizeWalk hmap.size record _
  · obtain ⟨entry, hentry, heq⟩ := mem_map.mp (hperm.symm.subset hmem)
    obtain ⟨rfl, rfl⟩ := Prod.mk.inj heq
    rw [hlookup, overlaidValue, (valueOf_eq_some_iff htrie.distinct).mpr ⟨entry, hentry, rfl, rfl⟩]
    rfl
  · have hnone : valueOf stored name = none := by
      rw [valueOf_eq_none_iff]
      rintro entry hentry rfl
      exact hnot (List.mem_map_of_mem (f := Prod.fst)
        (hperm.subset (List.mem_map_of_mem hentry)))
    rw [hlookup, overlaidValue, hnone]
    rfl
  · rw [map_map]
    exact hperm

end Froe

