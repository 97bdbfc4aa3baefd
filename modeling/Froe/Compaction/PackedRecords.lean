import Froe.Lib.Except
import Froe.Lib.ProbeTable
import Froe.Segment.Identifier
import Mathlib.Data.Finmap
import Mathlib.Data.Nat.Bitwise

/-!
# Packed record identifiers

A segment is interned as an index, so that eight bytes hold a record: the index of its segment
and its number.  Packed records are the keys of two tables with open addressing, a set and a
map, whose empty slots hold zero.
-/

namespace Froe

open List (eq_of_mem_replicate length_cons length_replicate length_set mem_filter)
open Finmap (lookup_empty lookup_insert lookup_insert_of_ne)
open ProbeTable (exists_holds)
namespace PackedRecords

/-- What makes a call panic. -/
inductive Panic where
  | indexOutOfBounds
  | message (text : String)
deriving DecidableEq, Repr

/-- A call that may panic, and that may loop for ever. -/
abbrev Run := ExceptT Panic Option

theorem bind_pure_ok {α β : Type} {run : Run α} {f : α → β} {result : β}
    (h : (run >>= fun value => pure (f value)) = (pure result : Run β)) :
    ∃ value, run = pure value ∧ f value = result := by
  rcases run with - | (panic | value)
  · cases h
  · cases h
  · exact ⟨value, rfl, Except.ok.inj (Option.some.inj h)⟩

/-! ## Interned segments -/

/-- Index 0 is never issued, and a placeholder stands there. -/
structure SegmentInterner where
  indices : Finmap fun _ : SegmentIdentifier => UInt32
  identifiers : List SegmentIdentifier

/-- Index and record number side by side. -/
def packed (index recordNumber : UInt32) : UInt64 :=
  index.toUInt64 <<< 32 ||| recordNumber.toUInt64

namespace SegmentInterner

/-- Index zero stands for no segment. -/
def new : SegmentInterner := ⟨∅, [⟨0, 0⟩]⟩

variable (interner : SegmentInterner)

/-- The index of a segment, which is given to a new segment at once. -/
def indexOf (segment : SegmentIdentifier) : Run (UInt32 × SegmentInterner) :=
  match interner.indices.lookup segment with
  | some index => pure (index, interner)
  | none =>
    if interner.identifiers.length < 2 ^ 32 then
      let index := UInt32.ofNat interner.identifiers.length
      pure (index, ⟨interner.indices.insert segment index, interner.identifiers ++ [segment]⟩)
    else throw (.message "segments per walk fit u32")

/-- The index of a segment that has one. -/
def existingIndexOf (segment : SegmentIdentifier) : Option UInt32 :=
  interner.indices.lookup segment

/-- The segment of an index. -/
def identifier (index : UInt32) : Run SegmentIdentifier :=
  match interner.identifiers[index.toNat]? with
  | some segment => pure segment
  | none => throw .indexOutOfBounds

/-- The key of a record. -/
def pack (record : RecordIdentifier) : Run (UInt64 × SegmentInterner) := do
  let (index, interner) ← interner.indexOf record.segment
  return (packed index record.recordNumber, interner)

/-- The key of a record whose segment is interned. -/
def packExisting (record : RecordIdentifier) : Option UInt64 :=
  (interner.existingIndexOf record.segment).map fun index => packed index record.recordNumber

/-- The record of a key. -/
def unpack (key : UInt64) : Run RecordIdentifier := do
  let segment ← interner.identifier (key >>> 32).toUInt32
  return ⟨segment, key.toUInt32⟩

end SegmentInterner

variable (index recordNumber : UInt32)

/-- A key as a number. -/
theorem toNat_packed :
    (packed index recordNumber).toNat = 2 ^ 32 * index.toNat + recordNumber.toNat := by
  have hindex := index.toNat_lt
  rw [packed, UInt64.toNat_or, UInt64.toNat_shiftLeft, UInt32.toNat_toUInt64,
    UInt32.toNat_toUInt64, show (32 : UInt64).toNat % 64 = 32 from rfl, Nat.shiftLeft_eq,
    Nat.mod_eq_of_lt (by omega), Nat.mul_comm, Nat.two_pow_add_eq_or_of_lt recordNumber.toNat_lt]

/-- A key has its index. -/
theorem index_packed :
    (packed index recordNumber >>> 32).toUInt32 = index := by
  have hnumber := recordNumber.toNat_lt
  have hindex := index.toNat_lt
  refine UInt32.toNat_inj.mp ?_
  rw [UInt64.toNat_toUInt32, UInt64.toNat_shiftRight, toNat_packed,
    show (32 : UInt64).toNat % 64 = 32 from rfl, Nat.shiftRight_eq_div_pow]
  omega

/-- A key has its record number. -/
theorem recordNumber_packed :
    (packed index recordNumber).toUInt32 = recordNumber := by
  have hnumber := recordNumber.toNat_lt
  refine UInt32.toNat_inj.mp ?_
  rw [UInt64.toNat_toUInt32, toNat_packed]
  omega

/-- A packed record is no empty slot. -/
theorem packed_ne_zero {index : UInt32} (h : index ≠ 0) (recordNumber : UInt32) :
    packed index recordNumber ≠ 0 := by
  intro hzero
  have hindex := index_packed index recordNumber
  rw [hzero] at hindex
  exact h hindex.symm

namespace SegmentInterner

/-- Every index but the placeholder's was issued for the segment that stands there. -/
structure Valid (interner : SegmentInterner) : Prop where
  lookup : ∀ segment index, interner.indices.lookup segment = some index ↔
    index ≠ 0 ∧ interner.identifiers[index.toNat]? = some segment
  length : interner.identifiers.length = interner.indices.keys.card + 1
  fits : interner.identifiers.length ≤ 2 ^ 32

/-- The first interner is valid. -/
theorem valid_new : new.Valid := by
  refine ⟨fun segment index => ?_, rfl, by decide⟩
  rw [new, lookup_empty]
  refine ⟨nofun, fun ⟨hindex, hsegment⟩ => ?_⟩
  obtain ⟨hlt, -⟩ := List.getElem?_eq_some_iff.mp hsegment
  exact absurd (UInt32.toNat_inj.mp (Nat.lt_one_iff.mp hlt)) hindex

/-- An interner that knows all that another one knows. -/
def Extends (later earlier : SegmentInterner) : Prop :=
  ∀ segment index, earlier.indices.lookup segment = some index →
    later.indices.lookup segment = some index

variable {interner : SegmentInterner}

variable {segment : SegmentIdentifier} {record : RecordIdentifier}

/-- A known segment keeps its index. -/
theorem indexOf_known {index : UInt32} (h : interner.indices.lookup segment = some index) :
    interner.indexOf segment = pure (index, interner) := by
  rw [indexOf, h]

/-- A segment that is not interned gets the next index. -/
theorem indexOf_new (hvalid : interner.Valid)
    (hnew : segment ∉ interner.indices) (hroom : interner.identifiers.length < 2 ^ 32) :
    ∃ index later, interner.indexOf segment = pure (index, later) ∧ later.Valid ∧
      later.Extends interner ∧ later.indices.lookup segment = some index ∧
      later.indices.keys = insert segment interner.indices.keys := by
  have hlookup := Finmap.lookup_eq_none.mpr hnew
  have hindex : (UInt32.ofNat interner.identifiers.length).toNat = interner.identifiers.length :=
    UInt32.toNat_ofNat_of_lt' hroom
  have hkeys : (interner.indices.insert segment (UInt32.ofNat interner.identifiers.length)).keys =
      insert segment interner.indices.keys := by
    ext other
    rw [Finmap.mem_keys, Finmap.mem_insert, Finset.mem_insert, Finmap.mem_keys]
  have hextends : ∀ other index, interner.indices.lookup other = some index → other ≠ segment := by
    rintro other index hother rfl
    cases hlookup.symm.trans hother
  refine ⟨_, _, by rw [indexOf, hlookup]; exact if_pos hroom, ⟨?_, ?_, ?_⟩, ?_,
    lookup_insert _, hkeys⟩
  · intro other index
    dsimp only
    by_cases hother : other = segment
    · subst hother
      rw [lookup_insert]
      constructor
      · intro heq
        cases heq
        refine ⟨fun hzero => ?_, ?_⟩
        · rw [hzero] at hindex
          have := hvalid.length
          exact absurd (hindex.trans this) (Nat.succ_ne_zero _).symm
        · rw [hindex, List.getElem?_concat_length]
      · rintro ⟨hzero, hstands⟩
        rcases Nat.lt_trichotomy index.toNat interner.identifiers.length with hlt | heq | hgt
        · rw [List.getElem?_append_left hlt] at hstands
          cases hlookup.symm.trans ((hvalid.lookup other index).mpr ⟨hzero, hstands⟩)
        · rw [← heq, UInt32.ofNat_toNat]
        · rw [List.getElem?_eq_none (by rw [List.length_append, List.length_singleton]; exact hgt)]
            at hstands
          cases hstands
    · rw [lookup_insert_of_ne _ hother, hvalid.lookup]
      refine and_congr_right fun hzero => ?_
      rcases Nat.lt_trichotomy index.toNat interner.identifiers.length with hlt | heq | hgt
      · rw [List.getElem?_append_left hlt]
      · rw [heq, List.getElem?_concat_length, List.getElem?_eq_none (Nat.le_refl _)]
        exact ⟨nofun, fun h => absurd (Option.some.inj h).symm hother⟩
      · rw [List.getElem?_eq_none (Nat.le_of_lt hgt), List.getElem?_eq_none
          (by rw [List.length_append, List.length_singleton]; exact hgt)]
  · dsimp only
    rw [hkeys, Finset.card_insert_of_notMem (by rwa [Finmap.mem_keys]), List.length_append,
      List.length_singleton, hvalid.length]
  · dsimp only
    rw [List.length_append, List.length_singleton]
    exact hroom
  · intro other index hother
    exact (lookup_insert_of_ne _ (hextends other index hother)).trans hother

theorem Extends.packExisting {later : SegmentInterner} {key : UInt64}
    (h : later.Extends interner) (hkey : interner.packExisting record = some key) :
    later.packExisting record = some key := by
  obtain ⟨index, hindex, rfl⟩ := Option.map_eq_some_iff.mp hkey
  exact Option.map_eq_some_iff.mpr ⟨index, h _ _ hindex, rfl⟩

theorem Extends.trans {later latest : SegmentInterner} (h : later.Extends interner)
    (h' : latest.Extends later) : latest.Extends interner :=
  fun segment index hindex => h' segment index (h segment index hindex)

section

variable (hvalid : interner.Valid) {key : UInt64} (hkey : interner.packExisting record = some key)
include hvalid hkey

/-- A key unpacks to its record. -/
theorem Valid.unpack : interner.unpack key = pure record := by
  obtain ⟨index, hindex, rfl⟩ := Option.map_eq_some_iff.mp hkey
  have hstands := ((hvalid.lookup _ _).mp hindex).2
  rw [SegmentInterner.unpack, index_packed, recordNumber_packed, identifier, hstands]
  rfl

/-- No key is the empty slot. -/
theorem Valid.packExisting_ne_zero : key ≠ 0 := by
  obtain ⟨index, hindex, rfl⟩ := Option.map_eq_some_iff.mp hkey
  exact packed_ne_zero ((hvalid.lookup _ _).mp hindex).1 _

/-- No two records are packed alike. -/
theorem Valid.packExisting_inj {record' : RecordIdentifier}
    (hkey' : interner.packExisting record' = some key) : record = record' := by
  have hunpack := hvalid.unpack hkey
  rw [hvalid.unpack hkey'] at hunpack
  exact (Except.ok.inj (Option.some.inj hunpack)).symm

end

end SegmentInterner

/-- Names a segment, of which there is room for fewer than 2³². -/
def name (segments : Finset SegmentIdentifier) (segment : SegmentIdentifier) :
    Except Panic (Finset SegmentIdentifier) :=
  if segment ∈ segments then .ok segments
  else if segments.card + 1 < 2 ^ 32 then .ok (insert segment segments)
  else .error (.message "segments per walk fit u32")

namespace SegmentInterner

variable {interner : SegmentInterner}

variable {record : RecordIdentifier}

theorem pack_eq {index : UInt32} {later : SegmentInterner}
    (h : interner.indexOf record.segment = pure (index, later))
    (hlookup : later.indices.lookup record.segment = some index) :
    ∃ key, interner.pack record = pure (key, later) ∧ later.packExisting record = some key := by
  refine ⟨packed index record.recordNumber, ?_, Option.map_eq_some_iff.mpr ⟨index, hlookup, rfl⟩⟩
  rw [pack, h]
  rfl

/-- Where the interner has room a record is packed. -/
theorem pack_ok {named : Finset SegmentIdentifier}
    (hvalid : interner.Valid) (h : name interner.indices.keys record.segment = .ok named) :
    ∃ key later, interner.pack record = pure (key, later) ∧ later.Valid ∧
      later.Extends interner ∧ later.indices.keys = named ∧
      later.packExisting record = some key := by
  rw [name] at h
  split at h
  · rename_i hmem
    cases h
    obtain ⟨index, hindex⟩ := Option.isSome_iff_exists.mp
      (Finmap.lookup_isSome.mpr (Finmap.mem_keys.mp hmem))
    obtain ⟨key, hpack, hkey⟩ := pack_eq (indexOf_known hindex) hindex
    exact ⟨key, interner, hpack, hvalid, fun _ _ hlookup => hlookup, rfl, hkey⟩
  · rename_i hnew
    split at h
    · rename_i hroom
      cases h
      rw [← hvalid.length] at hroom
      obtain ⟨index, later, hindex, hlater, hextends, hlookup, hkeys⟩ :=
        indexOf_new hvalid (fun hmem => hnew (Finmap.mem_keys.mpr hmem)) hroom
      obtain ⟨key, hpack, hkey⟩ := pack_eq hindex hlookup
      exact ⟨key, later, hpack, hlater, hextends, hkeys, hkey⟩
    · cases h

/-- Where it has none the error is that of the specification. -/
theorem pack_error {panic : Panic} (hvalid : interner.Valid)
    (h : name interner.indices.keys record.segment = .error panic) :
    interner.pack record = throw panic := by
  rw [name] at h
  split at h
  · cases h
  · rename_i hnew
    split at h
    · cases h
    · rename_i hfull
      cases h
      rw [← hvalid.length] at hfull
      rw [pack, indexOf, Finmap.lookup_eq_none.mpr fun hmem => hnew (Finmap.mem_keys.mpr hmem)]
      dsimp only
      rw [if_neg hfull]
      rfl

end SegmentInterner

/-! ## Probing -/

/-- The size of a new table. -/
def initialSlots : Nat := 1024

/-- The slot that a probe for a key starts at. -/
def slotOf (slots : Nat) (key : UInt64) : Nat :=
  ((key * 0x9E3779B97F4A7C15) >>> 32).toNat &&& (slots - 1)

/-- The slot behind a slot, around the end of the table. -/
def nextSlot (slots slot : Nat) : Nat := (slot + 1) &&& (slots - 1)

/-- The keys of a table, slot by slot; zero stands for an empty slot. -/
abbrev Keys := List UInt64

/-- The loop of the lookups: the slot of the key, or nothing once a slot is empty. -/
def Keys.probeFrom (keys : Keys) (key : UInt64) (slot : Nat) : Run (Option Nat) :=
  match keys[slot]? with
  | none => throw .indexOutOfBounds
  | some found =>
    if found = 0 then pure none
    else if found = key then pure (some slot)
    else keys |>.probeFrom key (nextSlot keys.length slot)
partial_fixpoint

/-- The loop of the insertions: the first slot that is empty, where the key must not be met. -/
def Keys.freeSlotFrom (assertion : String) (keys : Keys) (key : UInt64) (slot : Nat) : Run Nat :=
  match keys[slot]? with
  | none => throw .indexOutOfBounds
  | some found =>
    if found = 0 then pure slot
    else if found = key then throw (.message assertion)
    else keys |>.freeSlotFrom assertion key (nextSlot keys.length slot)
partial_fixpoint

/-- The slot of a key. -/
def probe (keys : List UInt64) (key : UInt64) : Run (Option Nat) :=
  Keys.probeFrom keys key (slotOf keys.length key)

/-- The slot that a new key goes to. -/
def freeSlot (assertion : String) (keys : List UInt64) (key : UInt64) : Run Nat :=
  Keys.freeSlotFrom assertion keys key (slotOf keys.length key)

/-- The slots of a table are probed around a power of two, and some of them stay empty. -/
structure Sound (keys : List UInt64) (len : Nat) : Prop where
  slots : ∃ doublings, keys.length = initialSlots * 2 ^ doublings
  placed : ProbeTable.WellPlaced slotOf 0 keys
  occupied : ProbeTable.occupied 0 keys = len
  spare : len * 10 < keys.length * 7

namespace Sound

variable {keys : List UInt64} {len : Nat} {key : UInt64} {slot last : Nat}

section

variable (h : Sound keys len)
include h

/-- The mask is a remainder, since the size is a power of two. -/
theorem masked (n : Nat) : n &&& (keys.length - 1) = n % keys.length := by
  obtain ⟨doublings, hslots⟩ := h.slots
  rw [hslots, show initialSlots = 2 ^ 10 from rfl, ← Nat.pow_add, Nat.and_two_pow_sub_one_eq_mod]

theorem length_pos : 0 < keys.length := by
  have := h.spare
  omega

theorem initial_le : initialSlots ≤ keys.length := by
  obtain ⟨doublings, hslots⟩ := h.slots
  rw [hslots]
  exact Nat.le_mul_of_pos_right _ (Nat.two_pow_pos doublings)

theorem nextSlot_eq (slot : Nat) :
    nextSlot keys.length slot = ProbeTable.next keys.length slot :=
  h.masked (slot + 1)

/-- Every probe comes to an end, since a slot is empty. -/
theorem exists_reaches (key : UInt64) :
    ∃ last, ProbeTable.Reaches 0 keys key (slotOf keys.length key) last := by
  have hspare := h.spare
  refine ProbeTable.exists_reaches ?_ (ProbeTable.mem_empty ?_)
  · rw [slotOf, h.masked]
    exact Nat.mod_lt _ h.length_pos
  · rw [h.occupied]
    omega

section

variable (hkey : key ≠ 0)
include hkey

/-- The loop of the lookups ends where the probe does. -/
theorem probeFrom_eq (hlast : ProbeTable.Reaches 0 keys key slot last) :
    Keys.probeFrom keys key slot = pure (if keys[last]? = some key then some last else none) := by
  induction hlast with
  | here hfound hstops =>
    rw [Keys.probeFrom, hfound]
    dsimp only
    rcases hstops with rfl | rfl
    · rw [if_pos rfl, if_neg fun heq => hkey (Option.some.inj heq).symm]
    · rw [if_neg hkey, if_pos rfl, if_pos rfl]
  | step hfound hnot hnot' _ ih =>
    rw [Keys.probeFrom, hfound]
    dsimp only
    rw [if_neg hnot, if_neg hnot', h.nextSlot_eq, ih]

/-- And so does the loop of the insertions. -/
theorem freeSlotFrom_eq (assertion : String) (hlast : ProbeTable.Reaches 0 keys key slot last) :
    Keys.freeSlotFrom assertion keys key slot =
      if keys[last]? = some key then throw (.message assertion) else pure last := by
  induction hlast with
  | here hfound hstops =>
    rw [Keys.freeSlotFrom, hfound]
    dsimp only
    rcases hstops with rfl | rfl
    · rw [if_pos rfl, if_neg fun heq => hkey (Option.some.inj heq).symm]
    · rw [if_neg hkey, if_pos rfl, if_pos rfl]
  | step hfound hnot hnot' _ ih =>
    rw [Keys.freeSlotFrom, hfound]
    dsimp only
    rw [if_neg hnot, if_neg hnot', h.nextSlot_eq, ih]

/-- A key of the table is found. -/
theorem probe_mem (hmem : key ∈ keys) :
    ∃ slot, probe keys key = pure (some slot) ∧ keys[slot]? = some key := by
  obtain ⟨last, hlast⟩ := h.exists_reaches key
  have hfound := (h.placed.mem_iff hkey hlast).mp hmem
  exact ⟨last, (h.probeFrom_eq hkey hlast).trans (by rw [if_pos hfound]), hfound⟩

/-- A key that is not in the table is not found. -/
theorem probe_not_mem (hmem : key ∉ keys) :
    probe keys key = pure none := by
  obtain ⟨last, hlast⟩ := h.exists_reaches key
  exact (h.probeFrom_eq hkey hlast).trans
    (by rw [if_neg fun hfound => hmem ((h.placed.mem_iff hkey hlast).mpr hfound)])

/-- A key that is in the table fails the assertion. -/
theorem freeSlot_mem (hmem : key ∈ keys)
    (assertion : String) : freeSlot assertion keys key = throw (.message assertion) := by
  obtain ⟨last, hlast⟩ := h.exists_reaches key
  exact (h.freeSlotFrom_eq hkey assertion hlast).trans
    (if_pos ((h.placed.mem_iff hkey hlast).mp hmem))

/-- A key that is not in a table is placed in an empty slot. -/
theorem freeSlot_not_mem (hmem : key ∉ keys)
    (hspare : (len + 1) * 10 < keys.length * 7) (assertion : String) :
    ∃ slot, freeSlot assertion keys key = pure slot ∧ keys[slot]? = some 0 ∧
      Sound (keys.set slot key) (len + 1) := by
  obtain ⟨last, hlast⟩ := h.exists_reaches key
  have hnot : keys[last]? ≠ some key := fun hfound =>
    hmem ((h.placed.mem_iff hkey hlast).mpr hfound)
  have hfree := hlast.stops.resolve_right hnot
  refine ⟨last, (h.freeSlotFrom_eq hkey assertion hlast).trans (if_neg hnot), hfree, ?_, ?_, ?_, ?_⟩
  · rw [length_set]
    exact h.slots
  · exact h.placed.set hlast hfree
  · rw [ProbeTable.occupied_set hkey hfree, h.occupied]
  · rw [length_set]
    exact hspare

end

end

theorem replicate (doublings : Nat) :
    Sound (List.replicate (initialSlots * 2 ^ doublings) 0) 0 := by
  refine ⟨⟨doublings, length_replicate⟩, .replicate _, ProbeTable.occupied_replicate _, ?_⟩
  rw [length_replicate, Nat.zero_mul]
  have := Nat.two_pow_pos doublings
  rw [initialSlots]
  omega

theorem doubled (h : Sound keys len) : Sound (List.replicate (keys.length * 2) 0) 0 := by
  obtain ⟨doublings, hslots⟩ := h.slots
  rw [hslots, Nat.mul_assoc, ← Nat.pow_succ]
  exact replicate (doublings + 1)

end Sound

/-- Whether one more key brings a table to seven tenths of its slots. -/
def growsFor (len slots : Nat) : Bool := (len + 1) * 10 ≥ slots * 7

/-! ## The set -/

/-- A set of records by their keys. -/
structure PackedRecordSet where
  segments : SegmentInterner
  keys : List UInt64
  len : Nat

namespace PackedRecordSet

/-- The assertion of the set. -/
def certifiedTwice : String :=
  "a record was certified twice; the probe or the caller's path set is broken"

/-- The empty set. -/
def new : PackedRecordSet := ⟨.new, List.replicate initialSlots 0, 0⟩

/-- Whether a record is in the set. -/
def contains (set : PackedRecordSet) (record : RecordIdentifier) : Run Bool :=
  match set.segments.packExisting record with
  | none => pure false
  | some key => do return (← probe set.keys key).isSome

/-- Puts a key into a free slot. -/
def place (keys : List UInt64) (key : UInt64) : Run (List UInt64) := do
  let slot ← freeSlot certifiedTwice keys key
  return keys.set slot key

/-- Puts all keys into a table of twice the size. -/
def grow (keys : List UInt64) : Run (List UInt64) :=
  (keys.filter (· ≠ 0)).foldlM place (List.replicate (keys.length * 2) 0)

/-- Grows at seven tenths of the slots. -/
def makeRoom (len : Nat) (keys : List UInt64) : Run (List UInt64) :=
  if growsFor len keys.length then grow keys else pure keys

/-- Inserts a record that its caller has found absent. -/
def insert (set : PackedRecordSet) (record : RecordIdentifier) : Run PackedRecordSet := do
  let grown ← makeRoom set.len set.keys
  let (key, segments) ← set.segments.pack record
  let keys ← place grown key
  return ⟨segments, keys, set.len + 1⟩

variable {keys : List UInt64} {len : Nat} {key : UInt64}

section

variable (h : Sound keys len)
include h

/-- A key that is there is not put in again. -/
theorem place_mem (hkey : key ≠ 0) (hmem : key ∈ keys) :
    place keys key = throw (.message certifiedTwice) := by
  rw [place, h.freeSlot_mem hkey hmem]
  rfl

/-- A new key is put in. -/
theorem place_not_mem (hkey : key ≠ 0) (hmem : key ∉ keys)
    (hspare : (len + 1) * 10 < keys.length * 7) :
    ∃ placed, place keys key = pure placed ∧ Sound placed (len + 1) ∧
      placed.length = keys.length ∧
      ∀ other, other ≠ 0 → (other ∈ placed ↔ other = key ∨ other ∈ keys) := by
  obtain ⟨slot, hslot, hfree, hsound⟩ := h.freeSlot_not_mem hkey hmem hspare certifiedTwice
  refine ⟨keys.set slot key, ?_, hsound, length_set, fun other hother =>
    ProbeTable.mem_set hfree hother⟩
  rw [place, hslot]
  rfl

/-- Keys that are not in a table are placed one after the other. -/
theorem foldlM_place {entries : List UInt64} (hnodup : entries.Nodup)
    (hnew : ∀ key ∈ entries, key ≠ 0 ∧ key ∉ keys)
    (hspare : (len + entries.length) * 10 < keys.length * 7) :
    ∃ placed, entries.foldlM place keys = pure placed ∧ Sound placed (len + entries.length) ∧
      placed.length = keys.length ∧
      ∀ key, key ≠ 0 → (key ∈ placed ↔ key ∈ entries ∨ key ∈ keys) := by
  induction entries generalizing keys len with
  | nil => exact ⟨keys, rfl, h, rfl, fun key _ => by simp⟩
  | cons entry entries ih =>
    rw [length_cons] at hspare
    obtain ⟨hnotin, hnodup⟩ := List.nodup_cons.mp hnodup
    obtain ⟨hentry, hmem⟩ := hnew entry List.mem_cons_self
    obtain ⟨keys', hplace, hsound, hlength, hkeys⟩ := place_not_mem h hentry hmem (by omega)
    obtain ⟨placed, hfold, hplaced, hlength', hall⟩ := ih hsound hnodup
      (fun key hkey => by
        obtain ⟨hnonzero, hout⟩ := hnew key (List.mem_cons_of_mem _ hkey)
        refine ⟨hnonzero, fun hin => ?_⟩
        rcases (hkeys key hnonzero).mp hin with rfl | hold
        · exact hnotin hkey
        · exact hout hold)
      (by omega)
    refine ⟨placed, ?_, ?_, hlength'.trans hlength, fun key hkey => ?_⟩
    · rw [List.foldlM_cons, hplace, pure_bind, hfold]
    · rw [length_cons, Nat.add_comm entries.length, ← Nat.add_assoc]
      exact hplaced
    · rw [hall key hkey, hkeys key hkey, List.mem_cons]
      tauto

/-- A table that grows holds what it held. -/
theorem grow_spec :
    ∃ grown, grow keys = pure grown ∧ Sound grown len ∧ grown.length = keys.length * 2 ∧
      ∀ key, key ≠ 0 → (key ∈ grown ↔ key ∈ keys) := by
  have hlength : (keys.filter (· ≠ 0)).length = len :=
    List.countP_eq_length_filter.symm.trans h.occupied
  have hspare := h.spare
  obtain ⟨grown, hfold, hsound, hslots, hkeys⟩ := foldlM_place h.doubled h.placed.nodup
    (fun key hkey => by
      have hnonzero := of_decide_eq_true (mem_filter.mp hkey).2
      exact ⟨hnonzero, fun hin => hnonzero (eq_of_mem_replicate hin)⟩)
    (by rw [hlength, length_replicate]; omega)
  rw [hlength, Nat.zero_add] at hsound
  rw [length_replicate] at hslots
  refine ⟨grown, hfold, hsound, hslots, fun key hkey => ?_⟩
  rw [hkeys key hkey, mem_filter, decide_eq_true_iff]
  refine ⟨fun hin => ?_, fun hin => .inl ⟨hin, hkey⟩⟩
  rcases hin with hin | hin
  · exact hin.1
  · exact absurd (eq_of_mem_replicate hin) hkey

/-- The table that an insertion places its key in. -/
theorem makeRoom_spec :
    ∃ grown, makeRoom len keys = pure grown ∧ Sound grown len ∧ (len + 1) * 10 < grown.length * 7 ∧
      ∀ key, key ≠ 0 → (key ∈ grown ↔ key ∈ keys) := by
  have hspare := h.spare
  rw [makeRoom]
  cases hgrows : growsFor len keys.length with
  | true =>
    obtain ⟨grown, hgrow, hsound, hslots, hkeys⟩ := grow_spec h
    have hinitial := h.initial_le
    rw [initialSlots] at hinitial
    exact ⟨grown, (if_pos rfl).trans hgrow, hsound, by omega, hkeys⟩
  | false =>
    exact ⟨keys, if_neg Bool.false_ne_true, h, Nat.lt_of_not_ge (of_decide_eq_false hgrows),
      fun key _ => Iff.rfl⟩

end

end PackedRecordSet

/-! ## The map -/

/-- A map from keys to values, slot by slot. -/
structure RewrittenNodes where
  keys : List UInt64
  values : List UInt64
  len : Nat

namespace RewrittenNodes

/-- The assertion of the map. -/
def memoizedTwice : String :=
  "a source record was memoized twice; the memo probe or the path set is broken"

/-- The empty map. -/
def new : RewrittenNodes := ⟨List.replicate initialSlots 0, List.replicate initialSlots 0, 0⟩

/-- The value of a key. -/
def get (nodes : RewrittenNodes) (key : UInt64) : Run (Option UInt64) := do
  match ← probe nodes.keys key with
  | none => return none
  | some slot =>
    match nodes.values[slot]? with
    | some value => return some value
    | none => throw .indexOutOfBounds

/-- Puts an entry into a free slot. -/
def insertWithoutGrowing (nodes : RewrittenNodes) (key value : UInt64) : Run RewrittenNodes := do
  let slot ← freeSlot memoizedTwice nodes.keys key
  if slot < nodes.values.length then
    return ⟨nodes.keys.set slot key, nodes.values.set slot value, nodes.len⟩
  else throw .indexOutOfBounds

/-- Puts all entries into a table of twice the size. -/
def grow (nodes : RewrittenNodes) : Run RewrittenNodes :=
  ((nodes.keys.zip nodes.values).filter (·.1 ≠ 0)).foldlM
    (fun nodes entry => nodes.insertWithoutGrowing entry.1 entry.2)
    ⟨List.replicate (nodes.keys.length * 2) 0, List.replicate (nodes.values.length * 2) 0,
      nodes.len⟩

/-- Grows at seven tenths of the slots. -/
def makeRoom (nodes : RewrittenNodes) : Run RewrittenNodes :=
  if growsFor nodes.len nodes.keys.length then nodes.grow else pure nodes

/-- Puts an entry in, in a larger table when the old one is nearly full. -/
def insert (nodes : RewrittenNodes) (key value : UInt64) : Run RewrittenNodes := do
  let grown ← nodes.makeRoom
  let nodes ← grown.insertWithoutGrowing key value
  return { nodes with len := nodes.len + 1 }

variable {nodes : RewrittenNodes} {len : Nat} {key value : UInt64}

/-- The map has this value at this key. -/
def Holds (nodes : RewrittenNodes) (key value : UInt64) : Prop :=
  ProbeTable.Holds nodes.keys nodes.values key value

/-- Every slot has a key and a value. -/
structure Sound (nodes : RewrittenNodes) (len : Nat) : Prop where
  keys : PackedRecords.Sound nodes.keys len
  values : nodes.values.length = nodes.keys.length

section

variable (h : nodes.Sound len)
include h

/-- A value that is held is found. -/
theorem get_holds (hkey : key ≠ 0) (hvalue : nodes.Holds key value) :
    nodes.get key = pure (some value) := by
  obtain ⟨slot, hslot, hstands⟩ := hvalue
  obtain ⟨slot', hprobe, hslot'⟩ := h.keys.probe_mem hkey (List.mem_of_getElem? hslot)
  cases h.keys.placed.slot_unique hkey hslot hslot'
  rw [get, hprobe, pure_bind]
  dsimp only
  rw [hstands]

/-- A key that is not there has no value. -/
theorem get_not_mem (hkey : key ≠ 0) (hmem : key ∉ nodes.keys) :
    nodes.get key = pure none := by
  rw [get, h.keys.probe_not_mem hkey hmem]
  rfl

/-- A key that is there fails the assertion. -/
theorem insertWithoutGrowing_mem (hkey : key ≠ 0) (hmem : key ∈ nodes.keys) (value : UInt64) :
    nodes.insertWithoutGrowing key value = throw (.message memoizedTwice) := by
  rw [insertWithoutGrowing, h.keys.freeSlot_mem hkey hmem]
  rfl

/-- A new key is put in, and all other entries stay. -/
theorem insertWithoutGrowing_not_mem (hkey : key ≠ 0)
    (hmem : key ∉ nodes.keys) (hspare : (len + 1) * 10 < nodes.keys.length * 7) (value : UInt64) :
    ∃ placed, nodes.insertWithoutGrowing key value = pure placed ∧ placed.Sound (len + 1) ∧
      placed.keys.length = nodes.keys.length ∧ placed.len = nodes.len ∧
      ∀ other value', other ≠ 0 →
        (placed.Holds other value' ↔ (other = key ∧ value' = value) ∨ nodes.Holds other value') := by
  obtain ⟨slot, hslot, hfree, hsound⟩ := h.keys.freeSlot_not_mem hkey hmem hspare memoizedTwice
  have hlt : slot < nodes.values.length :=
    h.values ▸ (List.getElem?_eq_some_iff.mp hfree).1
  refine ⟨⟨nodes.keys.set slot key, nodes.values.set slot value, nodes.len⟩, ?_, ⟨hsound, ?_⟩,
    length_set, rfl, fun other value' hother => ProbeTable.holds_set hfree hlt hother⟩
  · rw [insertWithoutGrowing, hslot, pure_bind, if_pos hlt]
  · rw [length_set, length_set]
    exact h.values

/-- Entries whose keys are not in a table are placed one after the other. -/
theorem foldlM_place {entries : List (UInt64 × UInt64)} (hnodup : (entries.map Prod.fst).Nodup)
    (hnew : ∀ entry ∈ entries, entry.1 ≠ 0 ∧ entry.1 ∉ nodes.keys)
    (hspare : (len + entries.length) * 10 < nodes.keys.length * 7) :
    ∃ placed, entries.foldlM
        (fun nodes entry => nodes.insertWithoutGrowing entry.1 entry.2) nodes = pure placed ∧
      placed.Sound (len + entries.length) ∧ placed.keys.length = nodes.keys.length ∧
      placed.len = nodes.len ∧
      ∀ key value, key ≠ 0 →
        (placed.Holds key value ↔ (key, value) ∈ entries ∨ nodes.Holds key value) := by
  induction entries generalizing nodes len with
  | nil => exact ⟨nodes, rfl, h, rfl, rfl, fun key value _ => by simp⟩
  | cons entry entries ih =>
    rw [length_cons] at hspare
    obtain ⟨hnotin, hnodup⟩ := List.nodup_cons.mp hnodup
    obtain ⟨hentry, hmem⟩ := hnew entry List.mem_cons_self
    obtain ⟨nodes', hplace, hsound, hlength, hlen, hholds⟩ :=
      insertWithoutGrowing_not_mem h hentry hmem (by omega) entry.2
    obtain ⟨placed, hfold, hplaced, hlength', hlen', hall⟩ := ih hsound hnodup
      (fun other hother => by
        obtain ⟨hnonzero, hout⟩ := hnew other (List.mem_cons_of_mem _ hother)
        refine ⟨hnonzero, fun hin => ?_⟩
        obtain ⟨value, hvalue⟩ := (exists_holds hsound.values).mpr hin
        rcases (hholds _ _ hnonzero).mp hvalue with ⟨heq, -⟩ | hold
        · exact hnotin (heq ▸ List.mem_map_of_mem hother)
        · exact hout ((exists_holds h.values).mp ⟨value, hold⟩))
      (by omega)
    refine ⟨placed, ?_, ?_, hlength'.trans hlength, hlen'.trans hlen, fun key value hkey => ?_⟩
    · rw [List.foldlM_cons, hplace, pure_bind, hfold]
    · rw [length_cons, Nat.add_comm entries.length, ← Nat.add_assoc]
      exact hplaced
    · rw [hall key value hkey, hholds key value hkey, List.mem_cons, Prod.ext_iff]
      tauto

/-- A table that grows holds what it held. -/
theorem grow_spec :
    ∃ grown, nodes.grow = pure grown ∧ grown.Sound len ∧
      grown.keys.length = nodes.keys.length * 2 ∧ grown.len = nodes.len ∧
      ∀ key value, key ≠ 0 → (grown.Holds key value ↔ nodes.Holds key value) := by
  have hfirst : ((nodes.keys.zip nodes.values).filter (·.1 ≠ 0)).map Prod.fst =
      nodes.keys.filter (· ≠ 0) := by
    rw [← List.map_fst_zip (Nat.le_of_eq h.values.symm), List.filter_map,
      List.map_fst_zip (Nat.le_of_eq h.values.symm)]
    rfl
  have hlength : ((nodes.keys.zip nodes.values).filter (·.1 ≠ 0)).length = len := by
    rw [← List.length_map Prod.fst, hfirst]
    exact List.countP_eq_length_filter.symm.trans h.keys.occupied
  have hspare := h.keys.spare
  have hempty : (⟨List.replicate (nodes.keys.length * 2) 0,
      List.replicate (nodes.values.length * 2) 0, nodes.len⟩ : RewrittenNodes).Sound 0 := by
    refine ⟨h.keys.doubled, ?_⟩
    rw [length_replicate, length_replicate, h.values]
  obtain ⟨grown, hfold, hsound, hslots, hlen, hholds⟩ := foldlM_place hempty
    (hfirst ▸ h.keys.placed.nodup)
    (fun entry hentry => by
      have hnonzero := of_decide_eq_true (mem_filter.mp hentry).2
      exact ⟨hnonzero, fun hin => hnonzero (eq_of_mem_replicate hin)⟩)
    (by rw [hlength, length_replicate]; omega)
  rw [hlength, Nat.zero_add] at hsound
  rw [length_replicate] at hslots
  refine ⟨grown, hfold, hsound, hslots, hlen, fun key value hkey => ?_⟩
  rw [hholds key value hkey, mem_filter, decide_eq_true_iff, ← ProbeTable.holds_iff_mem_zip]
  refine ⟨fun hin => ?_, fun hin => .inl ⟨hin, hkey⟩⟩
  rcases hin with hin | ⟨slot, hslot, -⟩
  · exact hin.1
  · exact absurd (eq_of_mem_replicate (List.mem_of_getElem? hslot)) hkey

end

/-- The table that an insertion places its entry in. -/
theorem makeRoom_spec (h : nodes.Sound nodes.len) :
    ∃ grown, nodes.makeRoom = pure grown ∧
      grown.Sound nodes.len ∧ (nodes.len + 1) * 10 < grown.keys.length * 7 ∧
      grown.len = nodes.len ∧
      ∀ key value, key ≠ 0 → (grown.Holds key value ↔ nodes.Holds key value) := by
  have hspare := h.keys.spare
  rw [makeRoom]
  cases hgrows : growsFor nodes.len nodes.keys.length with
  | true =>
    obtain ⟨grown, hgrow, hsound, hslots, hlen, hholds⟩ := grow_spec h
    have hinitial := h.keys.initial_le
    rw [initialSlots] at hinitial
    exact ⟨grown, (if_pos rfl).trans hgrow, hsound, by omega, hlen, hholds⟩
  | false =>
    exact ⟨nodes, if_neg Bool.false_ne_true, h, Nat.lt_of_not_ge (of_decide_eq_false hgrows), rfl,
      fun key value _ => Iff.rfl⟩

/-- A second insertion of a key fails the assertion. -/
theorem insert_mem (h : nodes.Sound nodes.len) (hkey : key ≠ 0) (hmem : key ∈ nodes.keys)
    (value : UInt64) : nodes.insert key value = throw (.message memoizedTwice) := by
  obtain ⟨grown, hgrown, hsound, -, -, hholds⟩ := makeRoom_spec h
  obtain ⟨value', hvalue⟩ := (exists_holds h.values).mpr hmem
  have hin := (exists_holds hsound.values).mp ⟨value', (hholds _ _ hkey).mpr hvalue⟩
  rw [insert, hgrown, pure_bind, insertWithoutGrowing_mem hsound hkey hin]
  rfl

/-- A first insertion keeps all other entries. -/
theorem insert_not_mem (h : nodes.Sound nodes.len) (hkey : key ≠ 0) (hmem : key ∉ nodes.keys)
    (value : UInt64) :
    ∃ inserted, nodes.insert key value = pure inserted ∧ inserted.Sound inserted.len ∧
      ∀ other value', other ≠ 0 →
        (inserted.Holds other value' ↔
          (other = key ∧ value' = value) ∨ nodes.Holds other value') := by
  obtain ⟨grown, hgrown, hsound, hspare, hlen, hholds⟩ := makeRoom_spec h
  have hout : key ∉ grown.keys := by
    intro hin
    obtain ⟨value', hvalue⟩ := (exists_holds hsound.values).mpr hin
    exact hmem ((exists_holds h.values).mp ⟨value', (hholds _ _ hkey).mp hvalue⟩)
  obtain ⟨placed, hplace, hplaced, -, hlen', hall⟩ :=
    insertWithoutGrowing_not_mem hsound hkey hout hspare value
  refine ⟨{ placed with len := placed.len + 1 }, ?_, ⟨?_, hplaced.values⟩, fun other value' hother =>
    (hall other value' hother).trans (or_congr_right (hholds other value' hother))⟩
  · rw [insert, hgrown, pure_bind, hplace, pure_bind]
  · dsimp only
    rw [hlen', hlen]
    exact hplaced.keys

end RewrittenNodes

/-- The memo of a copy, and the interner that its records are packed with. -/
structure Memo where
  segments : SegmentInterner
  rewrittenNodes : RewrittenNodes

namespace Memo

/-- The empty memo. -/
def new : Memo := ⟨.new, .new⟩

/-- The lookup before a node is copied. -/
def get (memo : Memo) (sourceNode : RecordIdentifier) : Run (Option RecordIdentifier × Memo) := do
  let (packed, segments) ← memo.segments.pack sourceNode
  match ← memo.rewrittenNodes.get packed with
  | none => return (none, ⟨segments, memo.rewrittenNodes⟩)
  | some rewritten =>
    let record ← segments.unpack rewritten
    return (some record, ⟨segments, memo.rewrittenNodes⟩)

/-- The insertion once a node is copied. -/
def insert (memo : Memo) (sourceNode rewritten : RecordIdentifier) : Run Memo := do
  let (packedSource, segments) ← memo.segments.pack sourceNode
  let (packedRewritten, segments) ← segments.pack rewritten
  let rewrittenNodes ← memo.rewrittenNodes.insert packedSource packedRewritten
  return ⟨segments, rewrittenNodes⟩

end Memo

/-! ## Runs of packings -/

namespace SegmentInterner

/-- The keys of records. -/
def packAll (interner : SegmentInterner) :
    List RecordIdentifier → Run (List UInt64 × SegmentInterner)
  | [] => pure ([], interner)
  | record :: records => do
    let (key, interner) ← interner.pack record
    let (keys, interner) ← interner.packAll records
    return (key :: keys, interner)

theorem packAll_ok {interner later : SegmentInterner} {records : List RecordIdentifier}
    {keys : List UInt64} (hvalid : interner.Valid)
    (h : interner.packAll records = pure (keys, later)) :
    later.Valid ∧ later.Extends interner ∧
      List.Forall₂ (fun record key => later.packExisting record = some key) records keys := by
  induction records generalizing interner keys with
  | nil =>
    cases h
    exact ⟨hvalid, fun _ _ hlookup => hlookup, .nil⟩
  | cons record records ih =>
    rw [packAll] at h
    cases hname : name interner.indices.keys record.segment with
    | error panic =>
      rw [pack_error hvalid hname] at h
      cases h
    | ok named =>
      obtain ⟨key, between, hpack, hbetween, hextends, -, hkey⟩ := pack_ok hvalid hname
      rw [hpack, pure_bind] at h
      dsimp only at h
      obtain ⟨⟨rest, latest⟩, hrest, heq⟩ := bind_pure_ok h
      cases heq
      obtain ⟨hlater, hextends', hall⟩ := ih hbetween hrest
      exact ⟨hlater, hextends.trans hextends', .cons (hextends'.packExisting hkey) hall⟩

end SegmentInterner

/-! ## Runs of calls -/

/-- The answers of a row of calls. -/
def answers {m : Type → Type} [Monad m] {state call answer : Type}
    (step : state → call → m (answer × state)) (before : state) : List call → m (List answer)
  | [] => pure []
  | call :: calls => do
    let (answer, after) ← step before call
    let rest ← answers step after calls
    return answer :: rest

section

variable {concrete abstracted call answer : Type} {agrees : concrete → abstracted → Prop}

/-- A call that answers and panics as an abstract one does. -/
def Simulates (agrees : concrete → abstracted → Prop) (actual : Run (answer × concrete)) :
    Except Panic (answer × abstracted) → Prop
  | .error panic => actual = throw panic
  | .ok (answer, expected) => ∃ after, actual = pure (answer, after) ∧ agrees after expected

/-- A simulation gives the same answers. -/
theorem answers_eq {step : concrete → call → Run (answer × concrete)}
    {expectedStep : abstracted → call → Except Panic (answer × abstracted)}
    (hstep : ∀ before expected call, agrees before expected →
      Simulates agrees (step before call) (expectedStep expected call))
    {before : concrete} {expected : abstracted} (h : agrees before expected) (calls : List call) :
    (answers step before calls).run = some (answers expectedStep expected calls) := by
  induction calls generalizing before expected with
  | nil => rfl
  | cons call calls ih =>
    have hcall := hstep before expected call h
    rw [answers, answers]
    cases houtcome : expectedStep expected call with
    | error panic =>
      rw [houtcome] at hcall
      rw [show step before call = throw panic from hcall]
      rfl
    | ok result =>
      rw [houtcome] at hcall
      obtain ⟨after, hactual, hagrees⟩ := hcall
      have hrest := ih hagrees
      rw [hactual, pure_bind, Except.ok_bind_eq]
      dsimp only
      rw [ExceptT.run_bind, hrest]
      cases answers expectedStep result.2 calls with
      | error panic => rfl
      | ok rest => rfl

end

/-! ## The set refines a set -/

/-- The calls of the set. -/
inductive SetCall where
  | contains (record : RecordIdentifier)
  | insert (record : RecordIdentifier)
deriving DecidableEq, Repr

/-- One call of the set. -/
def PackedRecordSet.call (set : PackedRecordSet) : SetCall → Run (Option Bool × PackedRecordSet)
  | .contains record => do return (some (← set.contains record), set)
  | .insert record => do return (none, ← set.insert record)

/-- A set of records, and the segments that they name. -/
structure RecordSet where
  segments : Finset SegmentIdentifier
  records : Finset RecordIdentifier

namespace RecordSet

/-- No record. -/
def empty : RecordSet := ⟨∅, ∅⟩

/-- One call of the specification. -/
def call (set : RecordSet) : SetCall → Except Panic (Option Bool × RecordSet)
  | .contains record => .ok (some (decide (record ∈ set.records)), set)
  | .insert record => do
    let segments ← name set.segments record.segment
    if record ∈ set.records then .error (.message PackedRecordSet.certifiedTwice)
    else .ok (none, ⟨segments, insert record set.records⟩)

end RecordSet

namespace PackedRecordSet

/-- The keys of a table are those of the records of a set. -/
structure Agrees (set : PackedRecordSet) (expected : RecordSet) : Prop where
  valid : set.segments.Valid
  named : set.segments.indices.keys = expected.segments
  sound : Sound set.keys set.len
  len : set.len = expected.records.card
  known : ∀ record ∈ expected.records, ∃ key, set.segments.packExisting record = some key
  holds : ∀ key, key ≠ 0 →
    (key ∈ set.keys ↔ ∃ record ∈ expected.records, set.segments.packExisting record = some key)

variable {set : PackedRecordSet} {expected : RecordSet}

/-- The empty set agrees with no record. -/
theorem agrees_new : new.Agrees .empty where
  valid := SegmentInterner.valid_new
  named := rfl
  sound := .replicate 0
  len := rfl
  known := nofun
  holds _ hkey :=
    ⟨fun hin => absurd (eq_of_mem_replicate hin) hkey, fun ⟨_, hrecord, _⟩ => nomatch hrecord⟩

section

variable (h : set.Agrees expected)
include h

/-- A table holds the key of a record just when the set holds the record. -/
theorem Agrees.mem_keys {later : SegmentInterner}
    (hvalid : later.Valid) (hextends : later.Extends set.segments) {record : RecordIdentifier}
    {key : UInt64} (hkey : later.packExisting record = some key) :
    key ∈ set.keys ↔ record ∈ expected.records := by
  rw [h.holds key (hvalid.packExisting_ne_zero hkey)]
  constructor
  · rintro ⟨other, hother, hkey'⟩
    rwa [hvalid.packExisting_inj hkey (hextends.packExisting hkey')]
  · intro hrecord
    obtain ⟨key', hkey'⟩ := h.known record hrecord
    cases (hextends.packExisting hkey').symm.trans hkey
    exact ⟨record, hrecord, hkey'⟩

/-- The set has exactly the records of the specification. -/
theorem contains_eq (record : RecordIdentifier) :
    set.contains record = pure (decide (record ∈ expected.records)) := by
  rw [contains]
  cases hpack : set.segments.packExisting record with
  | none =>
    dsimp only
    rw [decide_eq_false fun hrecord => ?_]
    obtain ⟨key, hkey⟩ := h.known record hrecord
    cases hpack.symm.trans hkey
  | some key =>
    have hmem := h.mem_keys h.valid (fun _ _ hlookup => hlookup) hpack
    have hnonzero := h.valid.packExisting_ne_zero hpack
    dsimp only
    by_cases hrecord : record ∈ expected.records
    · obtain ⟨slot, hprobe, -⟩ := h.sound.probe_mem hnonzero (hmem.mpr hrecord)
      rw [hprobe, decide_eq_true hrecord]
      rfl
    · rw [h.sound.probe_not_mem hnonzero fun hin => hrecord (hmem.mp hin),
        decide_eq_false hrecord]
      rfl

/-- An insertion is that of the specification. -/
theorem simulates_insert (record : RecordIdentifier) :
    Simulates Agrees (set.call (.insert record)) (expected.call (.insert record)) := by
  obtain ⟨grown, hgrown, hsound, hspare, hkeys⟩ := makeRoom_spec h.sound
  rw [call, insert, hgrown, pure_bind, RecordSet.call, ← h.named]
  cases hname : name set.segments.indices.keys record.segment with
  | error panic =>
    rw [SegmentInterner.pack_error h.valid hname]
    rfl
  | ok named =>
    obtain ⟨key, later, hpack, hvalid, hextends, hnamed, hkey⟩ :=
      SegmentInterner.pack_ok h.valid hname
    have hnonzero := hvalid.packExisting_ne_zero hkey
    have hmem := (hkeys key hnonzero).trans (h.mem_keys hvalid hextends hkey)
    rw [hpack, pure_bind, Except.ok_bind_eq]
    dsimp only
    by_cases hrecord : record ∈ expected.records
    · rw [place_mem hsound hnonzero (hmem.mpr hrecord), if_pos hrecord]
      rfl
    · obtain ⟨placed, hplace, hplaced, -, hall⟩ :=
        place_not_mem hsound hnonzero (fun hin => hrecord (hmem.mp hin)) hspare
      rw [hplace, if_neg hrecord]
      refine ⟨⟨later, placed, set.len + 1⟩, rfl, hvalid, hnamed, hplaced, ?_, ?_, ?_⟩
      · rw [Finset.card_insert_of_notMem hrecord, h.len]
      · intro other hother
        rcases Finset.mem_insert.mp hother with rfl | hold
        · exact ⟨key, hkey⟩
        · exact (h.known other hold).imp fun key hkey => hextends.packExisting hkey
      · intro other hother
        rw [hall other hother, hkeys other hother, h.holds other hother]
        constructor
        · rintro (rfl | ⟨record', hold, hkey'⟩)
          · exact ⟨record, Finset.mem_insert_self .., hkey⟩
          · exact ⟨record', Finset.mem_insert_of_mem hold, hextends.packExisting hkey'⟩
        · rintro ⟨record', hin, hkey'⟩
          rcases Finset.mem_insert.mp hin with rfl | hold
          · exact .inl (Option.some.inj (hkey'.symm.trans hkey))
          · obtain ⟨key'', hkey''⟩ := h.known record' hold
            cases (hextends.packExisting hkey'').symm.trans hkey'
            exact .inr ⟨record', hold, hkey''⟩

/-- A call is that of the specification. -/
theorem simulates_call (call : SetCall) :
    Simulates Agrees (set.call call) (expected.call call) := by
  cases call with
  | contains record =>
    rw [PackedRecordSet.call, contains_eq h]
    exact ⟨set, rfl, h⟩
  | insert record => exact simulates_insert h record

end

end PackedRecordSet

/-! ## The memo refines a map -/

/-- The calls of the memo. -/
inductive MemoCall where
  | get (sourceNode : RecordIdentifier)
  | insert (sourceNode rewritten : RecordIdentifier)
deriving DecidableEq, Repr

/-- One call of the memo. -/
def Memo.call (memo : Memo) : MemoCall → Run (Option (Option RecordIdentifier) × Memo)
  | .get sourceNode => do
    let (rewritten, memo) ← memo.get sourceNode
    return (some rewritten, memo)
  | .insert sourceNode rewritten => do return (none, ← memo.insert sourceNode rewritten)

/-- A map of records, and the segments that calls have named. -/
structure RecordMap where
  segments : Finset SegmentIdentifier
  records : Finmap fun _ : RecordIdentifier => RecordIdentifier

namespace RecordMap

/-- No entry. -/
def empty : RecordMap := ⟨∅, ∅⟩

/-- One call of the specification of the memo. -/
def call (map : RecordMap) : MemoCall → Except Panic (Option (Option RecordIdentifier) × RecordMap)
  | .get sourceNode => do
    let segments ← name map.segments sourceNode.segment
    return (some (map.records.lookup sourceNode), ⟨segments, map.records⟩)
  | .insert sourceNode rewritten => do
    let segments ← name map.segments sourceNode.segment
    let segments ← name segments rewritten.segment
    if sourceNode ∈ map.records then .error (.message RewrittenNodes.memoizedTwice)
    else .ok (none, ⟨segments, map.records.insert sourceNode rewritten⟩)

end RecordMap

namespace Memo

/-- The entries of a table are those of a map, packed. -/
structure Agrees (memo : Memo) (expected : RecordMap) : Prop where
  valid : memo.segments.Valid
  named : memo.segments.indices.keys = expected.segments
  sound : memo.rewrittenNodes.Sound memo.rewrittenNodes.len
  known : ∀ sourceNode rewritten, expected.records.lookup sourceNode = some rewritten →
    (∃ key, memo.segments.packExisting sourceNode = some key) ∧
      ∃ value, memo.segments.packExisting rewritten = some value
  holds : ∀ key value, key ≠ 0 → (memo.rewrittenNodes.Holds key value ↔
    ∃ sourceNode rewritten, expected.records.lookup sourceNode = some rewritten ∧
      memo.segments.packExisting sourceNode = some key ∧
      memo.segments.packExisting rewritten = some value)

variable {memo : Memo} {expected : RecordMap} {later : SegmentInterner}

/-- The empty memo agrees with no entry. -/
theorem agrees_new : new.Agrees .empty where
  valid := SegmentInterner.valid_new
  named := rfl
  sound := ⟨.replicate 0, rfl⟩
  known sourceNode rewritten hlookup := by
    rw [RecordMap.empty, lookup_empty] at hlookup
    cases hlookup
  holds key value hkey := by
    constructor
    · rintro ⟨slot, hslot, -⟩
      exact absurd (eq_of_mem_replicate (List.mem_of_getElem? hslot)) hkey
    · rintro ⟨sourceNode, rewritten, hlookup, -⟩
      rw [RecordMap.empty, lookup_empty] at hlookup
      cases hlookup

/-- An interner that knows more agrees as well. -/
theorem Agrees.extend (h : memo.Agrees expected) (hvalid : later.Valid)
    (hextends : later.Extends memo.segments) :
    Agrees ⟨later, memo.rewrittenNodes⟩ ⟨later.indices.keys, expected.records⟩ where
  valid := hvalid
  named := rfl
  sound := h.sound
  known sourceNode rewritten hlookup :=
    (h.known sourceNode rewritten hlookup).imp
      (fun hkey => hkey.imp fun _ hkey => hextends.packExisting hkey)
      fun hvalue => hvalue.imp fun _ hvalue => hextends.packExisting hvalue
  holds key value hkey := by
    rw [h.holds key value hkey]
    refine exists_congr fun sourceNode => exists_congr fun rewritten =>
      and_congr_right fun hlookup => ?_
    obtain ⟨⟨key', hkey'⟩, value', hvalue'⟩ := h.known sourceNode rewritten hlookup
    rw [hkey', hvalue', hextends.packExisting hkey', hextends.packExisting hvalue']

variable {sourceNode : RecordIdentifier}

section

variable (h : memo.Agrees expected)
include h

theorem Agrees.lookup_of_holds
    {key value : UInt64} (hkey : memo.segments.packExisting sourceNode = some key)
    (hvalue : memo.rewrittenNodes.Holds key value) :
    ∃ rewritten, expected.records.lookup sourceNode = some rewritten ∧
      memo.segments.packExisting rewritten = some value := by
  obtain ⟨other, rewritten, hlookup, hkey', hvalue'⟩ :=
    (h.holds key value (h.valid.packExisting_ne_zero hkey)).mp hvalue
  cases h.valid.packExisting_inj hkey hkey'
  exact ⟨rewritten, hlookup, hvalue'⟩

/-- The keys are those of the specification. -/
theorem Agrees.mem_keys {key : UInt64} (hkey : memo.segments.packExisting sourceNode = some key) :
    key ∈ memo.rewrittenNodes.keys ↔ sourceNode ∈ expected.records := by
  rw [← exists_holds h.sound.values, ← Finmap.lookup_isSome,
    Option.isSome_iff_exists]
  constructor
  · rintro ⟨value, hvalue⟩
    exact (h.lookup_of_holds hkey hvalue).imp fun _ hlookup => hlookup.1
  · rintro ⟨rewritten, hlookup⟩
    obtain ⟨-, value, hvalue⟩ := h.known sourceNode rewritten hlookup
    exact ⟨value, (h.holds key value (h.valid.packExisting_ne_zero hkey)).mpr
      ⟨sourceNode, rewritten, hlookup, hkey, hvalue⟩⟩

/-- A lookup is that of the specification. -/
theorem simulates_get (sourceNode : RecordIdentifier) :
    Simulates Agrees (memo.call (.get sourceNode)) (expected.call (.get sourceNode)) := by
  rw [call, get, RecordMap.call, ← h.named]
  cases hname : name memo.segments.indices.keys sourceNode.segment with
  | error panic =>
    rw [SegmentInterner.pack_error h.valid hname]
    rfl
  | ok named =>
    obtain ⟨key, later, hpack, hvalid, hextends, rfl, hkey⟩ :=
      SegmentInterner.pack_ok h.valid hname
    have hlater := h.extend hvalid hextends
    have hnonzero := hvalid.packExisting_ne_zero hkey
    rw [hpack, pure_bind, Except.ok_bind_eq]
    dsimp only
    cases hlookup : expected.records.lookup sourceNode with
    | none =>
      have hout : key ∉ memo.rewrittenNodes.keys := fun hin =>
        Finmap.lookup_eq_none.mp hlookup ((hlater.mem_keys hkey).mp hin)
      rw [RewrittenNodes.get_not_mem h.sound hnonzero hout]
      exact ⟨_, rfl, hlater⟩
    | some rewritten =>
      obtain ⟨-, value, hvalue⟩ := hlater.known sourceNode rewritten hlookup
      have hholds := (hlater.holds key value hnonzero).mpr
        ⟨sourceNode, rewritten, hlookup, hkey, hvalue⟩
      rw [RewrittenNodes.get_holds h.sound hnonzero hholds, pure_bind]
      dsimp only
      rw [hvalid.unpack hvalue]
      exact ⟨_, rfl, hlater⟩

/-- An insertion is that of the specification of the memo. -/
theorem simulates_insert (sourceNode rewritten : RecordIdentifier) :
    Simulates Agrees (memo.call (.insert sourceNode rewritten))
      (expected.call (.insert sourceNode rewritten)) := by
  rw [call, insert, RecordMap.call, ← h.named]
  cases hname : name memo.segments.indices.keys sourceNode.segment with
  | error panic =>
    rw [SegmentInterner.pack_error h.valid hname]
    rfl
  | ok named =>
    obtain ⟨key, between, hpack, hbetween, hextends, rfl, hkey⟩ :=
      SegmentInterner.pack_ok h.valid hname
    rw [hpack, pure_bind, Except.ok_bind_eq]
    dsimp only
    cases hname' : name between.indices.keys rewritten.segment with
    | error panic =>
      rw [SegmentInterner.pack_error hbetween hname']
      rfl
    | ok named =>
      obtain ⟨value, later, hpack', hvalid, hextends', rfl, hvalue⟩ :=
        SegmentInterner.pack_ok hbetween hname'
      have hlater := h.extend hvalid (hextends.trans hextends')
      have hkey' := hextends'.packExisting hkey
      have hnonzero := hvalid.packExisting_ne_zero hkey'
      have hmem := hlater.mem_keys hkey'
      rw [hpack', pure_bind, Except.ok_bind_eq]
      dsimp only
      by_cases hin : sourceNode ∈ expected.records
      · rw [RewrittenNodes.insert_mem h.sound hnonzero (hmem.mpr hin), if_pos hin]
        rfl
      · obtain ⟨inserted, hinsert, hsound, hall⟩ :=
          RewrittenNodes.insert_not_mem h.sound hnonzero (fun hin' => hin (hmem.mp hin')) value
        rw [hinsert, if_neg hin]
        refine ⟨⟨later, inserted⟩, rfl, hvalid, rfl, hsound, ?_, ?_⟩
        · intro other rewritten' hlookup
          by_cases hother : other = sourceNode
          · subst hother
            rw [lookup_insert] at hlookup
            cases hlookup
            exact ⟨⟨key, hkey'⟩, value, hvalue⟩
          · rw [lookup_insert_of_ne _ hother] at hlookup
            exact hlater.known other rewritten' hlookup
        · intro other value' hother
          rw [hall other value' hother]
          constructor
          · rintro (⟨rfl, rfl⟩ | hold)
            · exact ⟨sourceNode, rewritten, lookup_insert _, hkey', hvalue⟩
            · obtain ⟨node, rewritten', hlookup, hkeys⟩ := (hlater.holds other value' hother).mp hold
              have hne : node ≠ sourceNode := by
                rintro rfl
                exact hin (Finmap.mem_of_lookup_eq_some hlookup)
              exact ⟨node, rewritten', (lookup_insert_of_ne _ hne).trans hlookup, hkeys⟩
          · rintro ⟨node, rewritten', hlookup, hnode, hstands⟩
            by_cases hne : node = sourceNode
            · subst hne
              rw [lookup_insert] at hlookup
              cases hlookup
              exact .inl ⟨Option.some.inj (hnode.symm.trans hkey'),
                Option.some.inj (hstands.symm.trans hvalue)⟩
            · rw [lookup_insert_of_ne _ hne] at hlookup
              exact .inr ((hlater.holds other value' hother).mpr
                ⟨node, rewritten', hlookup, hnode, hstands⟩)

/-- A call is that of the specification of the memo. -/
theorem simulates_call (call : MemoCall) :
    Simulates Agrees (memo.call call) (expected.call call) := by
  cases call with
  | get sourceNode => exact simulates_get h sourceNode
  | insert sourceNode rewritten => exact simulates_insert h sourceNode rewritten

end

end Memo

/-! ## The tables as sets and maps -/

/-- The two tables answer as a set and a map do, and panic where these do: for the segment that
is one too many, and for a record that is inserted again.  Packed records are told apart, and
they are unpacked. -/
theorem tables_refine :
    (∀ calls, (answers PackedRecordSet.call .new calls).run =
      some (answers RecordSet.call .empty calls)) ∧
    (∀ calls, (answers Memo.call .new calls).run = some (answers RecordMap.call .empty calls)) ∧
    ∀ records keys interner, SegmentInterner.new.packAll records = pure (keys, interner) →
      keys.length = records.length ∧
      (∀ i j : Nat, keys[i]? = keys[j]? ↔ records[i]? = records[j]?) ∧
      ∀ (i : Nat) record key, records[i]? = some record → keys[i]? = some key →
        interner.unpack key = pure record := by
  refine ⟨answers_eq (fun _ _ call h => PackedRecordSet.simulates_call h call)
      PackedRecordSet.agrees_new,
    answers_eq (fun _ _ call h => Memo.simulates_call h call) Memo.agrees_new,
    fun records keys interner hpack => ?_⟩
  obtain ⟨hvalid, -, hall⟩ := SegmentInterner.packAll_ok SegmentInterner.valid_new hpack
  have hkeys : keys.map some = records.map interner.packExisting := by
    clear hpack
    induction hall with
    | nil => rfl
    | cons hkey _ ih => rw [List.map_cons, List.map_cons, ih, hkey]
  have hlength : keys.length = records.length := hall.length_eq.symm
  have hat : ∀ i : Nat, keys[i]?.map some = records[i]?.map interner.packExisting := fun i => by
    rw [← List.getElem?_map, hkeys, List.getElem?_map]
  refine ⟨hlength, fun i j => ⟨fun heq => ?_, fun heq => ?_⟩, fun i record key hrecord hkey => ?_⟩
  · have hi := hat i
    have hj := hat j
    rw [heq, hj] at hi
    cases hrecord : records[i]? with
    | none =>
      rw [hrecord] at hi
      exact (Option.map_eq_none_iff.mp hi).symm
    | some record =>
      rw [hrecord] at hi
      obtain ⟨record', hrecord', hpacked⟩ := Option.map_eq_some_iff.mp hi
      rw [hrecord'] at hj
      obtain ⟨key, -, hkey⟩ := Option.map_eq_some_iff.mp hj
      rw [hrecord', hvalid.packExisting_inj (hpacked.symm.trans hkey.symm) hkey.symm]
  · have hi := hat i
    rw [heq, ← hat j] at hi
    exact Option.map_injective (Option.some_injective _) hi
  · have hi := hat i
    rw [hrecord, hkey] at hi
    exact hvalid.unpack (Option.some.inj hi).symm

/-- A set takes a record that is inserted again, the table panics. -/
theorem inserted_again_panics :
    ¬ ∀ calls : List SetCall, ∃ given, (answers PackedRecordSet.call .new calls).run =
      some (.ok given) := by
  intro h
  obtain ⟨given, hgiven⟩ := h [.insert ⟨⟨1, 1⟩, 1⟩, .insert ⟨⟨1, 1⟩, 1⟩]
  rw [answers_eq (fun _ _ call hagrees => PackedRecordSet.simulates_call hagrees call)
    PackedRecordSet.agrees_new] at hgiven
  have hpanics : answers RecordSet.call .empty
      [.insert ⟨⟨1, 1⟩, 1⟩, .insert ⟨⟨1, 1⟩, 1⟩] =
        .error (.message PackedRecordSet.certifiedTwice) := by decide
  rw [hpanics] at hgiven
  cases hgiven

end PackedRecords
end Froe
