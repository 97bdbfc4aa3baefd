import Froe.Content.MapLoops
import Froe.Content.MapTrie
import Froe.Lib.Metered

/-!
# Enumerations within limits

A bounded enumeration charges each record of a map before it reads it, counts each entry
before it reads its names, and charges the stored length of a name before it decodes it.  On
a map that can be enumerated it refuses exactly when the totals of the enumeration are not
within the limits (`spends_mapEntries`).
-/

namespace Froe

open List (append_nil cons_subset nil_subset)
open Except (bind_ok_iff ok_bind_eq pure_ok_iff)

open Metered
open Looped (collectVisits)

/-- The refusals of a bounded enumeration, and the errors of its reads. -/
inductive EnumerationError where
  | read (error : Error)
  | mapEntryBudgetExceeded (maximumEntries attemptedEntries : Nat)
  | stringMaterializationBudgetExceeded (maximumStoredBytes attemptedStoredBytes : Nat)
      (valueIdentifier : RecordIdentifier)
  | mapTraversalWorkBudgetExceeded (maximumWorkUnits attemptedWorkUnits : Nat)

/-- The limits of an enumeration.  A unit of work is a map record or a byte of a stored name. -/
structure EnumerationLimits where
  maximumEntries : Nat
  maximumStoredNameBytes : Nat
  maximumWorkUnits : Nat

/-- What an enumeration has collected, and the counters of its budget. -/
@[ext] structure Enumerated where
  entries : List CollectedEntry
  storedNameBytes : Nat
  visitedMapRecords : Nat

/-- The largest 64-bit number. -/
def u64Maximum : Nat := 2 ^ 64 - 1

/-- The saturating addition of 64-bit counters. -/
def saturatingAdd64 (a b : Nat) : Nat := min (a + b) u64Maximum

abbrev BoundedEnumeration := StateT Enumerated (Except EnumerationError)

/-- A read that charges nothing. -/
def reading {α : Type} (result : Result α) : BoundedEnumeration α :=
  match result with
  | .ok a => pure a
  | .error error => throw (.read error)

section

variable (provider : SegmentProvider) (limits : EnumerationLimits)

/-- Charges one record of a map. -/
def chargeMapRecord : BoundedEnumeration Unit := do
  let budget ← get
  let attemptedMapRecords := saturatingAdd64 budget.visitedMapRecords 1
  let attemptedWorkUnits := saturatingAdd64 attemptedMapRecords budget.storedNameBytes
  if attemptedWorkUnits > limits.maximumWorkUnits then
    throw (.mapTraversalWorkBudgetExceeded limits.maximumWorkUnits attemptedWorkUnits)
  else set { budget with visitedMapRecords := attemptedMapRecords }

/-- Charges the stored length of a name, and reads the name. -/
def readMapName (identifier : RecordIdentifier) : BoundedEnumeration String := do
  let storedLength ← reading (readStringStoredLength provider identifier)
  let budget ← get
  let attemptedStoredBytes := saturatingAdd64 budget.storedNameBytes storedLength
  let attemptedWorkUnits := saturatingAdd64 budget.visitedMapRecords attemptedStoredBytes
  if attemptedStoredBytes > limits.maximumStoredNameBytes then
    throw (.stringMaterializationBudgetExceeded limits.maximumStoredNameBytes
      attemptedStoredBytes identifier)
  else if attemptedWorkUnits > limits.maximumWorkUnits then
    throw (.mapTraversalWorkBudgetExceeded limits.maximumWorkUnits attemptedWorkUnits)
  else
    set { budget with storedNameBytes := attemptedStoredBytes }
    reading (readString provider identifier)

/-- Counts one more entry, and refuses before it is read. -/
def checkEntryCount : BoundedEnumeration Unit := do
  let budget ← get
  let attemptedEntries := saturatingAdd64 budget.entries.length 1
  if attemptedEntries > limits.maximumEntries then
    throw (.mapEntryBudgetExceeded limits.maximumEntries attemptedEntries)
  else return ()

/-- Collects one entry of a leaf. -/
def collectLeafEntry (view : SegmentView) (mapIdentifier : RecordIdentifier)
    (identifiersBase position : Nat) : BoundedEnumeration Unit := do
  checkEntryCount limits
  let keyIdentifier ← reading
    (view.readRecordIdentifier mapIdentifier.recordNumber identifiersBase (position * 2))
  let value ← reading
    (view.readRecordIdentifier mapIdentifier.recordNumber identifiersBase (position * 2 + 1))
  let name ← readMapName provider limits keyIdentifier
  modify fun budget => { budget with entries := budget.entries ++ [⟨name, keyIdentifier, value⟩] }

/-- Expands one record that has been charged: collects the entries of a leaf, or returns the
records to be expanded next. -/
def expandWithin (mapIdentifier : RecordIdentifier) (view : SegmentView) (head : UInt32) :
    BoundedEnumeration (List RecordIdentifier) := do
  if head = diffHead then
    let base ← reading (view.readRecordIdentifier mapIdentifier.recordNumber 8 2)
    return [base]
  else
    let size := (head &&& sizeMask).toNat
    let level := (head >>> levelShift).toNat
    if size = 0 then return []
    else if size > bucketsPerLevel ∧ level < maximumLevel then
      let bitmap ← reading (view.readU32 mapIdentifier.recordNumber 4)
      let buckets ← reading ((List.range (countOnes bitmap)).mapM fun bucketPosition =>
        view.readRecordIdentifier mapIdentifier.recordNumber 8 bucketPosition)
      return buckets
    else
      (List.range size).forM (collectLeafEntry provider limits view mapIdentifier (4 + size * 4))
      return []

/-- Expands pending records, the next one first, each charged before it is read. -/
def collectWithin : Nat → List RecordIdentifier → List RecordIdentifier → BoundedEnumeration Unit
  | 0, _, _ => pure ()
  | _ + 1, _, [] => pure ()
  | rounds + 1, visited, mapIdentifier :: pending =>
    if mapIdentifier ∈ visited then throw (.read (walkTooLong mapIdentifier))
    else do
      chargeMapRecord limits
      let view ← reading (provider mapIdentifier.segment)
      let head ← reading (view.readU32 mapIdentifier.recordNumber 0)
      let scheduled ← expandWithin provider limits mapIdentifier view head
      collectWithin rounds (mapIdentifier :: visited) (scheduled ++ pending)

/-- Walks down a chain of diffs, each charged before it is read, to the root of the trie, with
the view and the head that were read there. -/
def chainWithin (mapIdentifier : RecordIdentifier) :
    Nat → List (RecordIdentifier × RecordIdentifier) → RecordIdentifier →
      BoundedEnumeration
        (List (RecordIdentifier × RecordIdentifier) × RecordIdentifier × SegmentView × UInt32)
  | 0, _, _ => throw (.read (walkTooLong mapIdentifier))
  | rounds + 1, overlays, current => do
    chargeMapRecord limits
    let view ← reading (provider current.segment)
    let head ← reading (view.readU32 current.recordNumber 0)
    if head = diffHead then
      let key ← reading (view.readRecordIdentifier current.recordNumber 8 0)
      let value ← reading (view.readRecordIdentifier current.recordNumber 8 1)
      let base ← reading (view.readRecordIdentifier current.recordNumber 8 2)
      if key ∈ overlays.map Prod.fst then chainWithin mapIdentifier rounds overlays base
      else chainWithin mapIdentifier rounds (overlays ++ [(key, value)]) base
    else return (overlays, current, view, head)

/-- The bounded enumeration of a map.  The root is expanded from the view that the chain has
read, and a round fewer is left below it. -/
def enumerateWithin (mapIdentifier : RecordIdentifier) :
    BoundedEnumeration (List (RecordIdentifier × RecordIdentifier)) := do
  let (overlays, root, view, head) ←
    chainWithin provider limits mapIdentifier maximumWalkLength [] mapIdentifier
  let scheduled ← expandWithin provider limits root view head
  collectWithin provider limits (recordIdentifierCount - 1) [root] scheduled
  return overlays

/-- The entries of a map within limits, with the bytes of their stored names and the records that
were read. -/
def mapEntriesWithLimits (mapIdentifier : RecordIdentifier) :
    Except EnumerationError (List MapEntry × Nat × Nat) := do
  let (overlays, budget) ← (enumerateWithin provider limits mapIdentifier).run ⟨[], 0, 0⟩
  return (budget.entries.map (CollectedEntry.overlaid overlays), budget.storedNameBytes,
    budget.visitedMapRecords)

end

/-! ## The totals of an enumeration -/

def storedLength (provider : SegmentProvider) (identifier : RecordIdentifier) : Nat :=
  match readStringStoredLength provider identifier with
  | .ok length => length
  | .error _ => 0

/-- The diffs that a walk down a chain reads. -/
def diffVisits (provider : SegmentProvider) : Nat → RecordIdentifier → List RecordIdentifier
  | 0, _ => []
  | rounds + 1, current =>
    match Looped.readHead provider current >>= fun read =>
      if read.2 = diffHead then
        some <$> read.1.readRecordIdentifier current.recordNumber 8 2
      else return none with
    | .ok (some base) => current :: diffVisits provider rounds base
    | _ => []

namespace Enumerated

instance : Add Enumerated where
  add s t := ⟨s.entries ++ t.entries, s.storedNameBytes + t.storedNameBytes,
    s.visitedMapRecords + t.visitedMapRecords⟩

instance : Zero Enumerated where
  zero := ⟨[], 0, 0⟩

variable (s : Enumerated) (provider : SegmentProvider) (t : Enumerated)

@[simp] theorem add_entries : (s + t).entries = s.entries ++ t.entries := rfl

@[simp] theorem add_storedNameBytes :
    (s + t).storedNameBytes = s.storedNameBytes + t.storedNameBytes := rfl

@[simp] theorem add_visitedMapRecords :
    (s + t).visitedMapRecords = s.visitedMapRecords + t.visitedMapRecords := rfl

@[simp] theorem zero_entries : (0 : Enumerated).entries = [] := rfl

@[simp] theorem zero_storedNameBytes : (0 : Enumerated).storedNameBytes = 0 := rfl

@[simp] theorem zero_visitedMapRecords : (0 : Enumerated).visitedMapRecords = 0 := rfl

instance : AddMonoid Enumerated where
  add_assoc s t u := by ext1 <;> simp [Nat.add_assoc]
  zero_add s := by ext1 <;> simp
  add_zero s := by ext1 <;> simp
  nsmul := nsmulRec

/-- What an enumeration has counted. -/
def listing (provider : SegmentProvider) (entries : List CollectedEntry) (records : Nat) :
    Enumerated :=
  ⟨entries, (entries.map fun entry => storedLength provider entry.keyIdentifier).sum, records⟩

theorem listing_append (first second : List CollectedEntry) (records more : Nat) :
    listing provider first records + listing provider second more =
      listing provider (first ++ second) (records + more) := by
  ext1
  · rfl
  · simp [listing]
  · rfl

theorem one_record_add (entries : List CollectedEntry) (records : Nat) :
    (⟨[], 0, 1⟩ : Enumerated) + listing provider entries records =
      listing provider entries (records + 1) := by
  ext1
  · rfl
  · exact Nat.zero_add _
  · exact Nat.add_comm 1 records

theorem sum_listing (entries : List CollectedEntry) :
    (entries.map fun entry => listing provider [entry] 0).sum = listing provider entries 0 := by
  induction entries with
  | nil => rfl
  | cons entry entries ih =>
    rw [List.map_cons, List.sum_cons, ih, listing_append]
    rfl

end Enumerated

def EnumerationLimits.meter (limits : EnumerationLimits) : Meter Enumerated where
  representable t :=
    t.entries.length ≤ u64Maximum ∧ t.visitedMapRecords + t.storedNameBytes ≤ u64Maximum
  within t :=
    t.entries.length ≤ limits.maximumEntries ∧
      t.storedNameBytes ≤ limits.maximumStoredNameBytes ∧
      t.visitedMapRecords + t.storedNameBytes ≤ limits.maximumWorkUnits
  representable_of_add s t h := by
    simp only [Enumerated.add_entries, List.length_append, Enumerated.add_visitedMapRecords,
      Enumerated.add_storedNameBytes] at h
    omega
  within_of_add s t h := by
    simp only [Enumerated.add_entries, List.length_append, Enumerated.add_visitedMapRecords,
      Enumerated.add_storedNameBytes] at h
    omega

/-! ## What a bounded enumeration charges -/

section

variable {provider : SegmentProvider} {limits : EnumerationLimits}

theorem saturatingAdd64_of_le {a b : Nat} (h : a + b ≤ u64Maximum) : saturatingAdd64 a b = a + b :=
  Nat.min_eq_left h

theorem spends_reading {α : Type} {result : Result α} {a : α} (h : result = .ok a) :
    Spends limits.meter (reading result) a 0 := by
  rw [h]
  exact spends_pure a

theorem spends_chargeMapRecord : Spends limits.meter (chargeMapRecord limits) () ⟨[], 0, 1⟩ := by
  intro s hrepresentable hwithin
  obtain ⟨-, hcounters⟩ := hrepresentable
  obtain ⟨hentries, hbytes, -⟩ := hwithin
  simp only [Enumerated.add_visitedMapRecords, Enumerated.add_storedNameBytes, Nat.add_zero]
    at hcounters
  have hadd : s + ⟨[], 0, 1⟩ = { s with visitedMapRecords := s.visitedMapRecords + 1 } := by
    ext1
    · exact append_nil _
    · rfl
    · rfl
  have hrecords : saturatingAdd64 s.visitedMapRecords 1 = s.visitedMapRecords + 1 :=
    saturatingAdd64_of_le (by omega)
  have hwork : saturatingAdd64 (s.visitedMapRecords + 1) s.storedNameBytes =
      s.visitedMapRecords + 1 + s.storedNameBytes := saturatingAdd64_of_le hcounters
  have hrun : (chargeMapRecord limits).run s =
      if saturatingAdd64 (saturatingAdd64 s.visitedMapRecords 1) s.storedNameBytes >
          limits.maximumWorkUnits then
        .error (.mapTraversalWorkBudgetExceeded limits.maximumWorkUnits
          (saturatingAdd64 (saturatingAdd64 s.visitedMapRecords 1) s.storedNameBytes))
      else .ok ((), { s with visitedMapRecords := saturatingAdd64 s.visitedMapRecords 1 }) :=
    apply_ite (fun program : BoundedEnumeration Unit => program.run s) ..
  rw [hrecords, hwork] at hrun
  rw [hadd, hrun]
  constructor
  · rintro ⟨-, -, hwork⟩
    exact if_neg (Nat.not_lt.mpr hwork)
  · intro hnot
    refine ⟨_, if_pos (Nat.lt_of_not_le fun hwork => hnot ⟨hentries, hbytes, hwork⟩)⟩

theorem spends_readMapName {identifier : RecordIdentifier} {length : Nat} {name : String}
    (hlength : readStringStoredLength provider identifier = .ok length)
    (hname : readString provider identifier = .ok name) :
    Spends limits.meter (readMapName provider limits identifier) name ⟨[], length, 0⟩ := by
  intro s hrepresentable hwithin
  obtain ⟨-, hcounters⟩ := hrepresentable
  obtain ⟨hentries, -, -⟩ := hwithin
  simp only [Enumerated.add_visitedMapRecords, Enumerated.add_storedNameBytes, Nat.add_zero]
    at hcounters
  have hadd : s + ⟨[], length, 0⟩ = { s with storedNameBytes := s.storedNameBytes + length } := by
    ext1
    · exact append_nil _
    · rfl
    · rfl
  have hbytes : saturatingAdd64 s.storedNameBytes length = s.storedNameBytes + length :=
    saturatingAdd64_of_le (by omega)
  have hwork : saturatingAdd64 s.visitedMapRecords (s.storedNameBytes + length) =
      s.visitedMapRecords + (s.storedNameBytes + length) := saturatingAdd64_of_le hcounters
  have hrun : (readMapName provider limits identifier).run s =
      if saturatingAdd64 s.storedNameBytes length > limits.maximumStoredNameBytes then
        .error (.stringMaterializationBudgetExceeded limits.maximumStoredNameBytes
          (saturatingAdd64 s.storedNameBytes length) identifier)
      else if saturatingAdd64 s.visitedMapRecords (saturatingAdd64 s.storedNameBytes length) >
          limits.maximumWorkUnits then
        .error (.mapTraversalWorkBudgetExceeded limits.maximumWorkUnits
          (saturatingAdd64 s.visitedMapRecords (saturatingAdd64 s.storedNameBytes length)))
      else .ok (name, { s with storedNameBytes := saturatingAdd64 s.storedNameBytes length }) := by
    rw [readMapName, hlength, hname]
    refine (apply_ite (fun program : BoundedEnumeration String => program.run s) ..).trans ?_
    exact if_congr Iff.rfl rfl
      (apply_ite (fun program : BoundedEnumeration String => program.run s) ..)
  rw [hbytes, hwork] at hrun
  rw [hadd, hrun]
  constructor
  · rintro ⟨-, hnames, hunits⟩
    rw [if_neg (Nat.not_lt.mpr hnames), if_neg (Nat.not_lt.mpr hunits)]
  · intro hnot
    split
    · exact ⟨_, rfl⟩
    · rename_i hnames
      refine ⟨_, if_pos (Nat.lt_of_not_le fun hunits => hnot ⟨hentries, ?_, hunits⟩)⟩
      exact Nat.le_of_not_lt hnames

/-- A byte of neither of the first two classes that is no binary marker marks a long string. -/
theorem isString_of_marker {head : UInt8} (hsmall : head &&& 0x80 ≠ 0)
    (hmedium : head &&& 0x40 ≠ 0) (hbinary : ¬ head &&& 0x20 ≠ 0) : ¬ head &&& 0xE0 ≠ 0xC0 := by
  have hall : ∀ byte : Fin 256, (byte.val &&& 0x80 ≠ 0) → (byte.val &&& 0x40 ≠ 0) →
      ¬ (byte.val &&& 0x20 ≠ 0) → ¬ (byte.val &&& 0xE0 ≠ 0xC0) := by decide +kernel
  have hbyte := hall ⟨head.toNat, head.toNat_lt⟩
  simp only [ne_eq, UInt8.ext_iff, UInt8.toNat_and] at hsmall hmedium hbinary hbyte ⊢
  exact hbyte hsmall hmedium hbinary

variable {identifier mapIdentifier : RecordIdentifier} {view : SegmentView}
  {entries : List CollectedEntry} {visited pending nodes : List RecordIdentifier}

section

variable {name : String} (h : readString provider identifier = .ok name)
include h

theorem exists_readStringStoredLength :
    ∃ length, readStringStoredLength provider identifier = .ok length ∧ length < 2 ^ 31 := by
  obtain ⟨view, hview, h⟩ := bind_ok_iff.mp h
  obtain ⟨head, hhead, h⟩ := bind_ok_iff.mp h
  rw [readStringStoredLength, hview, ok_bind_eq, hhead, ok_bind_eq]
  split at h
  · rename_i hsmall
    rw [if_pos hsmall]
    exact ⟨_, rfl, head.toNat_lt.trans (by decide)⟩
  rename_i hsmall
  rw [if_neg hsmall]
  split at h
  · rename_i hmedium
    obtain ⟨stored, hstored, h⟩ := bind_ok_iff.mp h
    rw [if_pos hmedium, hstored]
    refine ⟨_, rfl, ?_⟩
    have hle : (stored &&& 0x3FFF).toNat ≤ 0x3FFF := by
      rw [UInt16.toNat_and]
      exact Nat.and_le_right
    exact Nat.lt_of_le_of_lt (Nat.add_le_add_right hle smallValueLimit) (by decide)
  rename_i hmedium
  rw [if_neg hmedium]
  split at h
  · cases h
  rename_i hbinary
  obtain ⟨stored, hstored, h⟩ := bind_ok_iff.mp h
  rw [if_neg (isString_of_marker hsmall hmedium hbinary), hstored, ok_bind_eq]
  dsimp only at h ⊢
  split at h
  · cases h
  · rename_i hshort
    rw [if_neg hshort]
    exact ⟨_, rfl, Nat.lt_of_not_le hshort |>.trans (by decide)⟩

theorem readStringStoredLength_eq :
    readStringStoredLength provider identifier = .ok (storedLength provider identifier) ∧
      storedLength provider identifier < 2 ^ 31 := by
  obtain ⟨length, hlength, hlt⟩ := exists_readStringStoredLength h
  rw [storedLength, hlength]
  exact ⟨rfl, hlt⟩

end

theorem spends_collectLeafEntry {identifiersBase position : Nat} {entry : CollectedEntry}
    (h : readLeafEntry provider view mapIdentifier identifiersBase position = .ok entry) :
    Spends limits.meter
      (collectLeafEntry provider limits view mapIdentifier identifiersBase position) ()
      (.listing provider [entry] 0) := by
  obtain ⟨keyIdentifier, hkey, h⟩ := bind_ok_iff.mp h
  obtain ⟨value, hvalue, h⟩ := bind_ok_iff.mp h
  obtain ⟨name, hname, h⟩ := bind_ok_iff.mp h
  obtain rfl := pure_ok_iff.mp h
  have hread := @spends_readMapName provider limits keyIdentifier _ name
    (readStringStoredLength_eq hname).1 hname
  intro s hrepresentable hwithin
  have hadd : s + .listing provider [⟨name, keyIdentifier, value⟩] 0 =
      s + ⟨[], storedLength provider keyIdentifier, 0⟩ + ⟨[⟨name, keyIdentifier, value⟩], 0, 0⟩ := by
    rw [add_assoc]
    rfl
  rw [hadd] at hrepresentable ⊢
  obtain ⟨hdone, hrefused⟩ := hread s (limits.meter.representable_of_add _ _ hrepresentable) hwithin
  have hcount : saturatingAdd64 s.entries.length 1 = s.entries.length + 1 := by
    refine saturatingAdd64_of_le (hrepresentable.1.trans' ?_)
    simp
  have hrun : (collectLeafEntry provider limits view mapIdentifier identifiersBase position).run s =
      if saturatingAdd64 s.entries.length 1 > limits.maximumEntries then
        .error (.mapEntryBudgetExceeded limits.maximumEntries
          (saturatingAdd64 s.entries.length 1))
      else
        (readMapName provider limits keyIdentifier).run s >>= fun read =>
          .ok ((), { read.2 with entries := read.2.entries ++ [⟨read.1, keyIdentifier, value⟩] }) := by
    have hcheck : (checkEntryCount limits).run s =
        if saturatingAdd64 s.entries.length 1 > limits.maximumEntries then
          .error (.mapEntryBudgetExceeded limits.maximumEntries
            (saturatingAdd64 s.entries.length 1))
        else .ok ((), s) :=
      apply_ite (fun program : BoundedEnumeration Unit => program.run s) ..
    rw [collectLeafEntry, hkey, hvalue, StateT.run_bind, hcheck]
    split
    · rfl
    · rfl
  rw [hcount] at hrun
  constructor
  · intro hall
    have hentries : s.entries.length + 1 ≤ limits.maximumEntries := by
      have := hall.1
      simpa using this
    rw [hrun, if_neg (Nat.not_lt.mpr hentries), hdone (limits.meter.within_of_add _ _ hall)]
    rfl
  · intro hnot
    rw [hrun]
    split
    · exact ⟨_, rfl⟩
    · rename_i hentries
      have hname : ¬ limits.meter.within (s + ⟨[], storedLength provider keyIdentifier, 0⟩) := by
        intro hwithin'
        refine hnot ⟨?_, hwithin'.2⟩
        simpa using Nat.le_of_not_lt hentries
      obtain ⟨e, herror⟩ := hrefused hname
      rw [herror]
      exact ⟨e, rfl⟩

/-- What an expansion of a record costs. -/
theorem spends_expandWithin {head : UInt32} {scheduled : List RecordIdentifier}
    (h : expandMapRecord provider mapIdentifier view head = .ok (entries, scheduled)) :
    Spends limits.meter (expandWithin provider limits mapIdentifier view head) scheduled
      (.listing provider entries 0) := by
  rw [expandMapRecord] at h
  rw [expandWithin]
  split at h
  · rename_i hdiff
    obtain ⟨base, hbase, h⟩ := bind_ok_iff.mp h
    obtain ⟨rfl, rfl⟩ := Prod.mk.inj (pure_ok_iff.mp h)
    rw [if_pos hdiff]
    exact (spends_reading hbase).goOn (spends_pure _)
  rename_i hdiff
  rw [if_neg hdiff]
  dsimp only at h ⊢
  split at h
  · rename_i hempty
    obtain ⟨rfl, rfl⟩ := Prod.mk.inj (pure_ok_iff.mp h)
    rw [if_pos hempty]
    exact spends_pure _
  rename_i hempty
  rw [if_neg hempty]
  split at h
  · rename_i hbranch
    obtain ⟨bitmap, hbitmap, h⟩ := bind_ok_iff.mp h
    obtain ⟨buckets, hbuckets, h⟩ := bind_ok_iff.mp h
    obtain ⟨rfl, rfl⟩ := Prod.mk.inj (pure_ok_iff.mp h)
    rw [if_pos hbranch]
    exact (spends_reading hbitmap).goOn (spends_reading hbuckets)
  · rename_i hleaf
    obtain ⟨collected, hcollected, h⟩ := bind_ok_iff.mp h
    obtain ⟨rfl, rfl⟩ := Prod.mk.inj (pure_ok_iff.mp h)
    rw [if_neg hleaf, ← Enumerated.sum_listing]
    refine (spends_forM ?_).thenPure fun _ => []
    rw [List.forall₂_map_right_iff]
    exact (Except.mapM_ok_iff.mp hcollected).imp fun position entry hentry =>
      spends_collectLeafEntry hentry

theorem readHead_ok_iff {head : UInt32} :
    Looped.readHead provider mapIdentifier = .ok (view, head) ↔
      provider mapIdentifier.segment = .ok view ∧
        view.readU32 mapIdentifier.recordNumber 0 = .ok head := by
  constructor
  · intro h
    obtain ⟨view', hview, h⟩ := bind_ok_iff.mp h
    obtain ⟨head', hhead, h⟩ := bind_ok_iff.mp h
    obtain ⟨rfl, rfl⟩ := Prod.mk.inj (pure_ok_iff.mp h)
    exact ⟨hview, hhead⟩
  · rintro ⟨hview, hhead⟩
    exact bind_ok_iff.mpr ⟨view, hview, bind_ok_iff.mpr ⟨head, hhead, rfl⟩⟩

/-- Every record costs a unit besides its entries. -/
theorem spends_collectWithin {rounds : Nat}
    (h : collectMapEntries provider rounds visited pending = .ok entries) :
    Spends limits.meter (collectWithin provider limits rounds visited pending) ()
      (.listing provider entries
        (collectVisits provider rounds visited pending).length) := by
  induction rounds generalizing visited pending entries with
  | zero =>
    obtain rfl := Except.ok.inj h
    exact spends_pure ()
  | succ rounds ih =>
    cases pending with
    | nil =>
      obtain rfl := Except.ok.inj h
      exact spends_pure ()
    | cons mapIdentifier pending =>
      by_cases hseen : mapIdentifier ∈ visited
      · rw [collectMapEntries, if_pos hseen] at h
        cases h
      rw [Looped.collectMapEntries_succ hseen] at h
      obtain ⟨⟨view, head⟩, hread, h⟩ := bind_ok_iff.mp h
      obtain ⟨⟨collected, scheduled⟩, hexpand, h⟩ := bind_ok_iff.mp h
      obtain ⟨rest, hrest, h⟩ := bind_ok_iff.mp h
      obtain rfl := pure_ok_iff.mp h
      have hvisits : Enumerated.listing provider (collected ++ rest)
          (collectVisits provider (rounds + 1) visited (mapIdentifier :: pending)).length =
          ⟨[], 0, 1⟩ + (.listing provider collected 0 + .listing provider rest
            (collectVisits provider rounds (mapIdentifier :: visited)
              (scheduled ++ pending)).length) := by
        rw [collectVisits, if_neg hseen, hread, ok_bind_eq, hexpand,
          Enumerated.listing_append, Nat.zero_add]
        exact (Enumerated.one_record_add ..).symm
      obtain ⟨hview, hhead⟩ := readHead_ok_iff.mp hread
      rw [hvisits, collectWithin, if_neg hseen]
      refine spends_chargeMapRecord.andThen ((spends_reading hview).goOn ?_)
      refine (spends_reading hhead).goOn ?_
      exact (spends_expandWithin hexpand).andThen (ih hrest)

/-- Every diff of a chain costs a unit, and so does the root below it. -/
theorem spends_chainWithin {mapIdentifier : RecordIdentifier} {rounds : Nat}
    {overlays found : List (RecordIdentifier × RecordIdentifier)} {current root : RecordIdentifier}
    (h : readDiffChain provider mapIdentifier rounds overlays current = .ok (found, root)) :
    ∃ view head, Looped.readHead provider root = .ok (view, head) ∧
      Spends limits.meter (chainWithin provider limits mapIdentifier rounds overlays current)
        (found, root, view, head) ⟨[], 0, (diffVisits provider rounds current).length + 1⟩ := by
  induction rounds generalizing overlays current with
  | zero => cases h
  | succ rounds ih =>
    rw [Looped.readDiffChain_succ] at h
    obtain ⟨⟨view, head⟩, hread, h⟩ := bind_ok_iff.mp h
    obtain ⟨hview, hhead⟩ := readHead_ok_iff.mp hread
    rw [diffVisits, hread, ok_bind_eq, chainWithin]
    dsimp only at h ⊢
    split at h
    · rename_i hdiff
      obtain ⟨key, hkey, h⟩ := bind_ok_iff.mp h
      obtain ⟨value, hvalue, h⟩ := bind_ok_iff.mp h
      obtain ⟨base, hbase, h⟩ := bind_ok_iff.mp h
      obtain ⟨rootView, rootHead, hroot, hspends⟩ := ih h
      refine ⟨rootView, rootHead, hroot, ?_⟩
      rw [if_pos hdiff, hbase]
      have hvisits : (⟨[], 0, (current :: diffVisits provider rounds base).length + 1⟩ :
          Enumerated) = ⟨[], 0, 1⟩ + ⟨[], 0, (diffVisits provider rounds base).length + 1⟩ := by
        ext1
        · rfl
        · rfl
        · exact Nat.add_comm ..
      refine (congrArg _ hvisits).mpr ?_
      refine spends_chargeMapRecord.andThen ((spends_reading hview).goOn ?_)
      refine (spends_reading hhead).goOn ?_
      rw [if_pos hdiff]
      refine (spends_reading hkey).goOn ((spends_reading hvalue).goOn ?_)
      refine (spends_reading hbase).goOn ?_
      split at hspends
      · rename_i hseen
        rw [if_pos hseen]
        exact hspends
      · rename_i hnew
        rw [if_neg hnew]
        exact hspends
    · rename_i hdiff
      obtain ⟨rfl, rfl⟩ := Prod.mk.inj (pure_ok_iff.mp h)
      refine ⟨view, head, hread, ?_⟩
      rw [if_neg hdiff]
      have hone : (⟨[], 0, ([] : List RecordIdentifier).length + 1⟩ : Enumerated) =
          ⟨[], 0, 1⟩ + 0 := rfl
      refine (congrArg _ hone).mpr ?_
      refine spends_chargeMapRecord.andThen ((spends_reading hview).goOn ?_)
      refine (spends_reading hhead).goOn ?_
      rw [if_neg hdiff]
      exact spends_pure _

/-- What an enumeration costs: its entries with their stored names, the diffs, and the records of
the trie. -/
theorem spends_enumerateWithin {mapIdentifier root : RecordIdentifier}
    {overlays : List (RecordIdentifier × RecordIdentifier)} {entries : List CollectedEntry}
    (hchain : readDiffChain provider mapIdentifier maximumWalkLength [] mapIdentifier =
      .ok (overlays, root))
    (h : collectMapEntries provider recordIdentifierCount [] [root] = .ok entries) :
    Spends limits.meter (enumerateWithin provider limits mapIdentifier) overlays
      (.listing provider entries ((diffVisits provider maximumWalkLength mapIdentifier).length +
        (collectVisits provider recordIdentifierCount [] [root]).length)) := by
  obtain ⟨view, head, hread, hwalk⟩ := @spends_chainWithin provider limits _ _ _ _ _ _ hchain
  obtain ⟨rounds, hrounds⟩ : ∃ rounds, recordIdentifierCount = rounds + 1 :=
    Nat.exists_eq_add_one.mpr (Nat.pow_pos (by decide))
  have hbelow : recordIdentifierCount - 1 = rounds := by rw [hrounds, Nat.add_sub_cancel]
  rw [hrounds, Looped.collectMapEntries_succ List.not_mem_nil] at h
  obtain ⟨⟨view', head'⟩, hread', h⟩ := bind_ok_iff.mp h
  obtain ⟨rfl, rfl⟩ := Prod.mk.inj (Except.ok.inj (hread.symm.trans hread'))
  obtain ⟨⟨collected, scheduled⟩, hexpand, h⟩ := bind_ok_iff.mp h
  obtain ⟨rest, hrest, h⟩ := bind_ok_iff.mp h
  obtain rfl := pure_ok_iff.mp h
  rw [append_nil] at hrest
  have hvisits : Enumerated.listing provider (collected ++ rest)
      ((diffVisits provider maximumWalkLength mapIdentifier).length +
        (collectVisits provider recordIdentifierCount [] [root]).length) =
      ⟨[], 0, (diffVisits provider maximumWalkLength mapIdentifier).length + 1⟩ +
        (.listing provider collected 0 + .listing provider rest
          (collectVisits provider rounds [root] scheduled).length) := by
    rw [Enumerated.listing_append, Nat.zero_add, hrounds, collectVisits,
      if_neg List.not_mem_nil, hread, ok_bind_eq, hexpand]
    dsimp only
    rw [append_nil]
    ext1
    · rfl
    · exact (Nat.zero_add _).symm
    · exact (Nat.succ_add_eq_add_succ ..).symm
  rw [hvisits, enumerateWithin, hbelow]
  exact (hwalk.andThen ((spends_expandWithin hexpand).andThen
    ((spends_collectWithin hrest).thenPure fun _ => overlays)))

/-- The totals of an enumeration decide whether it is refused. -/
theorem mapEntriesWithLimits_spec {mapIdentifier root : RecordIdentifier}
    {overlays : List (RecordIdentifier × RecordIdentifier)} {entries : List CollectedEntry}
    {totals : Enumerated}
    (hchain : readDiffChain provider mapIdentifier maximumWalkLength [] mapIdentifier =
      .ok (overlays, root))
    (h : collectMapEntries provider recordIdentifierCount [] [root] = .ok entries)
    (htotals : totals = .listing provider entries
      ((diffVisits provider maximumWalkLength mapIdentifier).length +
        (collectVisits provider recordIdentifierCount [] [root]).length))
    (hrepresentable : limits.meter.representable totals) :
    (limits.meter.within totals →
      mapEntriesWithLimits provider limits mapIdentifier =
        .ok (entries.map (CollectedEntry.overlaid overlays), totals.storedNameBytes,
          totals.visitedMapRecords)) ∧
    (¬ limits.meter.within totals →
      ∃ e, mapEntriesWithLimits provider limits mapIdentifier = .error e) := by
  subst htotals
  have hspends := @spends_enumerateWithin provider limits _ _ _ _ hchain h
  obtain ⟨hdone, hrefused⟩ := hspends 0 (by rwa [zero_add])
    ⟨Nat.zero_le _, Nat.zero_le _, Nat.zero_le _⟩
  rw [zero_add] at hdone hrefused
  constructor
  · intro hwithin
    exact bind_ok_iff.mpr ⟨_, hdone hwithin, rfl⟩
  · intro hnot
    obtain ⟨e, herror⟩ := hrefused hnot
    refine ⟨e, ?_⟩
    rw [mapEntriesWithLimits]
    exact (congrArg (· >>= _) herror).trans rfl

/-! ## The totals of a well-formed map -/

theorem length_diffVisits_le (rounds : Nat) (current : RecordIdentifier) :
    (diffVisits provider rounds current).length ≤ rounds := by
  induction rounds generalizing current with
  | zero => exact Nat.le_refl 0
  | succ rounds ih =>
    rw [diffVisits]
    split
    · exact Nat.succ_le_succ (ih _)
    · exact Nat.zero_le _

theorem TrieAt.record_mem {depth level : Nat} {record : RecordIdentifier}
    (h : TrieAt provider depth level record entries nodes) : record ∈ nodes := by
  cases depth with
  | zero =>
    obtain ⟨view, -, -, -, rfl⟩ := h
    exact List.mem_singleton_self record
  | succ depth =>
    obtain ⟨view, -, -, ⟨-, rfl⟩ | ⟨buckets, -, -, -, rfl⟩⟩ := h
    · exact List.mem_singleton_self record
    · exact List.mem_cons_self

/-- Records whose expansions stay among them. -/
def Closed (provider : SegmentProvider) (nodes : List RecordIdentifier) : Prop :=
  ∀ record ∈ nodes, ∀ entries scheduled,
    (Looped.readHead provider record >>= fun read =>
      expandMapRecord provider record read.1 read.2) = .ok (entries, scheduled) →
    scheduled ⊆ nodes

/-- An expansion of a record of a trie leads to records of the trie. -/
theorem TrieAt.closed {depth level : Nat} {record : RecordIdentifier}
    {entries : List CollectedEntry} {nodes : List RecordIdentifier}
    (h : TrieAt provider depth level record entries nodes)
    (hsize : entries.length ≤ maximumMapSize) : Closed provider nodes := by
  have hleafClosed : ∀ {view : SegmentView} {level : Nat} {leaf : RecordIdentifier}
      {entries : List CollectedEntry}, provider leaf.segment = .ok view → level ≤ maximumLevel →
      LeafIn provider view level leaf entries → entries.length ≤ maximumMapSize →
      Closed provider [leaf] := by
    intro view level leaf entries hview hlevel hleaf hsize other hother collected scheduled hread
    obtain rfl := List.mem_singleton.mp hother
    rw [readHead_ok_iff.mpr ⟨hview, hleaf.head⟩, ok_bind_eq,
      hleaf.expandMapRecord hlevel hsize] at hread
    obtain ⟨-, rfl⟩ := Prod.mk.inj (Except.ok.inj hread)
    exact nil_subset _
  induction depth generalizing level record entries nodes with
  | zero =>
    obtain ⟨view, hview, hlevel, hleaf, rfl⟩ := h
    exact hleafClosed hview hlevel hleaf hsize
  | succ depth ih =>
    obtain ⟨view, hview, hlevel, ⟨hleaf, rfl⟩ | ⟨buckets, hbranch, hbuckets, rfl, rfl⟩⟩ := h
    · exact hleafClosed hview hlevel hleaf hsize
    · intro other hother collected scheduled hread
      rcases List.mem_cons.mp hother with rfl | hother
      · rw [readHead_ok_iff.mpr ⟨hview, hbranch.head⟩, ok_bind_eq,
          hbranch.expandMapRecord hsize] at hread
        obtain ⟨-, rfl⟩ := Prod.mk.inj (Except.ok.inj hread)
        intro next hnext
        obtain ⟨bucket, hbucket, rfl⟩ := List.mem_map.mp hnext
        exact List.mem_cons_of_mem _
          (List.mem_flatMap_of_mem hbucket (hbuckets bucket hbucket).record_mem)
      · obtain ⟨bucket, hbucket, hother⟩ := List.mem_flatMap.mp hother
        have hbelow := ih (hbuckets bucket hbucket) ((length_le_flatMap_of_mem hbucket).trans hsize)
        intro next hnext
        exact List.mem_cons_of_mem _
          (List.mem_flatMap_of_mem hbucket (hbelow other hother collected scheduled hread hnext))

/-- A walk from closed records stays among them. -/
theorem Closed.collectVisits_subset (h : Closed provider nodes)
    {rounds : Nat} (hpending : pending ⊆ nodes) :
    collectVisits provider rounds visited pending ⊆ nodes := by
  induction rounds generalizing visited pending with
  | zero => exact nil_subset _
  | succ rounds ih =>
    cases pending with
    | nil => exact nil_subset _
    | cons mapIdentifier pending =>
      obtain ⟨hrecord, hrest⟩ := cons_subset.mp hpending
      rw [collectVisits]
      split
      · exact nil_subset _
      split
      · exact cons_subset.mpr ⟨hrecord, nil_subset _⟩
      · rename_i collected scheduled hexpanded
        refine cons_subset.mpr ⟨hrecord, ih (List.append_subset.mpr ⟨?_, hrest⟩)⟩
        exact h mapIdentifier hrecord collected scheduled hexpanded

/-- A walk of a trie reads no more records than the trie has. -/
theorem TrieAt.length_collectVisits {depth level rounds : Nat} {record : RecordIdentifier}
    {entries : List CollectedEntry} {nodes : List RecordIdentifier}
    (h : TrieAt provider depth level record entries nodes)
    (hsize : entries.length ≤ maximumMapSize) :
    (collectVisits provider rounds [] [record]).length ≤ nodes.length := by
  obtain ⟨hnodup, -, -⟩ := @Looped.collectVisits_spec provider rounds [] [record] List.nodup_nil nofun
  have hsubset : collectVisits provider rounds [] [record] ⊆ nodes :=
    (h.closed hsize).collectVisits_subset (cons_subset.mpr ⟨h.record_mem, nil_subset _⟩)
  exact (hnodup.subperm hsubset).length_le

end

end Froe
