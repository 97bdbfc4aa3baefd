import Froe.Lib.Loops
import Froe.Content.Template

/-!
# The readers of lists, values and templates as loops

The readers of `List`, `Value` and `Template` bound their rounds by a number that a proof
gives.  Here they run as the source has them, with loops that nothing bounds, and every one
ends with what its bounded reader returns, whatever the records are.
-/

namespace Froe

open Loops

namespace Looped

/-! ## Lists -/

/-- How many entries a list has. -/
abbrev ListSize := Nat

/-- Multiplies the capacity until the buckets of one record hold the list. -/
def ListSize.growBucketCapacity (size : ListSize) (capacity : Nat) : Program Error Nat :=
  if capacity * bucketCapacity < size then
    size |>.growBucketCapacity (capacity * bucketCapacity)
  else pure capacity
partial_fixpoint

/-- The capacity of the buckets below the root of a list. -/
def topBucketCapacity (size : Nat) : Program Error Nat :=
  ListSize.growBucketCapacity size 1

end Looped

/-- Reads the entries of a list, bucket after bucket. -/
def SegmentProvider.collectEntriesLoop (provider : SegmentProvider)
    (listIdentifier : RecordIdentifier) (size : Nat) : Program Error (List RecordIdentifier) := do
  if size = 0 then return []
  else if size = 1 then return [listIdentifier]
  else
    let capacity ← Looped.topBucketCapacity size
    let view ← liftExcept (provider listIdentifier.segment)
    let buckets ← (List.range ((size + capacity - 1) / capacity)).mapM fun bucketIndex => do
      let child ← liftExcept (view.readRecordIdentifier listIdentifier.recordNumber 0 bucketIndex)
      provider |>.collectEntriesLoop child (min (size - bucketIndex * capacity) capacity)
    return buckets.flatten
partial_fixpoint

namespace Looped

/-- Reads all entries of a list whose size is known. -/
def uncountedListEntries (provider : SegmentProvider) (listIdentifier : RecordIdentifier)
    (size : Nat) : Program Error (List RecordIdentifier) := do
  liftExcept (validateSize size)
  provider.collectEntriesLoop listIdentifier size

end Looped

/-- The loop of `uncountedListEntry`.  Only a size of one ends it. -/
def SegmentProvider.descendToEntryLoop (provider : SegmentProvider) (current : RecordIdentifier)
    (size index : Nat) : Program Error RecordIdentifier := do
  if size = 1 then return current
  else
    let capacity ← Looped.topBucketCapacity size
    let bucketIndex := index / capacity
    let view ← liftExcept (provider current.segment)
    let child ← liftExcept (view.readRecordIdentifier current.recordNumber 0 bucketIndex)
    provider |>.descendToEntryLoop child (min (size - bucketIndex * capacity) capacity)
      (index - bucketIndex * capacity)
partial_fixpoint

namespace Looped

/-- Reads one entry of a list whose size is known. -/
def uncountedListEntry (provider : SegmentProvider) (listIdentifier : RecordIdentifier)
    (size index : Nat) : Program Error RecordIdentifier := do
  liftExcept (validateSize size)
  if index ≥ size then
    liftExcept (invalid s!"list index {index} is out of bounds for a list of {size} elements")
  else provider.descendToEntryLoop listIdentifier size index

section

variable {provider : SegmentProvider}

/-- Enough rounds bound the loop over the capacities. -/
theorem ends_growBucketCapacity {size rounds capacity : Nat} (hpos : 0 < capacity)
    (h : size ≤ capacity + rounds) :
    Ends (ListSize.growBucketCapacity size capacity)
      (.ok (Froe.growBucketCapacity size rounds capacity)) := by
  have hmore : capacity + 1 ≤ capacity * bucketCapacity := by
    rw [bucketCapacity]
    omega
  induction rounds generalizing capacity with
  | zero =>
    rw [ListSize.growBucketCapacity, Froe.growBucketCapacity, if_neg (by omega)]
    exact ends_pure capacity
  | succ rounds ih =>
    rw [ListSize.growBucketCapacity, Froe.growBucketCapacity]
    split
    · refine ih (by omega) (by omega) ?_
      rw [bucketCapacity] at hmore ⊢
      omega
    · exact ends_pure capacity

variable (listIdentifier : RecordIdentifier) (size : Nat)

/-- The capacity is the one of the bounded reader. -/
theorem ends_topBucketCapacity :
    Ends (topBucketCapacity size) (.ok (Froe.topBucketCapacity size)) :=
  ends_growBucketCapacity Nat.one_pos (Nat.le_add_left ..)

/-- The buckets below are smaller. -/
theorem ends_collectEntries :
    Ends (provider.collectEntriesLoop listIdentifier size)
      (Froe.collectEntries provider listIdentifier size) := by
  induction size using Nat.strong_induction_on generalizing listIdentifier with
  | _ size ih =>
    rw [SegmentProvider.collectEntriesLoop, Froe.collectEntries]
    by_cases hzero : size = 0
    · rw [if_pos hzero, if_pos hzero]
      exact ends_pure []
    rw [if_neg hzero, if_neg hzero]
    by_cases hone : size = 1
    · rw [if_pos hone, dif_pos hone]
      exact ends_pure _
    rw [if_neg hone, dif_neg hone]
    have hsmaller := @topBucketCapacity_lt size (by omega)
    refine Ends.goOn (ends_topBucketCapacity size) ?_
    refine Ends.andThen (ends_liftExcept _) fun view _ => ?_
    refine Ends.andThen (ends_mapM fun bucketIndex _ => ?_) fun buckets _ => ends_pure _
    refine Ends.andThen (ends_liftExcept _) fun child _ => ?_
    exact ih _ (lt_of_le_of_lt (Nat.min_le_right ..) hsmaller) child

/-- The entries are those of the bounded reader. -/
theorem ends_uncountedListEntries :
    Ends (uncountedListEntries provider listIdentifier size)
      (Froe.uncountedListEntries provider listIdentifier size) :=
  Ends.andThen (ends_liftExcept _) fun _ _ => ends_collectEntries listIdentifier size

/-- An index within the size keeps the size positive, and the size falls. -/
theorem ends_descendToEntry (current : RecordIdentifier) {size index : Nat} (h : index < size) :
    Ends (provider.descendToEntryLoop current size index)
      (Froe.descendToEntry provider current size index) := by
  induction size using Nat.strong_induction_on generalizing current index with
  | _ size ih =>
    rw [SegmentProvider.descendToEntryLoop, Froe.descendToEntry]
    by_cases hone : size = 1
    · rw [if_pos hone, dif_pos hone.le]
      exact ends_pure _
    rw [if_neg hone, dif_neg (by omega)]
    have hsmaller := @topBucketCapacity_lt size (by omega)
    have hpos := topBucketCapacity_pos size
    have hindex := Nat.div_add_mod index (Froe.topBucketCapacity size)
    have hmod := Nat.mod_lt index hpos
    rw [Nat.mul_comm] at hindex
    refine Ends.goOn (ends_topBucketCapacity size) ?_
    refine Ends.andThen (ends_liftExcept _) fun view _ => ?_
    refine Ends.andThen (ends_liftExcept _) fun child _ => ?_
    exact ih _ (lt_of_le_of_lt (Nat.min_le_right ..) hsmaller) child (by omega)

/-- The entry is the one of the bounded reader. -/
theorem ends_uncountedListEntry (index : Nat) :
    Ends (uncountedListEntry provider listIdentifier size index)
      (Froe.uncountedListEntry provider listIdentifier size index) := by
  refine Ends.andThen (ends_liftExcept _) fun _ _ => ?_
  by_cases hindex : index ≥ size
  · rw [if_pos hindex, if_pos hindex]
    exact ends_liftExcept _
  · rw [if_neg hindex, if_neg hindex]
    exact ends_descendToEntry listIdentifier (not_le.mp hindex)

end

/-! ## Strings -/

/-- Reads a value that is kept in blocks. -/
def readBlockList (provider : SegmentProvider) (listIdentifier : RecordIdentifier) (length : Nat) :
    Program Error Bytes := do
  let blocks ← uncountedListEntries provider listIdentifier ((length + blockSize - 1) / blockSize)
  liftExcept (readBlocks provider blocks length)

/-- Reads a text of any of the three lengths. -/
def readString (provider : SegmentProvider) (identifier : RecordIdentifier) :
    Program Error String := do
  let view ← liftExcept (provider identifier.segment)
  let head ← liftExcept (view.readU8 identifier.recordNumber 0)
  if head &&& 0x80 = 0 then
    let bytes ← liftExcept (view.readBytes identifier.recordNumber 1 head.toNat)
    return Utf8.decodeLossy bytes
  else if head &&& 0x40 = 0 then
    let stored ← liftExcept (view.readU16 identifier.recordNumber 0)
    let bytes ← liftExcept (view.readBytes identifier.recordNumber 2
      ((stored &&& 0x3FFF).toNat + smallValueLimit))
    return Utf8.decodeLossy bytes
  else if head &&& 0x20 ≠ 0 then
    liftExcept (invalid s!"record {identifier.display} starts with binary marker 0x{hex8 head} and is not a string")
  else
    let stored ← liftExcept (view.readU64 identifier.recordNumber 0)
    let length := (stored &&& 0x3FFFFFFFFFFFFFFF).toNat + mediumValueLimit
    if length ≥ 2 ^ 31 - 1 then
      liftExcept (invalid s!"string of {length} bytes in record {identifier.display} is too long")
    else
      let listIdentifier ← liftExcept (view.readRecordIdentifier identifier.recordNumber 8 0)
      let bytes ← readBlockList provider listIdentifier length
      return Utf8.decodeLossy bytes

section

variable {provider : SegmentProvider}

/-- The blocks are those of the bounded reader. -/
theorem ends_readBlockList (listIdentifier : RecordIdentifier) (length : Nat) :
    Ends (readBlockList provider listIdentifier length)
      (Froe.readBlockList provider listIdentifier length) :=
  Ends.andThen (ends_uncountedListEntries ..) fun _ _ => ends_liftExcept _

/-- The text is the one of the bounded reader. -/
theorem ends_readString (identifier : RecordIdentifier) :
    Ends (readString provider identifier) (Froe.readString provider identifier) := by
  refine Ends.andThen (ends_liftExcept _) fun view _ => ?_
  refine Ends.andThen (ends_liftExcept _) fun head _ => ?_
  split
  · exact Ends.andThen (ends_liftExcept _) fun bytes _ => ends_pure _
  · split
    · refine Ends.andThen (ends_liftExcept _) fun stored _ => ?_
      exact Ends.andThen (ends_liftExcept _) fun bytes _ => ends_pure _
    · split
      · exact ends_liftExcept _
      · refine Ends.andThen (ends_liftExcept _) fun stored _ => ?_
        dsimp only
        split
        · exact ends_liftExcept _
        · refine Ends.andThen (ends_liftExcept _) fun listIdentifier _ => ?_
          exact Ends.andThen (ends_readBlockList ..) fun bytes _ => ends_pure _

end

/-! ## Templates -/

section

variable (provider : SegmentProvider) (identifier : RecordIdentifier) (view : SegmentView)

/-- Reads a name that a template refers to. -/
def readTemplateName (cursor : Nat) : Program Error String := do
  let nameIdentifier ← liftExcept (view.readRecordIdentifier identifier.recordNumber cursor 0)
  readString provider nameIdentifier

/-- Reads as many names as the template counts. -/
def readTemplateNames : Nat → Nat → Program Error (List String)
  | 0, _ => pure []
  | count + 1, cursor => do
    let name ← readTemplateName provider identifier view cursor
    let names ← readTemplateNames count (cursor + 6)
    return name :: names

/-- Reads the types of the properties behind their names. -/
def readPropertyTemplates :
    List RecordIdentifier → Nat → Program Error (List PropertyTemplate)
  | [], _ => pure []
  | nameIdentifier :: nameIdentifiers, cursor => do
    let typeByte ← liftExcept (view.readU8 identifier.recordNumber cursor)
    let (tag, isMultiple) := splitTypeByte typeByte
    match PropertyType.fromTag tag with
    | none =>
      liftExcept (invalid s!"template {identifier.display} declares invalid property type tag {typeByte.toInt8}")
    | some propertyType =>
      let name ← readString provider nameIdentifier
      let properties ← readPropertyTemplates nameIdentifiers (cursor + 1)
      return ⟨name, propertyType, isMultiple⟩ :: properties

/-- Reads the primary type, when the head says that there is one. -/
def readPrimaryType (hasPrimaryType : Bool) (cursor : Nat) : Program Error (Option String × Nat) :=
  if hasPrimaryType then do
    return (some (← readTemplateName provider identifier view cursor), cursor + 6)
  else pure (none, cursor)

/-- Reads the mixin types that the head counts. -/
def readMixinTypes (hasMixinTypes : Bool) (mixinCount cursor : Nat) :
    Program Error (List String × Nat) :=
  if hasMixinTypes then do
    return (← readTemplateNames provider identifier view mixinCount cursor,
      cursor + 6 * mixinCount)
  else pure ([], cursor)

/-- Reads the name of an only child; other arities are in the head. -/
def readChildArity (manyChildNodes zeroChildNodes : Bool) (cursor : Nat) :
    Program Error (ChildNodeArity × Nat) :=
  if manyChildNodes then pure (.many, cursor)
  else if zeroChildNodes then pure (.zero, cursor)
  else do
    return (.one (← readTemplateName provider identifier view cursor), cursor + 6)

/-- Reads the property templates, whose names are a list of their own. -/
def readProperties (propertyCount cursor : Nat) : Program Error (List PropertyTemplate) :=
  if propertyCount > 0 then do
    let nameList ← liftExcept (view.readRecordIdentifier identifier.recordNumber cursor 0)
    let nameIdentifiers ← uncountedListEntries provider nameList propertyCount
    readPropertyTemplates provider identifier view nameIdentifiers (cursor + 6)
  else pure []

end

/-- Reads a template record. -/
def readTemplate (provider : SegmentProvider) (identifier : RecordIdentifier) :
    Program Error Template := do
  let view ← liftExcept (provider identifier.segment)
  let word ← liftExcept (view.readU32 identifier.recordNumber 0)
  let head := TemplateHead.ofWord word
  let (primaryType, cursor) ← readPrimaryType provider identifier view head.hasPrimaryType 4
  let (mixinTypes, cursor) ←
    readMixinTypes provider identifier view head.hasMixinTypes head.mixinCount cursor
  let (childArity, cursor) ←
    readChildArity provider identifier view head.manyChildNodes head.zeroChildNodes cursor
  let properties ← readProperties provider identifier view head.propertyCount cursor
  return ⟨primaryType, mixinTypes, childArity, properties⟩

section

variable {provider : SegmentProvider} {identifier : RecordIdentifier} {view : SegmentView}

variable (cursor : Nat)

theorem ends_readTemplateName :
    Ends (readTemplateName provider identifier view cursor)
      (Froe.readTemplateName provider identifier view cursor) :=
  Ends.andThen (ends_liftExcept _) fun nameIdentifier _ => ends_readString nameIdentifier

theorem ends_readTemplateNames (count cursor : Nat) :
    Ends (readTemplateNames provider identifier view count cursor)
      (Froe.readTemplateNames provider identifier view count cursor) := by
  induction count generalizing cursor with
  | zero => exact ends_pure []
  | succ count ih =>
    refine Ends.andThen (ends_readTemplateName cursor) fun name _ => ?_
    exact Ends.andThen (ih (cursor + 6)) fun names _ => ends_pure _

theorem ends_readPropertyTemplates (nameIdentifiers : List RecordIdentifier) (cursor : Nat) :
    Ends (readPropertyTemplates provider identifier view nameIdentifiers cursor)
      (Froe.readPropertyTemplates provider identifier view nameIdentifiers cursor) := by
  induction nameIdentifiers generalizing cursor with
  | nil => exact ends_pure []
  | cons nameIdentifier nameIdentifiers ih =>
    refine Ends.andThen (ends_liftExcept _) fun typeByte _ => ?_
    dsimp only
    cases PropertyType.fromTag (splitTypeByte typeByte).1 with
    | none => exact ends_liftExcept _
    | some propertyType =>
      refine Ends.andThen (ends_readString nameIdentifier) fun name _ => ?_
      exact Ends.andThen (ih (cursor + 1)) fun properties _ => ends_pure _

theorem ends_readPrimaryType (hasPrimaryType : Bool) (cursor : Nat) :
    Ends (readPrimaryType provider identifier view hasPrimaryType cursor)
      (Froe.readPrimaryType provider identifier view hasPrimaryType cursor) := by
  cases hasPrimaryType with
  | false => exact ends_pure _
  | true => exact Ends.andThen (ends_readTemplateName cursor) fun name _ => ends_pure _

theorem ends_readMixinTypes (hasMixinTypes : Bool) (mixinCount cursor : Nat) :
    Ends (readMixinTypes provider identifier view hasMixinTypes mixinCount cursor)
      (Froe.readMixinTypes provider identifier view hasMixinTypes mixinCount cursor) := by
  cases hasMixinTypes with
  | false => exact ends_pure _
  | true => exact Ends.andThen (ends_readTemplateNames mixinCount cursor) fun names _ => ends_pure _

theorem ends_readChildArity (manyChildNodes zeroChildNodes : Bool) (cursor : Nat) :
    Ends (readChildArity provider identifier view manyChildNodes zeroChildNodes cursor)
      (Froe.readChildArity provider identifier view manyChildNodes zeroChildNodes cursor) := by
  cases manyChildNodes with
  | true => exact ends_pure _
  | false =>
    cases zeroChildNodes with
    | true => exact ends_pure _
    | false => exact Ends.andThen (ends_readTemplateName cursor) fun name _ => ends_pure _

theorem ends_readProperties (propertyCount cursor : Nat) :
    Ends (readProperties provider identifier view propertyCount cursor)
      (Froe.readProperties provider identifier view propertyCount cursor) := by
  rw [readProperties, Froe.readProperties]
  split
  · refine Ends.andThen (ends_liftExcept _) fun nameList _ => ?_
    refine Ends.andThen (ends_uncountedListEntries ..) fun nameIdentifiers _ => ?_
    exact ends_readPropertyTemplates nameIdentifiers (cursor + 6)
  · exact ends_pure []

/-- A template is the one of the bounded reader. -/
theorem ends_readTemplate (identifier : RecordIdentifier) :
    Ends (readTemplate provider identifier) (Froe.readTemplate provider identifier) := by
  refine Ends.andThen (ends_liftExcept _) fun view _ => ?_
  refine Ends.andThen (ends_liftExcept _) fun word _ => ?_
  refine Ends.andThen (ends_readPrimaryType ..) fun primary _ => ?_
  refine Ends.andThen (ends_readMixinTypes ..) fun mixin _ => ?_
  refine Ends.andThen (ends_readChildArity ..) fun arity _ => ?_
  exact Ends.andThen (ends_readProperties ..) fun properties _ => ends_pure _

end

end Looped

end Froe
