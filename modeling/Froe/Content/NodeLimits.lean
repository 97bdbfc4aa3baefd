import Froe.Content.MapLimits
import Froe.Content.NodeLookups
import Mathlib.Algebra.Order.BigOperators.Group.List

/-!
# Children within limits

A bounded enumeration of children reads only the head of a template.  Many children are a map
that is enumerated within the limits; the name of an only child is charged against both byte
limits, but the child itself is not counted (`boundedAgrees_iff`).
-/

namespace Froe

open Except (bind_ok_iff ok_bind_eq pure_ok_iff)

/-- A read outside of a budget. -/
def readOrRefuse {α : Type} (result : Result α) : Except EnumerationError α :=
  result.mapError .read

/-- Reads a string once its stored length is within the budget, and returns the consumed bytes. -/
def readStringWithStoredByteBudget (provider : SegmentProvider) (identifier : RecordIdentifier)
    (maximumStoredBytes consumedStoredBytes : Nat) : Except EnumerationError (String × Nat) := do
  let length ← readOrRefuse (readStringStoredLength provider identifier)
  let attemptedStoredBytes := saturatingAdd64 consumedStoredBytes length
  if attemptedStoredBytes > maximumStoredBytes then
    throw (.stringMaterializationBudgetExceeded maximumStoredBytes attemptedStoredBytes identifier)
  else return (← readOrRefuse (readString provider identifier), attemptedStoredBytes)

def TemplateHead.childNameCursor (head : TemplateHead) : Nat :=
  4 + (if head.hasPrimaryType then 6 else 0) + if head.hasMixinTypes then 6 * head.mixinCount else 0

namespace NodeState

/-- The first read of a template. -/
def templateHead (node : NodeState) : Result (RecordIdentifier × SegmentView × TemplateHead) := do
  let templateIdentifier ← node.templateIdentifier
  let view ← node.provider templateIdentifier.segment
  let head ← view.readU32 templateIdentifier.recordNumber 0
  return (templateIdentifier, view, .ofWord head)

/-- The children within limits, with the bytes of their stored names and the map records that were
read. -/
def childNodeEntriesWithLimits (node : NodeState) (limits : EnumerationLimits) :
    Except EnumerationError (List (String × RecordIdentifier) × Nat × Nat) := do
  let (templateIdentifier, view, head) ← readOrRefuse node.templateHead
  if head.manyChildNodes then
    let mapIdentifier ← readOrRefuse node.childMapIdentifier
    let (entries, storedNameBytes, visitedMapRecords) ←
      mapEntriesWithLimits node.provider limits mapIdentifier
    return (entries.map fun entry => (entry.name, entry.value), storedNameBytes, visitedMapRecords)
  else if head.zeroChildNodes then return ([], 0, 0)
  else
    let childNameIdentifier ← readOrRefuse
      (view.readRecordIdentifier templateIdentifier.recordNumber head.childNameCursor 0)
    -- the number of entries is not compared with a limit here
    let (childName, storedNameBytes) ← readStringWithStoredByteBudget node.provider
      childNameIdentifier (min limits.maximumStoredNameBytes limits.maximumWorkUnits) 0
    let childIdentifier ← readOrRefuse node.childMapIdentifier
    return ([(childName, childIdentifier)], storedNameBytes, 0)

/-! ## What an unbounded enumeration reads -/

/-- The records of the names of the children, in storage order, and the number of map records that
an unbounded enumeration reads. -/
def enumerationReads (node : NodeState) : Result (List RecordIdentifier × Nat) := do
  let (templateIdentifier, view, head) ← node.templateHead
  if head.manyChildNodes then
    let mapIdentifier ← node.childMapIdentifier
    let (_, root) ←
      readDiffChain node.provider mapIdentifier maximumWalkLength [] mapIdentifier
    let entries ← collectMapEntries node.provider recordIdentifierCount [] [root]
    return (entries.map CollectedEntry.keyIdentifier,
      (diffVisits node.provider maximumWalkLength mapIdentifier).length +
        (Looped.collectVisits node.provider recordIdentifierCount [] [root]).length)
  else if head.zeroChildNodes then return ([], 0)
  else
    let childNameIdentifier ←
      view.readRecordIdentifier templateIdentifier.recordNumber head.childNameCursor 0
    return ([childNameIdentifier], 0)

def storedBytes (node : NodeState) (nameIdentifiers : List RecordIdentifier) : Nat :=
  (nameIdentifiers.map (storedLength node.provider)).sum

/-- A bounded enumeration agrees with the unbounded one: it returns only what the limits admit,
then all children in their order, and it refuses only when a limit is exceeded by the totals of
the unbounded enumeration. -/
def BoundedAgrees (node : NodeState) (limits : EnumerationLimits) : Prop :=
  ∃ entries nameIdentifiers records, node.childNodeEntries = .ok entries ∧
    node.enumerationReads = .ok (nameIdentifiers, records) ∧
    (∀ listed storedNameBytes visitedMapRecords,
      node.childNodeEntriesWithLimits limits = .ok (listed, storedNameBytes, visitedMapRecords) →
        listed.length ≤ limits.maximumEntries ∧
          node.storedBytes nameIdentifiers ≤ limits.maximumStoredNameBytes ∧ listed = entries) ∧
    ∀ refusal, node.childNodeEntriesWithLimits limits = .error refusal →
      limits.maximumEntries < entries.length ∨
        limits.maximumStoredNameBytes < node.storedBytes nameIdentifiers ∨
        limits.maximumWorkUnits < records + node.storedBytes nameIdentifiers

/-- The node has an only child whose name fits both byte limits, and the limits admit no entry. -/
def OnlyChildBeyondLimit (node : NodeState) (limits : EnumerationLimits) : Prop :=
  limits.maximumEntries = 0 ∧
    ∃ templateIdentifier view head childNameIdentifier,
      node.templateHead = .ok (templateIdentifier, view, head) ∧
      head.manyChildNodes = false ∧ head.zeroChildNodes = false ∧
      view.readRecordIdentifier templateIdentifier.recordNumber head.childNameCursor 0 =
        .ok childNameIdentifier ∧
      storedLength node.provider childNameIdentifier ≤
        min limits.maximumStoredNameBytes limits.maximumWorkUnits

/-! ## The arities -/

section

variable {node : NodeState} {limits : EnumerationLimits}

theorem readOrRefuse_ok {α : Type} {result : Result α} {a : α} (h : result = .ok a) :
    readOrRefuse result = .ok a := by
  rw [h]
  rfl

variable {provider : SegmentProvider}
  {identifier templateIdentifier record root : RecordIdentifier} {view : SegmentView}
  {template : Template} {head : TemplateHead} {diffs : List CollectedEntry}

theorem readPrimaryType_cursor {hasPrimaryType : Bool} {cursor after : Nat} {primaryType : Option String}
    (h : readPrimaryType provider identifier view hasPrimaryType cursor =
      .ok (primaryType, after)) : after = cursor + if hasPrimaryType then 6 else 0 := by
  cases hasPrimaryType with
  | true =>
    obtain ⟨name, -, h⟩ := bind_ok_iff.mp h
    exact (Prod.mk.inj (pure_ok_iff.mp h)).2.symm
  | false => exact (Prod.mk.inj (Except.ok.inj h)).2.symm

theorem readMixinTypes_cursor {hasMixinTypes : Bool} {mixinCount cursor after : Nat}
    {mixinTypes : List String}
    (h : readMixinTypes provider identifier view hasMixinTypes mixinCount cursor =
      .ok (mixinTypes, after)) : after = cursor + if hasMixinTypes then 6 * mixinCount else 0 := by
  cases hasMixinTypes with
  | true =>
    obtain ⟨names, -, h⟩ := bind_ok_iff.mp h
    exact (Prod.mk.inj (pure_ok_iff.mp h)).2.symm
  | false => exact (Prod.mk.inj (Except.ok.inj h)).2.symm

/-- What the head of a template that can be read says of the children. -/
theorem templateHead_of_template (h : node.template = .ok template) :
    ∃ templateIdentifier view head, node.templateHead = .ok (templateIdentifier, view, head) ∧
      ((template.childArity = .many ∧ head.manyChildNodes = true) ∨
        (template.childArity = .zero ∧ head.manyChildNodes = false ∧ head.zeroChildNodes = true) ∨
        ∃ childName childNameIdentifier, template.childArity = .one childName ∧
          head.manyChildNodes = false ∧ head.zeroChildNodes = false ∧
          view.readRecordIdentifier templateIdentifier.recordNumber head.childNameCursor 0 =
            .ok childNameIdentifier ∧
          readString node.provider childNameIdentifier = .ok childName) := by
  obtain ⟨templateIdentifier, hidentifier, h⟩ := bind_ok_iff.mp h
  obtain ⟨view, hview, h⟩ := bind_ok_iff.mp h
  obtain ⟨word, hword, h⟩ := bind_ok_iff.mp h
  obtain ⟨⟨primaryType, afterPrimary⟩, hprimary, h⟩ := bind_ok_iff.mp h
  obtain ⟨⟨mixinTypes, afterMixins⟩, hmixins, h⟩ := bind_ok_iff.mp h
  obtain ⟨⟨childArity, afterArity⟩, harity, h⟩ := bind_ok_iff.mp h
  obtain ⟨properties, -, h⟩ := bind_ok_iff.mp h
  obtain rfl := pure_ok_iff.mp h
  refine ⟨templateIdentifier, view, .ofWord word, ?_, ?_⟩
  · exact bind_ok_iff.mpr ⟨_, hidentifier, bind_ok_iff.mpr ⟨_, hview,
      bind_ok_iff.mpr ⟨_, hword, rfl⟩⟩⟩
  have hcursor : afterMixins = (TemplateHead.ofWord word).childNameCursor := by
    rw [readMixinTypes_cursor hmixins, readPrimaryType_cursor hprimary]
    rfl
  rw [readChildArity] at harity
  split at harity
  · rename_i hmany
    obtain ⟨rfl, -⟩ := Prod.mk.inj (Except.ok.inj harity)
    exact .inl ⟨rfl, hmany⟩
  rename_i hmany
  split at harity
  · rename_i hzero
    obtain ⟨rfl, -⟩ := Prod.mk.inj (Except.ok.inj harity)
    exact .inr (.inl ⟨rfl, Bool.eq_false_of_not_eq_true hmany, hzero⟩)
  · rename_i hzero
    obtain ⟨childName, hname, harity⟩ := bind_ok_iff.mp harity
    obtain ⟨rfl, -⟩ := Prod.mk.inj (pure_ok_iff.mp harity)
    obtain ⟨childNameIdentifier, hread, hname⟩ := bind_ok_iff.mp hname
    rw [hcursor] at hread
    exact .inr (.inr ⟨childName, childNameIdentifier, rfl, Bool.eq_false_of_not_eq_true hmany,
      Bool.eq_false_of_not_eq_true hzero, hread, hname⟩)

/-- Without children there is nothing to be counted. -/
theorem boundedAgrees_zero (htemplate : node.template = .ok template)
    (harity : template.childArity = .zero)
    (hhead : node.templateHead = .ok (templateIdentifier, view, head))
    (hmany : head.manyChildNodes = false) (hzero : head.zeroChildNodes = true) :
    node.BoundedAgrees limits := by
  refine ⟨[], [], 0, ?_, ?_, ?_, ?_⟩
  · rw [childNodeEntries, htemplate, ok_bind_eq, harity]
    rfl
  · rw [enumerationReads, hhead, ok_bind_eq]
    dsimp only
    rw [hmany, if_neg Bool.false_ne_true, hzero]
    rfl
  all_goals
    rw [childNodeEntriesWithLimits, readOrRefuse_ok hhead, ok_bind_eq]
    dsimp only
    rw [hmany, if_neg Bool.false_ne_true, hzero, if_pos rfl]
  · rintro listed _ _ hlisted
    obtain ⟨rfl, -⟩ := Prod.mk.inj (pure_ok_iff.mp hlisted)
    exact ⟨Nat.zero_le _, Nat.zero_le _, rfl⟩
  · intro refusal hrefused
    cases hrefused

/-- What a bounded enumeration does with an only child. -/
theorem childNodeEntriesWithLimits_one {templateIdentifier childNameIdentifier child :
    RecordIdentifier} {view : SegmentView} {head : TemplateHead} {childName : String}
    (hhead : node.templateHead = .ok (templateIdentifier, view, head))
    (hmany : head.manyChildNodes = false) (hzero : head.zeroChildNodes = false)
    (hidentifier : view.readRecordIdentifier templateIdentifier.recordNumber head.childNameCursor 0 =
      .ok childNameIdentifier)
    (hname : readString node.provider childNameIdentifier = .ok childName)
    (hchild : node.childMapIdentifier = .ok child) :
    node.childNodeEntriesWithLimits limits =
      if storedLength node.provider childNameIdentifier >
          min limits.maximumStoredNameBytes limits.maximumWorkUnits then
        .error (.stringMaterializationBudgetExceeded
          (min limits.maximumStoredNameBytes limits.maximumWorkUnits)
          (storedLength node.provider childNameIdentifier) childNameIdentifier)
      else .ok ([(childName, child)], storedLength node.provider childNameIdentifier, 0) := by
  obtain ⟨hlength, hlt⟩ := readStringStoredLength_eq hname
  have hadd : saturatingAdd64 0 (storedLength node.provider childNameIdentifier) =
      storedLength node.provider childNameIdentifier := by
    rw [saturatingAdd64_of_le, Nat.zero_add]
    exact (Nat.zero_add _).le.trans (hlt.le.trans (by decide))
  rw [childNodeEntriesWithLimits, readOrRefuse_ok hhead, ok_bind_eq]
  dsimp only
  rw [hmany, if_neg Bool.false_ne_true, hzero, if_neg Bool.false_ne_true,
    readOrRefuse_ok hidentifier, ok_bind_eq, readStringWithStoredByteBudget,
    readOrRefuse_ok hlength, ok_bind_eq]
  dsimp only
  rw [hadd]
  split
  · rfl
  · rw [readOrRefuse_ok hname, ok_bind_eq, readOrRefuse_ok hchild]
    rfl

/-- An only child is returned whenever its name fits. -/
theorem boundedAgrees_one_iff {childNameIdentifier child : RecordIdentifier} {childName : String}
    (htemplate : node.template = .ok template) (harity : template.childArity = .one childName)
    (hhead : node.templateHead = .ok (templateIdentifier, view, head))
    (hmany : head.manyChildNodes = false) (hzero : head.zeroChildNodes = false)
    (hidentifier : view.readRecordIdentifier templateIdentifier.recordNumber head.childNameCursor 0 =
      .ok childNameIdentifier)
    (hname : readString node.provider childNameIdentifier = .ok childName)
    (hchild : node.childMapIdentifier = .ok child) :
    node.BoundedAgrees limits ↔ ¬ node.OnlyChildBeyondLimit limits := by
  have hrun := @childNodeEntriesWithLimits_one node limits _ _ _ _ _ _ hhead hmany hzero hidentifier
    hname hchild
  constructor
  · rintro ⟨entries, nameIdentifiers, records, -, -, hlisted, -⟩ ⟨hnone, other⟩
    obtain ⟨templateIdentifier', view', head', identifier', hhead', -, -, hidentifier', hfits⟩ := other
    cases hhead.symm.trans hhead'
    obtain rfl := Except.ok.inj (hidentifier.symm.trans hidentifier')
    rw [if_neg (Nat.not_lt.mpr hfits)] at hrun
    have hone := (hlisted _ _ _ hrun).1
    rw [hnone] at hone
    cases hone
  · intro hnot
    have hbytes : node.storedBytes [childNameIdentifier] =
        storedLength node.provider childNameIdentifier := Nat.add_zero _
    refine ⟨[(childName, child)], [childNameIdentifier], 0, ?_, ?_, ?_, ?_⟩
    · rw [childNodeEntries, htemplate, ok_bind_eq, harity]
      dsimp only
      rw [hchild]
      rfl
    · rw [enumerationReads, hhead, ok_bind_eq]
      dsimp only
      rw [hmany, if_neg Bool.false_ne_true, hzero, if_neg Bool.false_ne_true, hidentifier]
      rfl
    · intro listed _ _ hlisted
      rw [hrun] at hlisted
      split at hlisted
      · cases hlisted
      · rename_i hfits
        obtain ⟨rfl, -⟩ := Prod.mk.inj (Except.ok.inj hlisted)
        refine ⟨Nat.one_le_iff_ne_zero.mpr fun hnone => hnot ⟨hnone, ?_⟩, ?_, rfl⟩
        · exact ⟨_, _, _, _, hhead, hmany, hzero, hidentifier, Nat.le_of_not_lt hfits⟩
        · rw [hbytes]
          exact (Nat.le_of_not_lt hfits).trans (Nat.min_le_left ..)
    · intro refusal hrefused
      rw [hrun] at hrefused
      split at hrefused
      · rename_i hexceeds
        rw [hbytes, Nat.zero_add]
        exact .inr (min_lt_iff.mp hexceeds)
      · cases hrefused

/-- The totals of the enumeration of a well-formed map are 64-bit numbers. -/
theorem representable_listing {entries : List CollectedEntry} {depth : Nat}
    (h : MapAt provider record root diffs entries depth) :
    limits.meter.representable (.listing provider entries
      ((diffVisits provider maximumWalkLength record).length +
        (Looped.collectVisits provider recordIdentifierCount [] [root]).length)) := by
  obtain ⟨nodes, htrie, -⟩ := h.trie
  have hentries := h.size
  have hdiffs := @length_diffVisits_le provider maximumWalkLength record
  have hvisits := @TrieAt.length_collectVisits _ _ _ recordIdentifierCount _ _ _ htrie h.size
  have hnodes : nodes.length ≤ 33 ^ maximumLevel :=
    htrie.shape.length_nodes.trans (Nat.pow_le_pow_right (by decide) h.depth)
  have hbytes : (entries.map fun entry => storedLength provider entry.keyIdentifier).sum ≤
      entries.length * 2 ^ 31 := by
    refine (List.sum_le_card_nsmul _ (2 ^ 31) fun bytes hbytes => ?_).trans_eq ?_
    · obtain ⟨entry, hentry, rfl⟩ := List.mem_map.mp hbytes
      exact (readStringStoredLength_eq (htrie.names entry hentry)).2.le
    · rw [List.length_map, Nat.nsmul_eq_mul]
  have hmaximum : maximumMapSize = 2 ^ 29 - 2 := rfl
  have hlevel : 33 ^ maximumLevel = 42618442977 := rfl
  have hwalk : maximumWalkLength = 1024 := rfl
  have hu64 : u64Maximum = 2 ^ 64 - 1 := rfl
  constructor
  · change entries.length ≤ u64Maximum
    omega
  · change _ + _ + (entries.map fun entry => storedLength provider entry.keyIdentifier).sum ≤ u64Maximum
    omega

/-- A map of children is enumerated up to the limits. -/
theorem boundedAgrees_many {collected : List CollectedEntry} {depth : Nat}
    (htemplate : node.template = .ok template) (harity : template.childArity = .many)
    (hhead : node.templateHead = .ok (templateIdentifier, view, head))
    (hmany : head.manyChildNodes = true) (hrecord : node.childMapIdentifier = .ok record)
    (hmap : MapAt node.provider record root diffs collected depth)
    (hwalk : diffs.length < maximumWalkLength) : node.BoundedAgrees limits := by
  obtain ⟨nodes, htrie, hnodup⟩ := hmap.trie
  have hchain := hmap.readDiffChain hwalk
  have hcollect := htrie.collect hmap.depth hmap.size hnodup
  obtain ⟨hdone, hrefused⟩ := @mapEntriesWithLimits_spec node.provider limits _ _ _ _ _ hchain
    hcollect rfl (representable_listing hmap)
  have hrun : node.childNodeEntriesWithLimits limits = (do
      let (entries, storedNameBytes, visitedMapRecords) ←
        mapEntriesWithLimits node.provider limits record
      return (entries.map fun entry => (entry.name, entry.value), storedNameBytes,
        visitedMapRecords)) := by
    rw [childNodeEntriesWithLimits, readOrRefuse_ok hhead, ok_bind_eq]
    dsimp only
    rw [hmany, if_pos rfl, readOrRefuse_ok hrecord, ok_bind_eq]
  have hentries : mapEntries node.provider record =
      .ok (collected.map (CollectedEntry.overlaid (rememberOverlays [] diffs))) :=
    bind_ok_iff.mpr ⟨_, hchain, bind_ok_iff.mpr ⟨_, hcollect, rfl⟩⟩
  have hbytes : node.storedBytes (collected.map CollectedEntry.keyIdentifier) =
      (collected.map fun entry => storedLength node.provider entry.keyIdentifier).sum := by
    rw [storedBytes, List.map_map]
    rfl
  refine ⟨(collected.map (CollectedEntry.overlaid (rememberOverlays [] diffs))).map
      fun entry => (entry.name, entry.value), collected.map CollectedEntry.keyIdentifier,
    (diffVisits node.provider maximumWalkLength record).length +
      (Looped.collectVisits node.provider recordIdentifierCount [] [root]).length, ?_, ?_, ?_, ?_⟩
  · rw [childNodeEntries, htemplate, ok_bind_eq, harity]
    dsimp only
    rw [hrecord, ok_bind_eq, hentries]
    rfl
  · rw [enumerationReads, hhead, ok_bind_eq]
    dsimp only
    rw [hmany, if_pos rfl, hrecord, ok_bind_eq, hchain, ok_bind_eq]
    dsimp only
    rw [hcollect]
    rfl
  all_goals
    rw [hrun, hbytes]
    by_cases hwithin : limits.meter.within (.listing node.provider collected
      ((diffVisits node.provider maximumWalkLength record).length +
        (Looped.collectVisits node.provider recordIdentifierCount [] [root]).length))
  · rw [hdone hwithin, ok_bind_eq]
    intro listed _ _ hlisted
    obtain ⟨rfl, -⟩ := Prod.mk.inj (pure_ok_iff.mp hlisted)
    refine ⟨?_, hwithin.2.1, rfl⟩
    rw [List.length_map, List.length_map]
    exact hwithin.1
  · obtain ⟨e, herror⟩ := hrefused hwithin
    rw [herror]
    rintro _ _ _ ⟨⟩
  · rw [hdone hwithin, ok_bind_eq]
    rintro _ ⟨⟩
  · intro refusal _
    rw [List.length_map, List.length_map]
    by_contra hnone
    obtain ⟨hentriesFit, hrest⟩ := not_or.mp hnone
    obtain ⟨hnamesFit, hworkFits⟩ := not_or.mp hrest
    exact hwithin ⟨Nat.le_of_not_lt hentriesFit, Nat.le_of_not_lt hnamesFit,
      Nat.le_of_not_lt hworkFits⟩

/-- On a well-formed node a bounded enumeration agrees with the unbounded one, but for an only
child that the limits admit no entry for. -/
theorem boundedAgrees_iff {node : NodeState} {template : Template}
    (htemplate : node.template = .ok template) (hchildren : node.HasChildren template.childArity)
    (limits : EnumerationLimits) :
    node.BoundedAgrees limits ↔ ¬ node.OnlyChildBeyondLimit limits := by
  obtain ⟨templateIdentifier, view, head, hhead, harity⟩ := templateHead_of_template htemplate
  have hother : (head.manyChildNodes = true ∨ head.zeroChildNodes = true) →
      ¬ node.OnlyChildBeyondLimit limits := by
    rintro hnotOne ⟨-, _, _, _, _, hhead', hmany, hzero, -⟩
    cases hhead.symm.trans hhead'
    rcases hnotOne with h | h
    · exact Bool.false_ne_true (hmany.symm.trans h)
    · exact Bool.false_ne_true (hzero.symm.trans h)
  rcases harity with ⟨harity, hmany⟩ | ⟨harity, hmany, hzero⟩ |
    ⟨childName, childNameIdentifier, harity, hmany, hzero, hidentifier, hname⟩
  · rw [harity] at hchildren
    obtain ⟨record, root, diffs, entries, depth, hrecord, hmap, hwalk⟩ := hchildren
    refine iff_of_true ?_ (hother (.inl hmany))
    exact boundedAgrees_many htemplate harity hhead hmany hrecord hmap (by omega)
  · refine iff_of_true ?_ (hother (.inr hzero))
    exact boundedAgrees_zero htemplate harity hhead hmany hzero
  · rw [harity] at hchildren
    obtain ⟨child, hchild⟩ := hchildren
    exact boundedAgrees_one_iff htemplate harity hhead hmany hzero hidentifier hname hchild

/-- An only child within limits. -/
theorem boundedAgrees_lookupNode : lookupNode.BoundedAgrees ⟨1, 10, 10⟩ ↔
    ¬ lookupNode.OnlyChildBeyondLimit ⟨1, 10, 10⟩ := by
  have htemplate : lookupNode.template = .ok lookupTemplate := by decide +kernel
  have hchild : lookupNode.childMapIdentifier = .ok (lookupRecord 5) := by decide +kernel
  exact boundedAgrees_iff htemplate ⟨_, hchild⟩ ⟨1, 10, 10⟩

/-- An only child is returned under a limit of no entries. -/
theorem only_child_uncounted :
    ¬ ∀ (node : NodeState) (template : Template) (limits : EnumerationLimits),
      node.template = .ok template → node.HasChildren template.childArity →
      node.BoundedAgrees limits := by
  intro h
  have htemplate : lookupNode.template = .ok lookupTemplate := by decide +kernel
  have hchild : lookupNode.childMapIdentifier = .ok (lookupRecord 5) := by decide +kernel
  obtain ⟨_, _, _, -, -, hlisted, -⟩ := h lookupNode lookupTemplate ⟨0, 10, 10⟩ htemplate ⟨_, hchild⟩
  have hrun : (lookupNode.childNodeEntriesWithLimits ⟨0, 10, 10⟩).toOption =
      some ([("t", lookupRecord 5)], 1, 0) := by decide +kernel
  cases hresult : lookupNode.childNodeEntriesWithLimits ⟨0, 10, 10⟩ with
  | error refusal =>
    rw [hresult] at hrun
    cases hrun
  | ok result =>
    rw [hresult] at hrun
    obtain rfl := Option.some.inj hrun
    exact absurd (hlisted _ _ _ hresult).1 (by decide)

end

end NodeState

end Froe
