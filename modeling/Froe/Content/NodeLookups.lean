import Froe.Content.MapDiff
import Froe.Content.PropertyTypes
import Froe.Lib.Related

/-!
# Looking up and enumerating

A node's properties and children can be enumerated or looked up by name.  A lookup
does not enumerate: it takes the slot of a name from the template and descends to
that one element of the value list, or walks the child map.  On a well-formed node
the two agree (`lookups_agree`).
-/

namespace Froe

open Except (bind_ok_iff ok_bind_eq)

namespace NodeState

variable {f : FloatingPoint} {node : NodeState}

/-! ## Properties -/

theorem propertyFromValue_name {slot : PropertyTemplate} {valueIdentifier : RecordIdentifier}
    {state : PropertyState f} (h : node.propertyFromValue f slot valueIdentifier = .ok state) :
    state.name = slot.name := by
  rw [propertyFromValue] at h
  split at h
  · obtain ⟨counted, -, h⟩ := bind_ok_iff.mp h
    split at h
    · rw [← Except.pure_ok_iff.mp h]
    · obtain ⟨elements, -, h⟩ := bind_ok_iff.mp h
      obtain ⟨values, -, h⟩ := bind_ok_iff.mp h
      rw [← Except.pure_ok_iff.mp h]
  · obtain ⟨value, -, h⟩ := bind_ok_iff.mp h
    rw [← Except.pure_ok_iff.mp h]

/-- Each stored property is the one that a descent to its slot reads. -/
theorem storedPropertyStates_slots {template : Template} {states : List (PropertyState f)}
    (hne : template.properties ≠ []) (h : node.storedPropertyStates f template = .ok states) :
    ∃ listIdentifier, node.propertyListIdentifier template = .ok listIdentifier ∧
      List.Forall₂ (fun slot state => state.name = slot.1.name ∧
        ∃ valueIdentifier,
          uncountedListEntry node.provider listIdentifier template.properties.length slot.2 =
            .ok valueIdentifier ∧
          node.propertyFromValue f slot.1 valueIdentifier = .ok state)
        template.properties.zipIdx states := by
  rw [storedPropertyStates, if_neg hne] at h
  obtain ⟨listIdentifier, hlist, h⟩ := bind_ok_iff.mp h
  obtain ⟨valueIdentifiers, hvalues, h⟩ := bind_ok_iff.mp h
  obtain ⟨⟨⟩, hsize, hcollect⟩ := bind_ok_iff.mp hvalues
  obtain ⟨hlength, hdescend⟩ :=
    descendToEntry_of_collectEntries (List.length_pos_iff.mpr hne) hcollect
  obtain ⟨hcount, hstates⟩ := List.forall₂_iff_get.mp (Except.mapM_ok_iff.mp h)
  rw [List.length_zip, hlength, Nat.min_self] at hcount
  refine ⟨listIdentifier, hlist, List.forall₂_iff_get.mpr ⟨?_, fun i hi hi' => ?_⟩⟩
  · rw [List.length_zipIdx, hcount]
  · have hslot : i < template.properties.length := hcount ▸ hi'
    have hvalue : i < valueIdentifiers.length := hlength ▸ hslot
    have hstate := hstates i (by rw [List.length_zip, hlength, Nat.min_self]; exact hslot) hi'
    simp only [List.get_eq_getElem, List.getElem_zip, List.getElem_zipIdx, Nat.zero_add] at hstate ⊢
    refine ⟨propertyFromValue_name hstate, valueIdentifiers[i], ?_, hstate⟩
    rw [uncountedListEntry, hsize, ok_bind_eq, if_neg (Nat.not_le.mpr hslot)]
    exact hdescend i hvalue

/-- A lookup of a property finds the first one of its name in the enumeration. -/
theorem property_eq_find {properties : List (PropertyState f)}
    (h : node.properties f = .ok properties) (name : String) :
    node.property f name = .ok (properties.find? fun property => property.name == name) := by
  obtain ⟨template, htemplate, h⟩ := bind_ok_iff.mp h
  obtain ⟨stored, hstored, h⟩ := bind_ok_iff.mp h
  obtain rfl := Except.pure_ok_iff.mp h
  rw [property, htemplate, ok_bind_eq, List.find?_append]
  cases (synthesizedProperties f template).find? fun property => property.name == name with
  | some synthesized => rfl
  | none =>
    rw [Option.none_or]
    dsimp only
    by_cases hne : template.properties = []
    · rw [storedPropertyStates, if_pos hne] at hstored
      obtain rfl := Except.ok.inj hstored
      rw [propertyByName, hne]
      rfl
    · obtain ⟨listIdentifier, hlist, hslots⟩ := storedPropertyStates_slots hne hstored
      have hfound := Related.find_related (p := fun slot => slot.1.name == name)
        (q := fun property => property.name == name)
        (hslots.imp fun slot state hboth => ⟨by rw [hboth.1], hboth.2⟩)
      rw [propertyByName]
      generalize template.properties.zipIdx.find? (fun slot => slot.1.name == name) = slot
        at hfound ⊢
      generalize stored.find? (fun property => property.name == name) = found at hfound ⊢
      cases hfound with
      | none => rfl
      | @some slot state hread =>
        obtain ⟨valueIdentifier, hentry, hvalue⟩ := hread
        dsimp only
        rw [hlist, ok_bind_eq, hentry, ok_bind_eq, hvalue]
        rfl

/-! ## Children -/

/-- The children that a well-formed node has in its record: none, one, or a well-formed map that
walks reach the bottom of. -/
def HasChildren (node : NodeState) : ChildNodeArity → Prop
  | .zero => True
  | .one _ => ∃ child, node.childMapIdentifier = .ok child
  | .many => ∃ record root diffs entries depth, node.childMapIdentifier = .ok record ∧
      MapAt node.provider record root diffs entries depth ∧
      diffs.length + depth < maximumWalkLength

/-- A well-formed node record: its template, its properties and its children are there. -/
structure WellFormed (f : FloatingPoint) (node : NodeState) : Prop where
  template : ∃ template, node.template = .ok template ∧ node.HasChildren template.childArity
  properties : ∃ properties, node.properties f = .ok properties

/-- A lookup of a child finds the one of its name in the enumeration, and no name is listed
twice. -/
theorem childNode_eq_find {template : Template} (htemplate : node.template = .ok template)
    (h : node.HasChildren template.childArity) :
    ∃ entries, node.childNodeEntries = .ok entries ∧ (entries.map Prod.fst).Nodup ∧
      ∀ name, node.childNode name =
        .ok ((entries.find? fun entry => entry.1 == name).map Prod.snd) := by
  cases harity : template.childArity with
  | zero =>
    refine ⟨[], ?_, List.nodup_nil, fun name => ?_⟩
    · rw [childNodeEntries, htemplate, ok_bind_eq, harity]
      rfl
    · rw [childNode, htemplate, ok_bind_eq, harity]
      rfl
  | one childName =>
    rw [harity] at h
    obtain ⟨child, hchild⟩ := h
    refine ⟨[(childName, child)], ?_, List.nodup_singleton _, fun name => ?_⟩
    · rw [childNodeEntries, htemplate, ok_bind_eq, harity]
      dsimp only
      rw [hchild]
      rfl
    · rw [childNode, htemplate, ok_bind_eq, harity, List.find?_singleton]
      dsimp only
      by_cases hname : childName = name
      · rw [if_pos hname, if_pos (beq_iff_eq.mpr hname), hchild]
        rfl
      · rw [if_neg hname, if_neg fun hsame => hname (beq_iff_eq.mp hsame)]
        rfl
  | many =>
    rw [harity] at h
    obtain ⟨record, root, diffs, collected, depth, hrecord, hmap, hwalk⟩ := h
    obtain ⟨nodes, htrie, -⟩ := hmap.trie
    refine ⟨(collected.map fun entry =>
      (⟨entry.name, (valueOf diffs entry.name).getD entry.value⟩ : MapEntry)).map
        fun entry => (entry.name, entry.value), ?_, ?_, fun name => ?_⟩
    · rw [childNodeEntries, htemplate, ok_bind_eq, harity]
      dsimp only
      rw [hrecord, ok_bind_eq, hmap.mapEntries (by omega)]
      rfl
    · rw [List.map_map, List.map_map]
      exact htrie.distinct
    · rw [childNode, htemplate, ok_bind_eq, harity]
      dsimp only
      have hpairs : ∀ listed : List MapEntry,
          ((listed.map fun entry => (entry.name, entry.value)).find? fun entry =>
            entry.1 == name).map Prod.snd =
          (listed.find? fun entry => entry.name == name).map MapEntry.value := by
        intro listed
        rw [List.find?_map, Option.map_map]
        rfl
      rw [hrecord, ok_bind_eq, hmap.mapEntry hwalk, hpairs, hmap.find?_listed]

/-- On a well-formed node a lookup of a property finds the first one of its name in the
enumeration, and a lookup of a child the only one. -/
theorem lookups_agree {f : FloatingPoint} {node : NodeState} (h : node.WellFormed f) :
    ∃ properties entries, node.properties f = .ok properties ∧
      node.childNodeEntries = .ok entries ∧ (entries.map Prod.fst).Nodup ∧
      (∀ name, node.property f name =
        .ok (properties.find? fun property => property.name == name)) ∧
      ∀ name, node.childNode name =
        .ok ((entries.find? fun entry => entry.1 == name).map Prod.snd) := by
  obtain ⟨template, htemplate, hchildren⟩ := h.template
  obtain ⟨properties, hproperties⟩ := h.properties
  obtain ⟨entries, hentries, hnodup, hchild⟩ := childNode_eq_find htemplate hchildren
  exact ⟨properties, entries, hproperties, hentries, hnodup, property_eq_find hproperties, hchild⟩

/-! A segment with a node that has a primary type, an array `t` without values and a child `t`
without properties. -/

/-- A segment with a node. -/
def lookupSegment : Bytes :=
  [0x30, 0x61, 0x4B, 12] ++ List.replicate 14 0 ++ [0, 0, 0, 6] ++ List.replicate 10 0 ++
    [0, 0, 0, 0, 4, 0, 3, 0xFF, 0xB8] ++ [0, 0, 0, 1, 6, 0, 3, 0xFF, 0xBC] ++
    [0, 0, 0, 2, 3, 0, 3, 0xFF, 0xD4] ++ [0, 0, 0, 3, 7, 0, 3, 0xFF, 0xD8] ++
    [0, 0, 0, 4, 6, 0, 3, 0xFF, 0xF0] ++ [0, 0, 0, 5, 7, 0, 3, 0xFF, 0xF4] ++
    [1, 116, 0, 0] ++
    [0x80, 0, 0, 1] ++ [0, 0, 0, 0, 0, 0] ++ [0, 0, 0, 0, 0, 0] ++ [0, 0, 0, 0, 0, 0] ++ [0xFF, 0] ++
    [0, 0, 0, 0] ++
    [0, 0, 0, 0, 0, 3] ++ [0, 0, 0, 0, 0, 1] ++ [0, 0, 0, 0, 0, 5] ++ [0, 0, 0, 0, 0, 2] ++
    [0x20, 0, 0, 0] ++
    [0, 0, 0, 0, 0, 5] ++ [0, 0, 0, 0, 0, 4]

def lookupRecord (recordNumber : UInt32) : RecordIdentifier :=
  ⟨⟨0, 0xA000000000000000⟩, recordNumber⟩

/-- The node of that segment. -/
def lookupNode : NodeState where
  provider identifier := do return ⟨← ParsedSegment.parse identifier lookupSegment, lookupSegment⟩
  recordIdentifier := lookupRecord 3

/-- Its template. -/
def lookupTemplate : Template := ⟨some "t", [], .one "t", [⟨"t", .string, true⟩]⟩

theorem wellFormed_lookupNode : lookupNode.WellFormed oneDouble := by
  have htemplate : lookupNode.template = .ok lookupTemplate := by decide +kernel
  have hchild : lookupNode.childMapIdentifier = .ok (lookupRecord 5) := by decide +kernel
  have hlist : lookupNode.propertyListIdentifier lookupTemplate = .ok (lookupRecord 2) := by
    decide +kernel
  have hcounted : readCountedList lookupNode.provider (lookupRecord 2) = .ok ⟨0, none⟩ := by
    decide +kernel
  have hproperty : lookupNode.propertyFromValue oneDouble ⟨"t", .string, true⟩ (lookupRecord 2) =
      .ok ⟨"t", .string, .multiple []⟩ := bind_ok_iff.mpr ⟨_, hcounted, rfl⟩
  have hstored : lookupNode.storedPropertyStates oneDouble lookupTemplate =
      .ok [⟨"t", .string, .multiple []⟩] := by
    refine bind_ok_iff.mpr ⟨_, hlist, bind_ok_iff.mpr ⟨_, collectEntries_one, ?_⟩⟩
    exact Except.mapM_cons_ok_iff.mpr ⟨_, [], hproperty, rfl, rfl⟩
  exact ⟨⟨_, htemplate, _, hchild⟩,
    _, bind_ok_iff.mpr ⟨_, htemplate, bind_ok_iff.mpr ⟨_, hstored, rfl⟩⟩⟩

/-- Lookups and enumerations of a node with a primary type, a property and a child. -/
theorem lookups_agree_lookupNode :
    ∃ properties entries, lookupNode.properties oneDouble = .ok properties ∧
      lookupNode.childNodeEntries = .ok entries ∧ (entries.map Prod.fst).Nodup ∧
      (∀ name, lookupNode.property oneDouble name =
        .ok (properties.find? fun property => property.name == name)) ∧
      ∀ name, lookupNode.childNode name =
        .ok ((entries.find? fun entry => entry.1 == name).map Prod.snd) :=
  lookups_agree wellFormed_lookupNode

/-! A node whose children are a map under 1024 diffs, in the segment of the map. -/

def chainTemplate : List Field := [.raw (Bytes.be32 0x10000000)]

def chainNode : List Field :=
  [.identifier (chainRecord 1027), .identifier (chainRecord 1026), .identifier (chainRecord 1025)]

/-- A lookup of a child stops at the first diff of its name, but the children of the node are not
listed any more. -/
theorem childNode_under_long_chain : ∃ node : NodeState, ∃ record root diffs entries depth,
    node.template = .ok ⟨none, [], .many, []⟩ ∧ node.properties oneDouble = .ok [] ∧
      node.childMapIdentifier = .ok record ∧
      MapAt node.provider record root diffs entries depth ∧
      node.childNode "a" = .ok (some (chainRecord 1024)) ∧
      ∀ children, node.childNodeEntries ≠ .ok children := by
  obtain ⟨b, h⟩ := exists_chain 1024 le_rfl
  have hdata := h.data
  obtain ⟨b₁, htemplate, href₁, hdata₁⟩ := @exists_filled b .template chainTemplate h.bounded
    h.references (by rw [h.length]; simp [chainTemplate, fieldsLength, Field.length]; omega)
    (by decide) (fun record hmem => by simp [chainTemplate] at hmem)
  have hlength₁ : b₁.records.length = 1027 := by rw [htemplate.length, h.length]
  have hown₁ : b₁.identifier = chainSegment := htemplate.grows.identifier.trans h.identifier
  obtain ⟨b₂, hnode, -, -⟩ := @exists_filled b₁ .node chainNode htemplate.bounded href₁
    (by
      rw [hlength₁, hdata₁]
      simp [chainTemplate, chainNode, fieldsLength, Field.length, alignedSize]
      omega)
    (by decide) (by
      intro record hmem
      rw [hown₁]
      simp only [chainNode, List.mem_cons, Field.identifier.injEq, List.not_mem_nil,
        or_false] at hmem
      rcases hmem with rfl | rfl | rfl <;> rfl)
  have hgrows := htemplate.grows.trans hnode.grows
  obtain ⟨parsed, -, hparsed⟩ := SegmentBufferBuilder.parse_finish hnode.bounded
    (by rw [hgrows.identifier, h.identifier]; decide)
  obtain ⟨view, hview⟩ : ∃ view : SegmentView, view = ⟨parsed, b₂.finish.bytes⟩ := ⟨_, rfl⟩
  have hholds : ∀ {n : Nat} {recordType : RecordType} {fields : List Field},
      b₂.Holds n recordType fields → view.Holds (chainRecord n).recordNumber 0 fields := by
    intro n recordType fields hrecord
    rw [hview]
    exact hrecord.finish hnode.bounded hparsed
  have hmap : MapAt (fun _ => .ok view) (chainRecord 1025) (chainRecord 1) (chainDiffs 1024)
      [chainEntry 0] 0 :=
    mapAt_of_holds (hholds (h.key.of_grows hgrows)) (hholds (h.leaf.of_grows hgrows))
      fun i hi => hholds ((h.diffs i hi).of_grows hgrows)
  have htemplateHolds := htemplate.holds.of_grows hnode.grows
  rw [h.length] at htemplateHolds
  have htemplateView := hholds htemplateHolds
  have hnodeHolds := hnode.holds
  rw [hlength₁] at hnodeHolds
  obtain ⟨-, htemplateSlot, hmapSlot, -⟩ := hholds hnodeHolds
  have hread : readTemplate (fun _ => .ok view) (chainRecord 1026) =
      .ok ⟨none, [], .many, []⟩ := by
    rw [readTemplate, ok_bind_eq, htemplateView.readU32]
    rfl
  have hnodeTemplate : template ⟨fun _ => .ok view, chainRecord 1027⟩ =
      .ok ⟨none, [], .many, []⟩ := by
    rw [template, templateIdentifier, slot, ok_bind_eq, SegmentView.readRecordIdentifier_index]
    exact bind_ok_iff.mpr ⟨_, htemplateSlot, hread⟩
  have hnodeMap : childMapIdentifier ⟨fun _ => .ok view, chainRecord 1027⟩ =
      .ok (chainRecord 1025) := by
    rw [childMapIdentifier, slot, ok_bind_eq, SegmentView.readRecordIdentifier_index]
    exact hmapSlot
  obtain ⟨hlookup, hlisted⟩ := mapEntry_under_long_chain hmap
  refine ⟨⟨fun _ => .ok view, chainRecord 1027⟩, _, _, _, _, _, hnodeTemplate, ?_, hnodeMap, hmap,
    ?_, fun children hchildren => ?_⟩
  · rw [properties, hnodeTemplate]
    rfl
  · rw [childNode, hnodeTemplate, ok_bind_eq]
    dsimp only
    rw [hnodeMap, ok_bind_eq]
    exact hlookup
  · rw [childNodeEntries, hnodeTemplate, ok_bind_eq] at hchildren
    dsimp only at hchildren
    rw [hnodeMap, ok_bind_eq] at hchildren
    obtain ⟨listed, hentries, -⟩ := bind_ok_iff.mp hchildren
    exact hlisted listed hentries

end NodeState

end Froe
