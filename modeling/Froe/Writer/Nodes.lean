import Froe.Writer.Maps
import Froe.Writer.Templates

/-!
# Writing nodes

A node record refers to its template, its children and the list of its property
values, which are in the order of the slots of the template.  The values are
sorted into that order before anything is written, so the slots and the values
are cut from one list (`writeNodeWithStableIdentifier_spec`).
-/

namespace Froe

open StateT (pure_ok_iff)
open Except (bind_ok_iff ok_bind_eq)
open NodeState (childNode childNodeEntries)
open Steps (refl)

/-! ## The order of the properties -/

/-- The order of the slots of a template: by the hash of the name, by the name, and by type. -/
def templateOrder (first second : PropertyToWrite) : Ordering :=
  ((compare (utf16StringHash first.name) (utf16StringHash second.name)).then
    (compareUtf16Strings first.name second.name)).then
      (compare first.propertyType.tag second.propertyType.tag)

/-- The properties in the order of a template. -/
def sortPropertiesForTemplate (properties : List PropertyToWrite) : List PropertyToWrite :=
  sortBy templateOrder properties

/-- Whether some properties are in that order. -/
def inTemplateOrder (properties : List PropertyToWrite) : Bool :=
  (properties.zip properties.tail).all fun pair => templateOrder pair.1 pair.2 ≠ .gt

/-- The properties as they are written: a list that is in order stays as it is. -/
def inOrder (properties : List PropertyToWrite) : List PropertyToWrite :=
  if inTemplateOrder properties then properties else sortPropertiesForTemplate properties

/-- A stable identifier has twenty bytes. -/
abbrev StableIdentifier := { bytes : Bytes // bytes.length = 20 }

/-- Whether a stable identifier names exactly a record. -/
def stableIdentifierNames (stableIdentifier : Option StableIdentifier)
    (record : RecordIdentifier) : Bool :=
  match stableIdentifier with
  | none => false
  | some ⟨bytes, _⟩ =>
    bytes.u64At 0 = record.segment.mostSignificantBits ∧
      bytes.u64At 8 = record.segment.leastSignificantBits ∧ bytes.u32At 16 = record.recordNumber

namespace RecordWriter

variable (env : Environment)

/-- Writes the child or the map of children. -/
def writeChildNodes : ChildNodesToWrite → Writing (Option RecordIdentifier)
  | .zero => return none
  | .one _ node => return some node
  | .many entries => do return some (← writeMap env entries)
  | .manyExistingMap map => return some map

/-- Writes the values of a property: a value stands for itself, several make a counted list. -/
def writePropertyValues (property : PropertyToWrite) : Writing RecordIdentifier :=
  match property.values with
  | .single value => return value
  | .multiple values => writeCountedList env values
  | .preservedSlot valueSlot _ => return valueSlot

/-- Writes the list of the values; there is none without properties. -/
def writePropertyList (properties : List PropertyToWrite) : Writing (Option RecordIdentifier) := do
  let valueIdentifiers ← properties.mapM (writePropertyValues env)
  writeListBody env valueIdentifiers

/-- Writes the block of a stable identifier. -/
def writeStableBlock : Option StableIdentifier → Writing (Option RecordIdentifier)
  | none => return none
  | some ⟨bytes, _⟩ => do return some (← writeRecord env .block 20 [] fun _ => [.raw bytes])

/-- The first slot of a node: the block of its stable identifier, or the node itself. -/
def slotZero (stableIdentifier : Option StableIdentifier) (stableBlock : Option RecordIdentifier)
    (own : RecordIdentifier) : RecordIdentifier :=
  match stableBlock with
  | some block => if stableIdentifierNames stableIdentifier own then own else block
  | none => own

/-- Writes a node that keeps its stable identifier. -/
def writeNodeWithStableIdentifier (primaryType : Option String) (mixinTypes : List String)
    (childNodes : ChildNodesToWrite) (properties : List PropertyToWrite)
    (stableIdentifier : Option StableIdentifier) : Writing RecordIdentifier := do
  let properties := inOrder properties
  let templateIdentifier ← writeTemplate env primaryType mixinTypes childNodes properties
  let childIdentifier ← writeChildNodes env childNodes
  let propertyListIdentifier ← writePropertyList env properties
  let stableBlock ← writeStableBlock env stableIdentifier
  let slots := templateIdentifier :: (childIdentifier.toList ++ propertyListIdentifier.toList)
  writeRecord env .node (6 + slots.length * 6) (slots ++ stableBlock.toList) fun own =>
    .identifier (slotZero stableIdentifier stableBlock own) :: slots.map .identifier

/-- Writes a node. -/
def writeNode (primaryType : Option String) (mixinTypes : List String)
    (childNodes : ChildNodesToWrite) (properties : List PropertyToWrite) :
    Writing RecordIdentifier :=
  writeNodeWithStableIdentifier env primaryType mixinTypes childNodes properties none

end RecordWriter

open RecordWriter

/-! ## The order -/

theorem perm_inOrder (properties : List PropertyToWrite) :
    (inOrder properties).Perm properties := by
  unfold inOrder
  split
  · exact List.Perm.refl _
  · exact perm_sortBy _ _

/-! ## Templates -/

variable {c : Session} {w w' : RecordWriter} {primaryType : Option String}
  {mixinTypes : List String} {childNodes : ChildNodesToWrite} {properties : List PropertyToWrite}
  {provider : SegmentProvider}

theorem slotTag_injective {t t' : PropertyType} {m m' : Bool} (h : slotTag t m = slotTag t' m') :
    t = t' ∧ m = m' := by
  have hsplit := congrArg splitTypeByte h
  rw [splitTypeByte_slotTag, splitTypeByte_slotTag, Prod.mk.injEq] at hsplit
  have htag := congrArg PropertyType.fromTag hsplit.1
  rw [fromTag_tag, fromTag_tag] at htag
  exact ⟨Option.some.inj htag, hsplit.2⟩

variable {slots : List PropertyTemplate} {record own : RecordIdentifier}
  {stableIdentifier : Option StableIdentifier} {block : Option RecordIdentifier}

theorem slots_eq_of_tags {slots' : List PropertyTemplate}
    (h : slots.map (fun slot => (slot.name, slotTag slot.propertyType slot.isMultiple)) =
      slots'.map fun slot => (slot.name, slotTag slot.propertyType slot.isMultiple)) :
    slots = slots' := by
  refine List.map_injective_iff.mpr ?_ h
  rintro ⟨name, propertyType, isMultiple⟩ ⟨name', propertyType', isMultiple'⟩ heq
  obtain ⟨hname, htag⟩ := Prod.mk.inj heq
  obtain ⟨htype, hmultiple⟩ := slotTag_injective htag
  dsimp only at hname htype hmultiple
  rw [hname, htype, hmultiple]

theorem TemplateKey.Describes.eq {key : TemplateKey} {template template' : Template}
    (h : key.Describes template) (h' : key.Describes template') : template = template' := by
  obtain ⟨primary, mixins, arity, slots⟩ := template
  obtain ⟨primary', mixins', arity', slots'⟩ := template'
  have hprimary := h.primaryType.trans h'.primaryType.symm
  have hmixins := h.mixinTypes.trans h'.mixinTypes.symm
  have harity := h.childArity.trans h'.childArity.symm
  have hslots := slots_eq_of_tags (h.properties.trans h'.properties.symm)
  dsimp only at hprimary hmixins harity hslots
  rw [hprimary, hmixins, harity, hslots]

theorem length_readPropertyTemplates {view : SegmentView}
    {names : List RecordIdentifier} {cursor : Nat}
    (h : readPropertyTemplates provider record view names cursor = .ok slots) :
    slots.length = names.length := by
  induction names generalizing cursor slots with
  | nil =>
    cases h
    rfl
  | cons name names ih =>
    obtain ⟨byte, -, h⟩ := bind_ok_iff.mp h
    dsimp only at h
    split at h
    · cases h
    · obtain ⟨text, -, h⟩ := bind_ok_iff.mp h
      obtain ⟨rest, hrest, h⟩ := bind_ok_iff.mp h
      obtain rfl := Except.pure_ok_iff.mp h
      rw [List.length_cons, List.length_cons, ih hrest]

/-- A template that is read has no more slots than a list may have entries. -/
theorem length_readTemplate {template : Template}
    (h : readTemplate provider record = .ok template) :
    template.properties.length ≤ maximumListSize := by
  obtain ⟨view, -, h⟩ := bind_ok_iff.mp h
  obtain ⟨word, -, h⟩ := bind_ok_iff.mp h
  obtain ⟨⟨primary, cursor⟩, -, h⟩ := bind_ok_iff.mp h
  obtain ⟨⟨mixins, cursor⟩, -, h⟩ := bind_ok_iff.mp h
  obtain ⟨⟨arity, cursor⟩, -, h⟩ := bind_ok_iff.mp h
  obtain ⟨slots, hslots, h⟩ := bind_ok_iff.mp h
  obtain rfl := Except.pure_ok_iff.mp h
  unfold readProperties at hslots
  split at hslots
  · obtain ⟨list, -, hslots⟩ := bind_ok_iff.mp hslots
    obtain ⟨names, hnames, hslots⟩ := bind_ok_iff.mp hslots
    obtain ⟨hlength, hle, -⟩ := length_uncountedListEntries hnames
    rw [length_readPropertyTemplates hslots, hlength]
    exact hle
  · cases hslots
    exact Nat.zero_le _

/-! ## Nodes -/

/-- The record of some children. -/
def ChildrenAt (provider : SegmentProvider) (childNodes : ChildNodesToWrite)
    (child : Option RecordIdentifier) : Prop :=
  match childNodes with
  | .zero => child = none
  | .one _ node => child = some node
  | .many entries => ∃ map, child = some map ∧ MapOf provider map entries
  | .manyExistingMap map => child = some map

/-- A slot holds the values of a property. -/
def ValuesAt (provider : SegmentProvider) (slot : RecordIdentifier) (property : PropertyToWrite) :
    Prop :=
  match property.values with
  | .single value => slot = value
  | .multiple values => CountedListAt provider slot values
  | .preservedSlot valueSlot _ => slot = valueSlot

/-- The records that a node refers to. -/
structure NodeParts (provider : SegmentProvider) (primaryType : Option String)
    (mixinTypes : List String) (childNodes : ChildNodesToWrite) (properties : List PropertyToWrite)
    (template : RecordIdentifier) (child list : Option RecordIdentifier) : Prop where
  template : TemplateAt provider template
    (TemplateKey.of primaryType mixinTypes childNodes properties)
  child : ChildrenAt provider childNodes child
  values : ∃ slots, ((slots = [] ∧ list = none) ∨
      ∃ body, list = some body ∧ ListAt provider body slots) ∧
    List.Forall₂ (ValuesAt provider) slots properties

/-- A provider serves a node with some properties in slot order. -/
def NodeAt (provider : SegmentProvider) (record : RecordIdentifier) (primaryType : Option String)
    (mixinTypes : List String) (childNodes : ChildNodesToWrite)
    (properties : List PropertyToWrite) : Prop :=
  ∃ zero template child list,
    RecordAt provider record
      (.identifier zero :: (template :: (child.toList ++ list.toList)).map .identifier) ∧
    NodeParts provider primaryType mixinTypes childNodes properties template child list

/-- A property as its values are read by themselves. -/
def PropertyToWrite.read (f : FloatingPoint) (node : NodeState) (property : PropertyToWrite) :
    Result (PropertyState f) :=
  match property.values with
  | .single value => do
    let value ← readPropertyValue f node.provider value property.propertyType
    return ⟨property.name, property.propertyType, .single value⟩
  | .multiple values => do
    let values ← values.mapM fun value =>
      readPropertyValue f node.provider value property.propertyType
    return ⟨property.name, property.propertyType, .multiple values⟩
  | .preservedSlot valueSlot _ => node.propertyFromValue f property.slot valueSlot

/-- The number of values that a property has, if they are written. -/
def PropertyToWrite.count (property : PropertyToWrite) : Nat :=
  match property.values with
  | .multiple values => values.length
  | _ => 1

/-- The children that are written by name. -/
def ChildNodesToWrite.entries : ChildNodesToWrite → List (String × RecordIdentifier)
  | .zero => []
  | .one name node => [(name, node)]
  | .many entries => entries
  | .manyExistingMap _ => []

/-- The children of a node as they were written: the given ones, each found by its name and no
other name found, or those of the given map. -/
def ChildrenRead (node : NodeState) (childNodes : ChildNodesToWrite) : Prop :=
  match childNodes with
  | .manyExistingMap map =>
    node.childMapIdentifier = .ok map ∧
      node.childNodeEntries = (do
        let entries ← mapEntries node.provider map
        return entries.map fun entry => (entry.name, entry.value)) ∧
      ∀ name, node.childNode name = mapEntry node.provider map name
  | childNodes =>
    ∃ listed, node.childNodeEntries = .ok listed ∧ listed.Perm childNodes.entries ∧
      (∀ name child, (name, child) ∈ childNodes.entries →
        node.childNode name = .ok (some child)) ∧
      ∀ name, name ∉ childNodes.entries.map Prod.fst → node.childNode name = .ok none

section

variable {node : NodeState} (f : FloatingPoint)

theorem ValuesAt.read {slot : RecordIdentifier} {property : PropertyToWrite}
    (h : ValuesAt node.provider slot property) (hcount : property.count ≤ maximumListSize) :
    node.propertyFromValue f property.slot slot = property.read f node := by
  obtain ⟨name, propertyType, values⟩ := property
  cases values with
  | single value =>
    obtain rfl : slot = value := h
    rfl
  | multiple values =>
    obtain ⟨counted, hcounted, hsize, hbody⟩ := CountedListAt.read h hcount
    have hmultiple : (PropertyToWrite.slot ⟨name, propertyType, .multiple values⟩).isMultiple =
        true := rfl
    rw [NodeState.propertyFromValue, if_pos hmultiple, hcounted, ok_bind_eq]
    rcases hbody with ⟨rfl, hnone⟩ | ⟨body, hsome, hlist⟩
    · rw [hnone]
      rfl
    · rw [hsome]
      dsimp only
      rw [hsize, hlist.entries hcount, ok_bind_eq]
      rfl
  | preservedSlot valueSlot isMultiple =>
    obtain rfl : slot = valueSlot := h
    rfl

theorem mapM_slots {slots : List RecordIdentifier}
    (h : List.Forall₂ (ValuesAt node.provider) slots properties)
    (hcount : ∀ property ∈ properties, property.count ≤ maximumListSize) :
    (((properties.map PropertyToWrite.slot).zip slots).mapM fun slot =>
      node.propertyFromValue f slot.1 slot.2) = properties.mapM (PropertyToWrite.read f node) := by
  induction h with
  | nil => rfl
  | cons hfirst _ ih =>
    rw [List.map_cons, List.zip_cons_cons, List.mapM_cons, List.mapM_cons,
      hfirst.read f (hcount _ (List.mem_cons_self ..)),
      ih fun property hmem => hcount property (List.mem_cons_of_mem _ hmem)]

theorem RecordAt.slot (records : List RecordIdentifier) (i : Nat)
    (h : RecordAt node.provider node.recordIdentifier (records.map .identifier))
    (hi : i < records.length) : node.slot i = .ok records[i] := by
  obtain ⟨view, hview, hholds⟩ := h
  rw [← List.append_nil (records.map Field.identifier)] at hholds
  rw [NodeState.slot, hview, ok_bind_eq]
  exact hholds.readIdentifiers i hi

theorem find?_zipIdx {slots : List PropertyTemplate}
    (hnames : (slots.map PropertyTemplate.name).Nodup) (i k : Nat) (hi : i < slots.length) :
    (slots.zipIdx k).find? (fun slot => slot.1.name == slots[i].name) =
      some (slots[i], k + i) := by
  induction slots generalizing i k with
  | nil => exact absurd hi (Nat.not_lt_zero i)
  | cons slot slots ih =>
    rw [List.map_cons, List.nodup_cons] at hnames
    rw [List.zipIdx_cons, List.find?_cons]
    cases i with
    | zero =>
      rw [List.getElem_cons_zero, beq_self_eq_true]
      rfl
    | succ i =>
      have hi' : i < slots.length := by simpa using hi
      have hne : slot.name ≠ slots[i].name := fun heq =>
        hnames.1 (heq ▸ List.mem_map_of_mem (List.getElem_mem hi'))
      rw [List.getElem_cons_succ, beq_false_of_ne hne]
      dsimp only
      rw [ih hnames.2 i (k + 1) hi', Nat.add_assoc, Nat.add_comm 1 i]

theorem synthesizedProperties_find?_none {template : Template} {name : String}
    (hprimary : name = "jcr:primaryType" → template.primaryType = none)
    (hmixins : name = "jcr:mixinTypes" → template.mixinTypes = []) :
    (NodeState.synthesizedProperties f template).find? (fun property => property.name == name) =
      none := by
  rw [List.find?_eq_none]
  intro property hmem heq
  have hname := beq_iff_eq.mp heq
  rcases List.mem_append.mp hmem with hmem | hmem
  · obtain ⟨primary, hsome, rfl⟩ := List.mem_map.mp hmem
    rw [hprimary hname.symm] at hsome
    cases hsome
  · split at hmem
    · cases hmem
    · rename_i hne
      rw [List.mem_singleton.mp hmem] at hname
      exact hne (hmixins hname.symm)

variable (h : NodeAt node.provider node.recordIdentifier primaryType mixinTypes childNodes
  properties)

include h

/-- The template of a node is the shape it was written with. -/
theorem NodeAt.template : ∃ record, node.templateIdentifier = .ok record ∧
    TemplateAt node.provider record (.of primaryType mixinTypes childNodes properties) ∧
    node.template = .ok ⟨primaryType, mixinTypes, childNodes.arity,
      properties.map PropertyToWrite.slot⟩ := by
  obtain ⟨zero, record, child, list, hrecord, hparts⟩ := h
  obtain ⟨template, hread, hdescribes⟩ := hparts.template
  have hidentifier : node.templateIdentifier = .ok record :=
    RecordAt.slot (zero :: record :: (child.toList ++ list.toList)) 1 hrecord (by simp)
  refine ⟨record, hidentifier, hparts.template, ?_⟩
  rw [NodeState.template, hidentifier, ok_bind_eq, hread,
    hdescribes.eq TemplateKey.describes_of]

/-- The number of slots fits a list. -/
theorem NodeAt.length_le : properties.length ≤ maximumListSize := by
  obtain ⟨record, -, ⟨template, hread, hdescribes⟩, -⟩ := h.template
  have hle := length_readTemplate hread
  rw [hdescribes.eq TemplateKey.describes_of, List.length_map] at hle
  exact hle

theorem NodeAt.children :
    (∃ child, ChildrenAt node.provider childNodes child ∧
      ∀ record, child = some record → node.childMapIdentifier = .ok record) := by
  obtain ⟨zero, record, child, list, hrecord, hparts⟩ := h
  refine ⟨child, hparts.child, ?_⟩
  rintro map rfl
  exact RecordAt.slot (zero :: record :: ([map] ++ list.toList)) 2 hrecord (by simp)

theorem NodeAt.propertyList (hne : properties ≠ []) : ∃ list slots,
    node.propertyListIdentifier ⟨primaryType, mixinTypes, childNodes.arity,
      properties.map PropertyToWrite.slot⟩ = .ok list ∧
    ListAt node.provider list slots ∧ List.Forall₂ (ValuesAt node.provider) slots properties := by
  obtain ⟨zero, record, child, list, hrecord, hparts⟩ := h
  obtain ⟨slots, hlist, hvalues⟩ := hparts.values
  rcases hlist with ⟨rfl, -⟩ | ⟨body, rfl, hbody⟩
  · cases hvalues
    exact absurd rfl hne
  · refine ⟨body, slots, ?_, hbody, hvalues⟩
    have hproperties : properties.map PropertyToWrite.slot ≠ [] := by simpa using hne
    rw [NodeState.propertyListIdentifier, if_neg hproperties]
    dsimp only
    have hchild := hparts.child
    have hslot := fun i => @RecordAt.slot node (zero :: record :: (child.toList ++ [body])) i
    cases childNodes with
    | zero =>
      obtain rfl : child = none := hchild
      rw [if_pos (show ChildNodesToWrite.zero.arity = .zero from rfl)]
      exact hslot 2 hrecord (by simp)
    | one name child =>
      obtain rfl := hchild
      rw [if_neg nofun]
      exact hslot 3 hrecord (by simp)
    | many entries =>
      obtain ⟨map, rfl, -⟩ := hchild
      rw [if_neg nofun]
      exact hslot 3 hrecord (by simp)
    | manyExistingMap map =>
      obtain rfl := hchild
      rw [if_neg nofun]
      exact hslot 3 hrecord (by simp)

/-- The stored properties are those that were written, in the order of the slots. -/
theorem NodeAt.storedProperties
    (hcount : ∀ property ∈ properties, property.count ≤ maximumListSize) :
    node.storedProperties f = properties.mapM (PropertyToWrite.read f node) := by
  obtain ⟨_, -, -, htemplate⟩ := h.template
  rw [NodeState.storedProperties, htemplate, ok_bind_eq, NodeState.storedPropertyStates]
  by_cases hempty : properties = []
  · rw [if_pos (by rw [hempty]; rfl), hempty]
    rfl
  · obtain ⟨list, slots, hlist, hbody, hvalues⟩ := h.propertyList hempty
    have hlength := hvalues.length_eq
    have hentries := hbody.entries (hlength.trans_le h.length_le)
    rw [if_neg (by simpa using hempty), hlist, ok_bind_eq, List.length_map, ← hlength,
      hentries, ok_bind_eq]
    exact mapM_slots f hvalues hcount

/-- The children are those that were written, by name and as a list. -/
theorem NodeAt.childEntries : ChildrenRead node childNodes := by
  obtain ⟨_, -, -, htemplate⟩ := h.template
  obtain ⟨child, hchild, hidentifier⟩ := h.children
  cases childNodes with
  | zero =>
    refine ⟨[], ?_, .nil, nofun, fun name _ => ?_⟩
    · rw [childNodeEntries, htemplate, ok_bind_eq]
      rfl
    · rw [childNode, htemplate, ok_bind_eq]
      rfl
  | one name child =>
    obtain rfl := hchild
    have hslot := hidentifier child rfl
    refine ⟨[(name, child)], ?_, .refl _, fun name' child' hmem => ?_, fun name' hnot => ?_⟩
    · rw [childNodeEntries, htemplate, ok_bind_eq]
      dsimp only [ChildNodesToWrite.arity]
      rw [hslot]
      rfl
    · obtain ⟨rfl, rfl⟩ := Prod.mk.inj (List.mem_singleton.mp hmem)
      rw [childNode, htemplate, ok_bind_eq]
      dsimp only [ChildNodesToWrite.arity]
      rw [if_pos rfl, hslot]
      rfl
    · rw [childNode, htemplate, ok_bind_eq]
      dsimp only [ChildNodesToWrite.arity]
      rw [if_neg fun heq => hnot (List.mem_singleton.mpr heq.symm)]
      rfl
  | many entries =>
    obtain ⟨map, rfl, hmap⟩ := hchild
    have hslot := hidentifier map rfl
    obtain ⟨-, hfound, hnone, listed, hlisted, hperm⟩ := hmap.read
    refine ⟨_, ?_, hperm, fun name child hmem => ?_, fun name hnot => ?_⟩
    · rw [childNodeEntries, htemplate, ok_bind_eq]
      dsimp only [ChildNodesToWrite.arity]
      rw [hslot, ok_bind_eq, hlisted]
      rfl
    · rw [childNode, htemplate, ok_bind_eq]
      dsimp only [ChildNodesToWrite.arity]
      rw [hslot, ok_bind_eq]
      exact hfound name child hmem
    · rw [childNode, htemplate, ok_bind_eq]
      dsimp only [ChildNodesToWrite.arity]
      rw [hslot, ok_bind_eq]
      exact hnone name hnot
  | manyExistingMap map =>
    obtain rfl := hchild
    have hslot := hidentifier map rfl
    refine ⟨hslot, ?_, fun name => ?_⟩
    · rw [childNodeEntries, htemplate, ok_bind_eq]
      dsimp only [ChildNodesToWrite.arity]
      rw [hslot, ok_bind_eq]
    · rw [childNode, htemplate, ok_bind_eq]
      dsimp only [ChildNodesToWrite.arity]
      rw [hslot, ok_bind_eq]

/-- A property is looked up by its name, unless the name stands for a type. -/
theorem NodeAt.property (hnames : (properties.map PropertyToWrite.name).Nodup)
    {property : PropertyToWrite} (hmem : property ∈ properties)
    (hcount : property.count ≤ maximumListSize)
    (hprimary : property.name = "jcr:primaryType" → primaryType = none)
    (hmixins : property.name = "jcr:mixinTypes" → mixinTypes = []) :
    node.property f property.name = (return some (← property.read f node)) := by
  obtain ⟨_, -, -, htemplate⟩ := h.template
  obtain ⟨list, slots, hlist, hbody, hvalues⟩ := h.propertyList (List.ne_nil_of_mem hmem)
  obtain ⟨i, hi, rfl⟩ := List.getElem_of_mem hmem
  have hslots : (properties.map PropertyToWrite.slot).map PropertyTemplate.name =
      properties.map PropertyToWrite.name := by
    rw [List.map_map]
    rfl
  have hfind := find?_zipIdx (hslots ▸ hnames) i 0 (by simpa using hi)
  rw [List.getElem_map, Nat.zero_add] at hfind
  have hbyName : NodeState.propertyByName ⟨primaryType, mixinTypes, childNodes.arity,
      properties.map PropertyToWrite.slot⟩ properties[i].name = some (properties[i].slot, i) := hfind
  obtain ⟨hlength, hget⟩ := List.forall₂_iff_get.mp hvalues
  have hi' : i < slots.length := by omega
  have hentry := hbody.entry (hlength.trans_le h.length_le) i hi'
  rw [NodeState.property, htemplate, ok_bind_eq,
    synthesizedProperties_find?_none f hprimary hmixins]
  dsimp only
  rw [hbyName]
  dsimp only
  rw [hlist, ok_bind_eq, List.length_map, ← hlength, hentry, ok_bind_eq]
  have hvalue := hget i hi' hi
  rw [List.get_eq_getElem, List.get_eq_getElem] at hvalue
  rw [hvalue.read f hcount]

end

/-! ## Writing nodes -/

/-- The segments that a node to be written refers to. -/
def ChildNodesToWrite.references : ChildNodesToWrite → List RecordIdentifier
  | .zero => []
  | .one _ node => [node]
  | .many entries => entries.map Prod.snd
  | .manyExistingMap map => [map]

/-- The records that a property refers to. -/
def PropertyToWrite.references (property : PropertyToWrite) : List RecordIdentifier :=
  match property.values with
  | .single value => [value]
  | .multiple values => values
  | .preservedSlot valueSlot _ => [valueSlot]

theorem writeChildNodes_spec {child : Option RecordIdentifier} (hw : Valid c w)
    (h : (writeChildNodes c.environment childNodes).run w = .ok (child, w'))
    (hallowed : ∀ record ∈ childNodes.references, Allowed c w record.segment) :
    Steps c w w' ∧ (∀ record ∈ child.toList, Allowed c w' record.segment) ∧
      Assured c w' fun provider => (∀ entry ∈ childNodes.entries, Readable entry.1) →
        ChildrenAt provider childNodes child := by
  cases childNodes with
  | zero =>
    obtain ⟨rfl, rfl⟩ := pure_ok_iff.mp h
    exact ⟨refl _, nofun, fun _ _ _ => rfl⟩
  | one name node =>
    obtain ⟨rfl, rfl⟩ := pure_ok_iff.mp h
    exact ⟨refl _, hallowed, fun _ _ _ => rfl⟩
  | many entries =>
    obtain ⟨map, w₁, hmap, h⟩ := StateT.bind_ok_iff.mp h
    obtain ⟨rfl, rfl⟩ := pure_ok_iff.mp h
    obtain ⟨hsteps, hsegment, hread⟩ := writeMap_spec hw hmap fun entry hmem =>
      hallowed entry.2 (List.mem_map_of_mem hmem)
    refine ⟨hsteps, fun record hmem => ?_, fun provider hserves hreadable =>
      ⟨map, rfl, (hread provider hserves).mapOf hreadable⟩⟩
    rw [List.mem_singleton.mp hmem]
    exact hsegment
  | manyExistingMap map =>
    obtain ⟨rfl, rfl⟩ := pure_ok_iff.mp h
    exact ⟨refl _, hallowed, fun _ _ _ => rfl⟩

theorem writePropertyValues_spec {property : PropertyToWrite} {slot : RecordIdentifier}
    (hw : Valid c w) (h : (writePropertyValues c.environment property).run w = .ok (slot, w'))
    (hallowed : ∀ record ∈ property.references, Allowed c w record.segment) :
    Steps c w w' ∧ Allowed c w' slot.segment ∧ Assured c w' (ValuesAt · slot property) := by
  obtain ⟨name, propertyType, values⟩ := property
  cases values with
  | single value =>
    obtain ⟨rfl, rfl⟩ := pure_ok_iff.mp h
    exact ⟨refl _, hallowed _ (List.mem_singleton_self _), fun _ _ => rfl⟩
  | multiple values => exact writeCountedList_spec hw h hallowed
  | preservedSlot valueSlot isMultiple =>
    obtain ⟨rfl, rfl⟩ := pure_ok_iff.mp h
    exact ⟨refl _, hallowed _ (List.mem_singleton_self _), fun _ _ => rfl⟩

theorem writePropertyList_spec {list : Option RecordIdentifier} (hw : Valid c w)
    (h : (writePropertyList c.environment properties).run w = .ok (list, w'))
    (hallowed : ∀ property ∈ properties, ∀ record ∈ property.references,
      Allowed c w record.segment) :
    Steps c w w' ∧ (∀ record ∈ list.toList, Allowed c w' record.segment) ∧
      Assured c w' fun provider => ∃ slots, ((slots = [] ∧ list = none) ∨
          ∃ body, list = some body ∧ ListAt provider body slots) ∧
        List.Forall₂ (ValuesAt provider) slots properties := by
  obtain ⟨slots, w₁, hslots, h⟩ := StateT.bind_ok_iff.mp h
  obtain ⟨hsteps, hsegments, hvalues⟩ := mapM_assured
    (P := fun property slot provider => ValuesAt provider slot property) hw
    (fun property hmem t b t' ht hbefore hrun => writePropertyValues_spec ht hrun fun record href =>
      hbefore.allowed (hallowed property hmem record href)) hslots
  have hw₁ := hsteps.valid hw
  obtain ⟨hsteps', hcases⟩ := writeListBody_spec hw₁ h hsegments
  refine ⟨hsteps.trans hsteps', fun record hmem => ?_, fun provider hserves =>
    ⟨slots, ?_, (hsteps'.assured hw₁ hvalues provider hserves).flip⟩⟩
  · rcases hcases with ⟨-, rfl⟩ | ⟨body, rfl, hbody, -⟩
    · cases hmem
    · rw [List.mem_singleton.mp hmem]
      exact hbody
  · rcases hcases with hempty | ⟨body, hbody, -, hlist⟩
    · exact .inl hempty
    · exact .inr ⟨body, hbody, hlist provider hserves⟩

theorem writeStableBlock_spec (hw : Valid c w)
    (h : (writeStableBlock c.environment stableIdentifier).run w = .ok (block, w')) :
    Steps c w w' ∧ (∀ record ∈ block.toList, Allowed c w' record.segment) ∧
      ((stableIdentifier = none ∧ block = none) ∨ ∃ stable record, stableIdentifier = some stable ∧
        block = some record ∧ New w w' record ∧
        Assured c w' (RecordAt · record [.raw stable.val])) := by
  cases stableIdentifier with
  | none =>
    obtain ⟨rfl, rfl⟩ := pure_ok_iff.mp h
    exact ⟨refl _, nofun, .inl ⟨rfl, rfl⟩⟩
  | some stable =>
    obtain ⟨bytes, hlength⟩ := stable
    obtain ⟨record, w₁, hrecord, h⟩ := StateT.bind_ok_iff.mp h
    obtain ⟨rfl, rfl⟩ := pure_ok_iff.mp h
    obtain ⟨hsteps, hrecorded, hsegment, hnew⟩ := writeRecord_spec hw hrecord nofun
      (fun _ => by simp [fieldsLength, Field.length, hlength]) (by decide)
      (fun _ other hmem => by simp at hmem) (fun other hmem => by cases hmem)
    refine ⟨hsteps, fun other hmem => ?_, .inr ⟨⟨bytes, hlength⟩, record, rfl, rfl, hnew,
      hrecorded.assured⟩⟩
    rw [List.mem_singleton.mp hmem]
    exact .inr (.inl hsegment)

/-! ## Stable identifiers -/

/-- The identity of a node: the given one, or its own record. -/
def stableBytes (stableIdentifier : Option StableIdentifier) (own : RecordIdentifier) : Bytes :=
  match stableIdentifier with
  | none => NodeState.identityBytes own
  | some stable => stable.val

theorem identityBytes_of_names {stable : StableIdentifier}
    (h : stableIdentifierNames (some stable) own = true) :
    NodeState.identityBytes own = stable.val := by
  obtain ⟨bytes, hlength⟩ := stable
  obtain ⟨hmost, hleast, hnumber⟩ := of_decide_eq_true h
  have hsplit : bytes = bytes.slice 0 8 ++ bytes.slice 8 8 ++ bytes.slice 16 4 := by
    have hfirst : bytes = bytes.take 8 ++ bytes.drop 8 := (List.take_append_drop 8 bytes).symm
    have hsecond : bytes.drop 8 = (bytes.drop 8).take 8 ++ (bytes.drop 8).drop 8 :=
      (List.take_append_drop 8 _).symm
    have hlast : (bytes.drop 8).drop 8 = (bytes.drop 16).take 4 := by
      rw [List.drop_drop, List.take_of_length_le (by rw [List.length_drop]; omega)]
    rw [hlast] at hsecond
    rw [hsecond, ← List.append_assoc] at hfirst
    exact hfirst
  rw [NodeState.identityBytes, ← hmost, ← hleast, ← hnumber, Bytes.be64_u64At (by omega),
    Bytes.be64_u64At (by omega), Bytes.be32_u32At (by omega)]
  exact hsplit.symm

theorem slotZero_cases (stableIdentifier : Option StableIdentifier)
    (block : Option RecordIdentifier) (own : RecordIdentifier) :
    slotZero stableIdentifier block own = own ∨
      slotZero stableIdentifier block own ∈ block.toList := by
  cases block with
  | none => exact .inl rfl
  | some block =>
    rw [slotZero]
    split
    · exact .inl rfl
    · exact .inr (List.mem_singleton_self _)

/-- The identity of a node is read from its first slot. -/
theorem RecordAt.stableIdentifierBytes {rest : List Field}
    (h : RecordAt provider own (.identifier (slotZero stableIdentifier block own) :: rest))
    (hblock : (stableIdentifier = none ∧ block = none) ∨ ∃ stable record,
      stableIdentifier = some stable ∧ block = some record ∧ record ≠ own ∧
      RecordAt provider record [.raw stable.val]) :
    NodeState.stableIdentifierBytes ⟨provider, own⟩ = .ok (stableBytes stableIdentifier own) := by
  obtain ⟨view, hview, hholds⟩ := h
  have hslot : NodeState.slot ⟨provider, own⟩ 0 = .ok (slotZero stableIdentifier block own) := by
    rw [NodeState.slot]
    dsimp only
    rw [hview, ok_bind_eq]
    exact hholds.1
  rw [NodeState.stableIdentifierBytes, hslot, ok_bind_eq]
  rcases hblock with ⟨rfl, rfl⟩ | ⟨stable, record, rfl, rfl, hne, target, htarget, hcontent⟩
  · rw [if_pos (show slotZero none none own = own from rfl)]
    rfl
  · by_cases hnames : stableIdentifierNames (some stable) own = true
    · have hself : slotZero (some stable) (some record) own = own := if_pos hnames
      rw [hself, if_pos rfl, identityBytes_of_names hnames]
      rfl
    · have hrecord : slotZero (some stable) (some record) own = record := if_neg hnames
      have hread := hcontent.readAll
      rw [stable.property] at hread
      rw [hrecord, if_neg hne]
      dsimp only
      rw [htarget, ok_bind_eq, hread]
      rfl

/-- A node is written with its template, its children, its properties in slot order, and its
identity. -/
theorem writeNodeWithStableIdentifier_spec (hw : Valid c w)
    (h : (writeNodeWithStableIdentifier c.environment primaryType mixinTypes childNodes properties
      stableIdentifier).run w = .ok (own, w'))
    (hchildren : ∀ record ∈ childNodes.references, Allowed c w record.segment)
    (hvalues : ∀ property ∈ properties, ∀ record ∈ property.references,
      Allowed c w record.segment) :
    Steps c w w' ∧ Allowed c w' own.segment ∧
      Assured c w' (fun provider => NodeState.stableIdentifierBytes ⟨provider, own⟩ =
        .ok (stableBytes stableIdentifier own)) ∧
      ((∀ text ∈ (TemplateKey.of primaryType mixinTypes childNodes properties).texts,
          Readable text) → (∀ entry ∈ childNodes.entries, Readable entry.1) →
        Assured c w'
          (NodeAt · own primaryType mixinTypes childNodes (inOrder properties))) := by
  have hperm := perm_inOrder properties
  obtain ⟨ordered, hordered⟩ : ∃ ordered, ordered = inOrder properties := ⟨_, rfl⟩
  rw [writeNodeWithStableIdentifier] at h
  dsimp only at h
  rw [← hordered] at h hperm ⊢
  obtain ⟨template, w₁, htemplate, h⟩ := StateT.bind_ok_iff.mp h
  obtain ⟨child, w₂, hchild, h⟩ := StateT.bind_ok_iff.mp h
  obtain ⟨list, w₃, hlist, h⟩ := StateT.bind_ok_iff.mp h
  obtain ⟨block, w₄, hblock, h⟩ := StateT.bind_ok_iff.mp h
  obtain ⟨hsteps₁, hallowed₁, htemplateAt⟩ := writeTemplate_spec hw htemplate
  have hw₁ := hsteps₁.valid hw
  obtain ⟨hsteps₂, hallowed₂, hchildAt⟩ := writeChildNodes_spec hw₁ hchild
    fun record hmem => hsteps₁.allowed (hchildren record hmem)
  have hw₂ := hsteps₂.valid hw₁
  obtain ⟨hsteps₃, hallowed₃, hlistAt⟩ := writePropertyList_spec hw₂ hlist
    fun property hmem record href => (hsteps₁.trans hsteps₂).allowed
      (hvalues property (hperm.subset hmem) record href)
  have hw₃ := hsteps₃.valid hw₂
  obtain ⟨hsteps₄, hallowed₄, hblockAt⟩ := writeStableBlock_spec hw₃ hblock
  have hw₄ := hsteps₄.valid hw₃
  obtain ⟨hsteps₅, hrecorded, hsegment, hnew⟩ := writeRecord_spec hw₄ h nofun (by
      intro own
      rw [fieldsLength_cons, SegmentView.fieldsLength_identifiers, Field.length, Nat.mul_comm])
    (by omega) (by
      intro own record hmem
      rcases List.mem_cons.mp hmem with hzero | hmem
      · rw [Field.identifier.inj hzero]
        rcases slotZero_cases stableIdentifier block own with hown | hmem
        · exact .inl hown
        · exact .inr (List.mem_append_right _ hmem)
      · exact .inr (List.mem_append_left _ (by simpa using hmem))) (by
      intro record hmem
      rcases List.mem_append.mp hmem with hmem | hmem
      · refine hsteps₄.allowed ?_
        rcases List.mem_cons.mp hmem with rfl | hmem
        · exact (hsteps₂.trans hsteps₃).allowed hallowed₁
        · rcases List.mem_append.mp hmem with hmem | hmem
          · exact hsteps₃.allowed (hallowed₂ record hmem)
          · exact hallowed₃ record hmem
      · exact hallowed₄ record hmem)
  have hsteps := hsteps₁.trans (hsteps₂.trans (hsteps₃.trans (hsteps₄.trans hsteps₅)))
  refine ⟨hsteps, .inr (.inl hsegment), fun provider hserves => ?_,
    fun htexts hnames provider hserves => ?_⟩
  · have hserves₄ := hsteps₅.serves hw₄ hserves
    refine RecordAt.stableIdentifierBytes (hrecorded.assured provider hserves) ?_
    rcases hblockAt with hnone | ⟨stable, record, hstable, hrecord, hused, hcontent⟩
    · exact .inl hnone
    · refine .inr ⟨stable, record, hstable, hrecord, ?_, hcontent provider hserves₄⟩
      rintro rfl
      exact hnew.2 hserves.unique hused.1
  · have hserves₄ := hsteps₅.serves hw₄ hserves
    have hserves₃ := hsteps₄.serves hw₃ hserves₄
    have hserves₂ := hsteps₃.serves hw₂ hserves₃
    refine ⟨_, template, child, list, hrecorded.assured provider hserves, ?_,
      hchildAt provider hserves₂ hnames, hlistAt provider hserves₃⟩
    refine htemplateAt (fun text hmem => htexts text ?_) provider (hsteps₂.serves hw₁ hserves₂)
    rw [TemplateKey.texts_of] at hmem ⊢
    simpa only [hperm.mem_iff] using hmem

end Froe
