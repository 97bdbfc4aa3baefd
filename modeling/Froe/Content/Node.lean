import Froe.Content.Property

/-!
# Node records

A node record is a sequence of record identifiers: the stable identifier, the
template, the child map or the single child, and the list of property values.
-/

namespace Froe

/-- One value, or a list of them. -/
inductive PropertyValues (f : FloatingPoint) where
  | single (value : PropertyValue f)
  | multiple (values : List (PropertyValue f))

/-- The values in order. -/
def PropertyValues.toList {f : FloatingPoint} : PropertyValues f → List (PropertyValue f)
  | .single value => [value]
  | .multiple values => values

/-- One property of a node. -/
structure PropertyState (f : FloatingPoint) where
  name : String
  propertyType : PropertyType
  values : PropertyValues f

/-- A node, by its record. -/
structure NodeState where
  provider : SegmentProvider
  recordIdentifier : RecordIdentifier

namespace NodeState

variable (f : FloatingPoint) (node : NodeState)

/-- An identifier out of the node record. -/
def slot (index : Nat) : Result RecordIdentifier := do
  let view ← node.provider node.recordIdentifier.segment
  view.readRecordIdentifier node.recordIdentifier.recordNumber 0 index

/-- The record of the template. -/
def templateIdentifier : Result RecordIdentifier := node.slot 1

/-- The record behind the template: a child or a map of children. -/
def childMapIdentifier : Result RecordIdentifier := node.slot 2

/-- The template of a node. -/
def template : Result Template := do
  readTemplate node.provider (← node.templateIdentifier)

/-- The bytes of a record identifier. -/
def identityBytes (record : RecordIdentifier) : Bytes :=
  Bytes.be64 record.segment.mostSignificantBits ++
    Bytes.be64 record.segment.leastSignificantBits ++ Bytes.be32 record.recordNumber

/-- The record that a node's identity descends from: the node itself, or what a block names. -/
def stableIdentifierBytes : Result Bytes := do
  let stable ← node.slot 0
  if stable = node.recordIdentifier then return identityBytes stable
  else
    let target ← node.provider stable.segment
    target.readBytes stable.recordNumber 0 20

/-- All children with their names, in storage order. -/
def childNodeEntries : Result (List (String × RecordIdentifier)) := do
  match (← node.template).childArity with
  | .zero => return []
  | .one childName => return [(childName, ← node.childMapIdentifier)]
  | .many =>
    let entries ← mapEntries node.provider (← node.childMapIdentifier)
    return entries.map fun entry => (entry.name, entry.value)

/-- Looks a child up by its name. -/
def childNode (name : String) : Result (Option RecordIdentifier) := do
  match (← node.template).childArity with
  | .zero => return none
  | .one childName =>
    if childName = name then return some (← node.childMapIdentifier) else return none
  | .many => mapEntry node.provider (← node.childMapIdentifier) name

/-- The value list: slot 2 without children, else slot 3. -/
def propertyListIdentifier (template : Template) : Result RecordIdentifier :=
  if template.properties = [] then
    invalid s!"node {node.recordIdentifier.display} has no properties and therefore no property value list"
  else node.slot (if template.childArity = .zero then 2 else 3)

/-- Reads the values of a property. -/
def propertyFromValue (propertyTemplate : PropertyTemplate) (valueIdentifier : RecordIdentifier) :
    Result (PropertyState f) := do
  if propertyTemplate.isMultiple then
    let counted ← readCountedList node.provider valueIdentifier
    match counted.body with
    | none => return ⟨propertyTemplate.name, propertyTemplate.propertyType, .multiple []⟩
    | some body =>
      let elements ← uncountedListEntries node.provider body counted.size.toNat
      let values ← elements.mapM fun element =>
        readPropertyValue f node.provider element propertyTemplate.propertyType
      return ⟨propertyTemplate.name, propertyTemplate.propertyType, .multiple values⟩
  else
    let value ← readPropertyValue f node.provider valueIdentifier propertyTemplate.propertyType
    return ⟨propertyTemplate.name, propertyTemplate.propertyType, .single value⟩

/-- Reads the properties of the template, in its order. -/
def storedPropertyStates (template : Template) : Result (List (PropertyState f)) := do
  if template.properties = [] then return []
  else
    let listIdentifier ← node.propertyListIdentifier template
    let valueIdentifiers ← uncountedListEntries node.provider listIdentifier
      template.properties.length
    (template.properties.zip valueIdentifiers).mapM fun slot =>
      node.propertyFromValue f slot.1 slot.2

/-- The stored properties in template order, without the types that the template has. -/
def storedProperties : Result (List (PropertyState f)) := do
  node.storedPropertyStates f (← node.template)

/-- The properties that stand for the types of a template. -/
def synthesizedProperties (template : Template) : List (PropertyState f) :=
  (template.primaryType.toList.map fun primaryType =>
    ⟨"jcr:primaryType", .name, .single (.name primaryType)⟩) ++
  if template.mixinTypes = [] then []
  else [⟨"jcr:mixinTypes", .name, .multiple (template.mixinTypes.map .name)⟩]

/-- All properties: the types, and the stored properties in template order. -/
def properties : Result (List (PropertyState f)) := do
  let template ← node.template
  let stored ← node.storedPropertyStates f template
  return synthesizedProperties f template ++ stored

/-- The first slot of a name, with its index. -/
def propertyByName (template : Template) (name : String) : Option (PropertyTemplate × Nat) :=
  template.properties.zipIdx.find? fun slot => slot.1.name == name

/-- Looks up a property by name, the types before the stored properties. -/
def property (name : String) : Result (Option (PropertyState f)) := do
  let template ← node.template
  match (synthesizedProperties f template).find? fun property => property.name == name with
  | some synthesized => return some synthesized
  | none =>
    match propertyByName template name with
    | none => return none
    | some (slot, index) =>
      let listIdentifier ← node.propertyListIdentifier template
      let valueIdentifier ← uncountedListEntry node.provider listIdentifier
        template.properties.length index
      return some (← node.propertyFromValue f slot valueIdentifier)

end NodeState

end Froe
