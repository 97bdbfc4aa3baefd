import Froe.Content.Map

/-!
# Template records

A template is what the nodes of one shape share: the types, the property names
and types in slot order, and whether there are no, one or many children.
-/

namespace Froe

/-- The property types, with the tags of the format. -/
inductive PropertyType where
  | string
  | binary
  | long
  | double
  | date
  | boolean
  | name
  | path
  | reference
  | weakReference
  | uri
  | decimal
deriving DecidableEq, Repr

/-- The name of a type. -/
def PropertyType.jcrName : PropertyType → String
  | .string => "String"
  | .binary => "Binary"
  | .long => "Long"
  | .double => "Double"
  | .date => "Date"
  | .boolean => "Boolean"
  | .name => "Name"
  | .path => "Path"
  | .reference => "Reference"
  | .weakReference => "WeakReference"
  | .uri => "URI"
  | .decimal => "Decimal"

/-- The byte of a type. -/
def PropertyType.tag : PropertyType → UInt8
  | .string => 1
  | .binary => 2
  | .long => 3
  | .double => 4
  | .date => 5
  | .boolean => 6
  | .name => 7
  | .path => 8
  | .reference => 9
  | .weakReference => 10
  | .uri => 11
  | .decimal => 12

/-- The type of a byte. -/
def PropertyType.fromTag (tag : UInt8) : Option PropertyType :=
  match tag.toNat with
  | 1 => some .string
  | 2 => some .binary
  | 3 => some .long
  | 4 => some .double
  | 5 => some .date
  | 6 => some .boolean
  | 7 => some .name
  | 8 => some .path
  | 9 => some .reference
  | 10 => some .weakReference
  | 11 => some .uri
  | 12 => some .decimal
  | _ => none

/-- The children of the nodes of a template. -/
inductive ChildNodeArity where
  | zero
  | one (childName : String)
  | many
deriving DecidableEq, Repr

/-- One property slot. -/
structure PropertyTemplate where
  name : String
  propertyType : PropertyType
  isMultiple : Bool
deriving DecidableEq, Repr

/-- A parsed template. -/
structure Template where
  primaryType : Option String
  mixinTypes : List String
  childArity : ChildNodeArity
  /-- The slots, in the order of the values in a node's value list. -/
  properties : List PropertyTemplate
deriving DecidableEq, Repr

/-- The magnitude of a signed type byte, and whether it is negative. -/
def splitTypeByte (typeByte : UInt8) : UInt8 × Bool :=
  if typeByte.toNat < 128 then (typeByte, false) else (-typeByte, true)

/-- The head word of a template, in its parts. -/
structure TemplateHead where
  hasPrimaryType : Bool
  hasMixinTypes : Bool
  zeroChildNodes : Bool
  manyChildNodes : Bool
  mixinCount : Nat
  propertyCount : Nat

/-- Unpacks the head of a template. -/
def TemplateHead.ofWord (head : UInt32) : TemplateHead where
  hasPrimaryType := head.toNat.testBit 31
  hasMixinTypes := head.toNat.testBit 30
  zeroChildNodes := head.toNat.testBit 29
  manyChildNodes := head.toNat.testBit 28
  mixinCount := head.toNat / 2 ^ 18 % 2 ^ 10
  propertyCount := head.toNat % 2 ^ 18

section

variable (provider : SegmentProvider) (identifier : RecordIdentifier) (view : SegmentView)

/-- Reads one name that the record refers to. -/
def readTemplateName (cursor : Nat) : Result String := do
  let nameIdentifier ← view.readRecordIdentifier identifier.recordNumber cursor 0
  readString provider nameIdentifier

/-- Reads as many names as the template counts. -/
def readTemplateNames : Nat → Nat → Result (List String)
  | 0, _ => .ok []
  | count + 1, cursor => do
    let name ← readTemplateName provider identifier view cursor
    let names ← readTemplateNames count (cursor + 6)
    return name :: names

/-- Reads the slots of the names in a list, with the type bytes from an offset on. -/
def readPropertyTemplates : List RecordIdentifier → Nat → Result (List PropertyTemplate)
  | [], _ => .ok []
  | nameIdentifier :: nameIdentifiers, cursor => do
    let typeByte ← view.readU8 identifier.recordNumber cursor
    let (tag, isMultiple) := splitTypeByte typeByte
    match PropertyType.fromTag tag with
    | none =>
      invalid s!"template {identifier.display} declares invalid property type tag {typeByte.toInt8}"
    | some propertyType =>
      let name ← readString provider nameIdentifier
      let properties ← readPropertyTemplates nameIdentifiers (cursor + 1)
      return ⟨name, propertyType, isMultiple⟩ :: properties

/-- Reads the primary type, when there is one. -/
def readPrimaryType (hasPrimaryType : Bool) (cursor : Nat) : Result (Option String × Nat) :=
  if hasPrimaryType then do
    return (some (← readTemplateName provider identifier view cursor), cursor + 6)
  else .ok (none, cursor)

/-- Reads the mixin types that the head counts. -/
def readMixinTypes (hasMixinTypes : Bool) (mixinCount cursor : Nat) :
    Result (List String × Nat) :=
  if hasMixinTypes then do
    return (← readTemplateNames provider identifier view mixinCount cursor,
      cursor + 6 * mixinCount)
  else .ok ([], cursor)

/-- Reads the child arity.  The many-children bit comes first. -/
def readChildArity (manyChildNodes zeroChildNodes : Bool) (cursor : Nat) :
    Result (ChildNodeArity × Nat) :=
  if manyChildNodes then .ok (.many, cursor)
  else if zeroChildNodes then .ok (.zero, cursor)
  else do
    return (.one (← readTemplateName provider identifier view cursor), cursor + 6)

/-- Reads the property templates. -/
def readProperties (propertyCount cursor : Nat) : Result (List PropertyTemplate) :=
  if propertyCount > 0 then do
    let nameList ← view.readRecordIdentifier identifier.recordNumber cursor 0
    let nameIdentifiers ← uncountedListEntries provider nameList propertyCount
    readPropertyTemplates provider identifier view nameIdentifiers (cursor + 6)
  else .ok []

end

/-- Reads a template record. -/
def readTemplate (provider : SegmentProvider) (identifier : RecordIdentifier) :
    Result Template := do
  let view ← provider identifier.segment
  let word ← view.readU32 identifier.recordNumber 0
  let head := TemplateHead.ofWord word
  let (primaryType, cursor) ← readPrimaryType provider identifier view head.hasPrimaryType 4
  let (mixinTypes, cursor) ←
    readMixinTypes provider identifier view head.hasMixinTypes head.mixinCount cursor
  let (childArity, cursor) ←
    readChildArity provider identifier view head.manyChildNodes head.zeroChildNodes cursor
  let properties ← readProperties provider identifier view head.propertyCount cursor
  return ⟨primaryType, mixinTypes, childArity, properties⟩

end Froe
