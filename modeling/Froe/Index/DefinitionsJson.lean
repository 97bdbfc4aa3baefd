import Froe.Content.Node
import Froe.Lib.Loops

/-!
# Rendering index definitions

Index definitions are rendered as one object keyed by index path.  Hidden properties
are included and hidden children are not.  The property `:childOrder` says which
children are rendered, in which order, and is itself left out.  A type other than
string stands as a code in front of the text of a value, and a string that could be
read as such a code is written with the code `str`.
-/

namespace Froe

open Utf16 (decodeUtf16 encodeUtf16)

open Loops

/-- Which children a rendering includes. -/
inductive ChildFilter where
  /-- Every hidden child is left out. -/
  | printer
  /-- Three kinds of hidden children are left out. -/
  | outOfBandBuild

/-- Whether a child is rendered. -/
def ChildFilter.includes : ChildFilter → String → Bool
  | .printer, childName => !":".utf8.isPrefixOf childName.utf8
  | .outOfBandBuild, childName =>
    !(childName == ":index-definition" || childName == ":data" || childName == ":suggest-data")

/-- What is rendered of a definition. -/
structure RenderOptions where
  /-- A binary of this size or more is refused. -/
  maximumBlobSize : Nat
  childFilter : ChildFilter

/-- The options of the printer. -/
def RenderOptions.default : RenderOptions := ⟨2 ^ 20, .printer⟩

/-! ## Texts -/

/-- Whether a code unit makes a text be escaped.  Low surrogates do not. -/
def shouldEscape (unit : UInt16) : Bool :=
  unit = 0x22 ∨ unit = 0x5C ∨ unit < 0x20 ∨ 0xD800 ≤ unit ∧ unit ≤ 0xDBFF

/-- An escape with four hexadecimal digits. -/
def unicodeEscape (unit : UInt16) : String :=
  "\\u" ++ Utf8.ascii (Digits.padded 16 4 unit.toNat)

/-- The escaped form of code units. -/
def escapeUnits : List UInt16 → String
  | [] => ""
  | unit :: rest =>
    if unit = 0x22 then "\\\"" ++ escapeUnits rest
    else if unit = 0x5C then "\\\\" ++ escapeUnits rest
    else if unit = 0x08 then "\\b" ++ escapeUnits rest
    else if unit = 0x0C then "\\f" ++ escapeUnits rest
    else if unit = 0x0A then "\\n" ++ escapeUnits rest
    else if unit = 0x0D then "\\r" ++ escapeUnits rest
    else if unit = 0x09 then "\\t" ++ escapeUnits rest
    else if unit < 0x20 then unicodeEscape unit ++ escapeUnits rest
    else if 0xD800 ≤ unit ∧ unit ≤ 0xDFFF then
      match rest with
      | next :: later =>
        if unit ≤ 0xDBFF ∧ 0xDC00 ≤ next ∧ next ≤ 0xDFFF then
          String.ofList (decodeUtf16 [unit, next]) ++ escapeUnits later
        else unicodeEscape unit ++ escapeUnits (next :: later)
      | [] => unicodeEscape unit
    else String.ofList (decodeUtf16 [unit]) ++ escapeUnits rest

/-- A text in quotes.  It is escaped as a whole or not at all. -/
def appendString (text : String) : String :=
  let body := if (encodeUtf16 text).any shouldEscape then escapeUnits (encodeUtf16 text) else text
  "\"" ++ body ++ "\""

/-- The symbols of base64. -/
def base64Alphabet : Bytes :=
  "ABCDEFGHIJKLMNOPQRSTUVWXYZabcdefghijklmnopqrstuvwxyz0123456789+/".utf8

/-- The symbol of six bits. -/
def base64Symbol (packed : Nat) (position : Nat) : UInt8 :=
  (base64Alphabet[packed / 2 ^ (18 - 6 * position) % 64]?).getD 0

/-- The symbols of some bytes. -/
def base64Bytes : Bytes → Bytes
  | [] => []
  | [a] =>
    let packed := a.toNat * 2 ^ 16
    [base64Symbol packed 0, base64Symbol packed 1, 61, 61]
  | [a, b] =>
    let packed := a.toNat * 2 ^ 16 + b.toNat * 2 ^ 8
    [base64Symbol packed 0, base64Symbol packed 1, base64Symbol packed 2, 61]
  | a :: b :: c :: rest =>
    let packed := a.toNat * 2 ^ 16 + b.toNat * 2 ^ 8 + c.toNat
    base64Symbol packed 0 :: base64Symbol packed 1 :: base64Symbol packed 2 ::
      base64Symbol packed 3 :: base64Bytes rest

/-- The base64 text of some bytes. -/
def base64 (bytes : Bytes) : String := Utf8.ascii (base64Bytes bytes)

/-! ## Types -/

/-- The first three characters of a type name in lower case. -/
def shortName (propertyType : PropertyType) : String :=
  String.ofList ((propertyType.jcrName.toList.take 3).map Char.toLower)

/-- The code in front of a text. -/
def typeCode (propertyType : PropertyType) : String :=
  if propertyType = .binary then ":blobId" else shortName propertyType

/-- Where a type code ends in a text.  The fourth code unit decides, whatever the first
three say. -/
def typeCodeSplit (text : String) : Option Nat :=
  if ":blobId:".utf8.isPrefixOf text.utf8 then some 7
  else if (encodeUtf16 text)[3]? = some 0x3A then some 3 else none

/-! ## Values -/

section Render

variable (f : FloatingPoint) (provider : SegmentProvider) (options : RenderOptions)

/-- The content of an inline binary in base 64. -/
def encodeBlob (binary : BinaryValue) : Result String :=
  match binary with
  | .external _ =>
    invalid "a definition holds a binary in an external blob store, which froe does not read"
  | .inline length recordIdentifier =>
    if length ≥ options.maximumBlobSize then
      invalid s!"cannot serialize a binary of {length} bytes, which is at or above the limit of {options.maximumBlobSize}"
    else do return base64 (← readBinaryContent provider recordIdentifier)

/-- A value of a type that is written as text. -/
def appendText (propertyType : PropertyType) (text : String) : String :=
  if propertyType = .string ∧ typeCodeSplit text = none then appendString text
  else appendString (typeCode propertyType ++ ":" ++ text)

/-- Renders a value. -/
def appendValue (propertyType : PropertyType) (value : PropertyValue f) : Result String :=
  match value with
  | .boolean truth => .ok (if truth then "true" else "false")
  | .long number => .ok (longToText number)
  | .double number =>
    if f.isNan number || f.isInfinite number then
      .ok (appendString ("dou:" ++ doubleToText f number))
    else .ok (doubleToText f number)
  | .binary binary => do return appendString (":blobId:" ++ (← encodeBlob provider options binary))
  | other => .ok (appendText propertyType (other.asText.getD ""))

/-- Values behind one another. -/
def joinValues : List String → String
  | [] => ""
  | [value] => value
  | value :: values => value ++ ", " ++ joinValues values

/-- One property value or array. -/
def appendProperty (property : PropertyState f) : Result String :=
  match property.values with
  | .single value => appendValue f provider options property.propertyType value
  | .multiple values =>
    -- an empty array of another type than string names its type
    if values.isEmpty && property.propertyType != .string then
      .ok (appendString ("[0]:" ++ property.propertyType.jcrName))
    else do
      let texts ← values.mapM (appendValue f provider options property.propertyType)
      return "[" ++ joinValues texts ++ "]"

/-! ## Nodes -/

/-- The values of a property of several names. -/
def strictNames (property : PropertyState f) : Option (List String) :=
  match property.values, property.propertyType with
  | .multiple values, .name => some (values.filterMap PropertyValue.asText)
  | _, _ => none

/-- The children of a node, in the order of `:childOrder` when there is one. -/
def childrenInTreeOrder (node : NodeState) : Result (List (String × NodeState)) := do
  let entries ← node.childNodeEntries
  let children := entries.map fun entry => (entry.1, (⟨node.provider, entry.2⟩ : NodeState))
  match ← node.property f ":childOrder" with
  | none => return children
  | some order =>
    match strictNames f order with
    | none => return children
    | some named =>
      return named.filterMap fun name =>
        (children.find? fun child => child.1 == name).map fun child => (name, child.2)

/-- The children to render. -/
def orderedChildren (node : NodeState) : Result (List (String × NodeState)) := do
  return (← childrenInTreeOrder f node).filter fun child => options.childFilter.includes child.1

/-- The properties to render. -/
def renderedProperties (node : NodeState) : Result (List (PropertyState f)) := do
  return (← node.properties f).filter fun property => property.name != ":childOrder"

/-- Members behind one another, each on a line of its own. -/
def joinMembers (indent : String) : List String → String
  | [] => ""
  | [member] => indent ++ member
  | member :: members => indent ++ member ++ ",\n" ++ joinMembers indent members

/-- A name with what it stands for. -/
def appendMember (name value : String) : String := appendString name ++ ": " ++ value

/-- One node: its properties in stored order and then its children. -/
def NodeState.appendNode (indent : String) (node : NodeState) : Program Error String := do
  let properties ← liftExcept (renderedProperties f node)
  let children ← liftExcept (orderedChildren f options node)
  if properties.isEmpty && children.isEmpty then return "\x7b\x7d"
  else
    let deeper := indent ++ "  "
    let propertyMembers ← liftExcept (properties.mapM fun property => do
      return appendMember property.name (← appendProperty f provider options property))
    let childMembers ← children.mapM fun child => do
      return appendMember child.1 (← child.2 |>.appendNode deeper)
    return "\x7b\n" ++ joinMembers deeper (propertyMembers ++ childMembers) ++ "\n" ++ indent ++
      "\x7d"
partial_fixpoint

/-- Renders definitions as one object keyed by index path, in the order given. -/
def render (definitions : List (String × NodeState)) : Program Error String := do
  if definitions.isEmpty then return "\x7b\x7d"
  else
    let members ← definitions.mapM fun definition => do
      return appendMember definition.1 (← NodeState.appendNode f provider options "  " definition.2)
    return "\x7b\n" ++ joinMembers "  " members ++ "\n\x7d"

end Render

end Froe
