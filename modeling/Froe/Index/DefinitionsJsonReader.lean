import Froe.Index.DefinitionsJson

/-!
# Reading index definitions

The reader accepts what the renderer writes.  It bounds the size of the file and the
nesting of the nodes.  A text is a value of the type that its code names, and a code that
names no type is dropped as well.
-/

namespace Froe

open Utf16 (encodeUtf16)

open Loops

/-- The largest file the reader accepts. -/
def maximumDefinitionsFileBytes : Nat := 100 * 1024 * 1024

/-- How deeply definitions may nest. -/
def maximumNestingDepth : Nat := 64

/-- One property as the file has it. -/
structure ParsedProperty where
  propertyType : PropertyType
  values : List String
  /-- Whether the file has an array. -/
  multiple : Bool
deriving DecidableEq

/-- A map from texts, in the order of their bytes. -/
abbrev TextMap (α : Type) := List (String × α)

/-- Puts an entry in its place, instead of the one with the same key. -/
def TextMap.put {α : Type} (key : String) (value : α) : TextMap α → TextMap α
  | [] => [(key, value)]
  | entry :: entries =>
    if key = entry.1 then (key, value) :: entries
    else if key < entry.1 then (key, value) :: entry :: entries
    else entry :: put key value entries

/-- One definition node as the file has it. -/
inductive ParsedNode where
  | node (properties : List (String × ParsedProperty)) (children : List (String × ParsedNode))

namespace ParsedNode

/-- The properties of a node. -/
def properties : ParsedNode → TextMap ParsedProperty
  | node properties _ => properties

/-- The children of a node. -/
def children : ParsedNode → TextMap ParsedNode
  | node _ children => children

/-- A node without members. -/
def empty : ParsedNode := node [] []

/-- Adds or replaces a property. -/
def putProperty (parsed : ParsedNode) (name : String) (property : ParsedProperty) : ParsedNode :=
  node (TextMap.put name property parsed.properties) parsed.children

/-- Adds or replaces a child. -/
def putChild (parsed : ParsedNode) (name : String) (child : ParsedNode) : ParsedNode :=
  node parsed.properties (TextMap.put name child parsed.children)

end ParsedNode

/-! ## Tokens

The position of the reader is what is left of the file; `total` is the length of the file. -/

section Read

/-- How many bytes the whole text has. -/
abbrev TextLength := Nat

variable (total : TextLength)

/-- The offset of what is left. -/
def offsetOf (rest : Bytes) : Nat := total - rest.length

/-- A malformed-file error naming the offset. -/
def malformed {α : Type} (offset : Nat) (details : String) : Result α :=
  invalid s!"index-definitions.json is malformed at offset {offset}: {details}"

/-- The bytes between tokens. -/
def isAsciiWhitespace (x : UInt8) : Bool := x = 32 || x = 9 || x = 10 || x = 12 || x = 13

/-- Skips the bytes between tokens. -/
def skipWhitespace (rest : Bytes) : Bytes := rest.dropWhile isAsciiWhitespace

/-- Reads the byte that must come next.  `quote` is `{:?}` up to characters that do not print. -/
def expectByte (byte : UInt8) (rest : Bytes) : Result Bytes :=
  match rest with
  | found :: later =>
    if found = byte then .ok later
    else
      let expected := (Char.ofNat byte.toNat).quote
      let other := (Char.ofNat found.toNat).quote
      malformed (offsetOf total rest) s!"expected {expected}, found {other}"
  | [] =>
    let expected := (Char.ofNat byte.toNat).quote
    malformed (offsetOf total rest) s!"expected {expected}, found the end of the file"

/-- Reads a literal.  `quote` is `{:?}` up to characters that do not print. -/
def expectLiteral (literal : String) (rest : Bytes) : Result Bytes :=
  if literal.utf8.isPrefixOf rest then .ok (rest.drop literal.utf8.length)
  else
    let expected := literal.quote
    malformed (offsetOf total rest) s!"expected {expected}"

/-- A text of valid bytes. -/
def fromUtf8? (bytes : Bytes) : Option String :=
  if (ByteArray.mk bytes.toArray).validateUTF8 then some (Utf8.decodeLossy bytes) else none

/-- A hexadecimal number with an optional sign. -/
def parseHexadecimal (digits : Bytes) : Option Nat :=
  match digits with
  | [] => none
  | 43 :: rest => if rest = [] then none else Digits.parse 16 (rest.map lowerHexadecimal)
  | digits => Digits.parse 16 (digits.map lowerHexadecimal)
where
  /-- The lower-case form of a hexadecimal digit. -/
  lowerHexadecimal (x : UInt8) : UInt8 := if 65 ≤ x.toNat ∧ x.toNat ≤ 70 then x + 32 else x

/-- The character of a code point. -/
def charFromCode (code : Nat) : Char :=
  if code < 0xD800 ∨ 0xDFFF < code ∧ code < 0x110000 then Char.ofNat code else Utf8.replacement

/-- Reads the four digits of an escape. -/
def readUnicodeEscape (rest : Bytes) : Result (Char × Bytes) :=
  if rest.length < 4 then malformed (offsetOf total rest) "a truncated \\u escape"
  else
    match fromUtf8? (rest.take 4) with
    | none => malformed (offsetOf total rest) "a \\u escape that is not UTF-8"
    | some digits =>
      match parseHexadecimal (rest.take 4) with
      | none =>
        let quoted := digits.quote
        malformed (offsetOf total rest) s!"a \\u escape {quoted} that is not hexadecimal"
      | some code => .ok (charFromCode code, rest.drop 4)

/-- Reads what follows a backslash. -/
def readEscape (rest : Bytes) : Result (Char × Bytes) :=
  match rest with
  | [] => malformed (offsetOf total rest) "an escape at the end of the file"
  | escape :: later =>
    if escape = 34 then .ok ('"', later)
    else if escape = 92 then .ok ('\\', later)
    else if escape = 47 then .ok ('/', later)
    else if escape = 98 then .ok (Char.ofNat 8, later)
    else if escape = 102 then .ok (Char.ofNat 12, later)
    else if escape = 110 then .ok ('\n', later)
    else if escape = 114 then .ok ('\r', later)
    else if escape = 116 then .ok ('\t', later)
    else if escape = 117 then readUnicodeEscape total later
    else
      let other := String.singleton (Char.ofNat escape.toNat)
      malformed (offsetOf total later) s!"an unknown escape \\{other}"

/-- How many bytes a sequence occupies, by its first byte. -/
def utf8Width (byte : UInt8) : Nat :=
  if byte ≤ 0x7F then 1
  else if 0xC0 ≤ byte ∧ byte ≤ 0xDF then 2
  else if 0xE0 ≤ byte ∧ byte ≤ 0xEF then 3
  else 4

/-- Reads one character that is not escaped. -/
def readSequence (byte : UInt8) (rest : Bytes) : Result (String × Bytes) :=
  let width := utf8Width byte
  if rest.length < width then malformed (offsetOf total rest) "a truncated UTF-8 sequence"
  else
    match fromUtf8? (rest.take width) with
    | none => malformed (offsetOf total rest) "invalid UTF-8"
    | some text => .ok (text, rest.drop width)

/-- Reads the rest of a string behind its opening quote. -/
def TextLength.parseStringBody (total : TextLength) (text : String) (rest : Bytes) :
    Program Error (String × Bytes) := do
  match rest with
  | [] => liftExcept (malformed (offsetOf total rest) "unterminated string")
  | byte :: later =>
    if byte = 34 then return (text, later)
    else if byte = 92 then
      let (character, rest) ← liftExcept (readEscape total later)
      total |>.parseStringBody (text.push character) rest
    else
      let (slice, rest) ← liftExcept (readSequence total byte rest)
      total |>.parseStringBody (text ++ slice) rest
partial_fixpoint

/-- Reads a string. -/
def parseString (rest : Bytes) : Program Error (String × Bytes) := do
  let body ← liftExcept (expectByte total 34 rest)
  TextLength.parseStringBody total "" body

/-! ## Values -/

/-- Every type a definition property can have. -/
def everyPropertyType : List PropertyType :=
  [.string, .binary, .long, .double, .date, .boolean, .name, .path, .reference, .weakReference,
    .uri, .decimal]

/-- The type of a code of three characters. -/
def propertyTypeForCode (code : String) : Option PropertyType :=
  everyPropertyType.find? fun candidate => shortName candidate == code

/-- The type of a JCR name. -/
def propertyTypeNamed (name : String) : Option PropertyType :=
  everyPropertyType.find? fun candidate => candidate.jcrName == name

/-- A text without a leading part. -/
def stripText (start text : String) : Option String :=
  if start.toList.isPrefixOf text.toList then
    some (String.ofList (text.toList.drop start.toList.length))
  else none

/-- Cuts the type code off a text. -/
def splitTypeCode (text : String) : PropertyType × String :=
  match stripText ":blobId:" text with
  | some rest => (.binary, rest)
  | none =>
    if (encodeUtf16 text)[3]? = some 0x3A then
      let code := String.ofList (text.toList.take 3)
      let rest := String.ofList (text.toList.drop 4)
      ((propertyTypeForCode code).getD .string, rest)
    else (.string, text)

/-- Whether a byte may be part of an unquoted number. -/
def isNumberByte (x : UInt8) : Bool :=
  48 ≤ x && x ≤ 57 || x = 43 || x = 45 || x = 46 || x = 101 || x = 69

/-- Reads an unquoted number.  A point or an exponent makes it a double. -/
def parseNumber (rest : Bytes) : Result (PropertyType × String × Bytes) :=
  let number := rest.takeWhile isNumberByte
  if number = [] then malformed (offsetOf total rest) "expected a value"
  else
    let text := Utf8.decodeLossy number
    let propertyType : PropertyType :=
      if 46 ∈ number ∨ 101 ∈ number ∨ 69 ∈ number then .double else .long
    .ok (propertyType, text, rest.drop number.length)

/-- Reads one scalar: a truth value, a number, or a string with its type code. -/
def parseScalar (rest : Bytes) : Program Error (PropertyType × String × Bytes) := do
  if rest.head? = some 34 then
    let (text, rest) ← parseString total rest
    let (propertyType, value) := splitTypeCode text
    return (propertyType, value, rest)
  else if rest.head? = some 116 then
    let rest ← liftExcept (expectLiteral total "true" rest)
    return (.boolean, "true", rest)
  else if rest.head? = some 102 then
    let rest ← liftExcept (expectLiteral total "false" rest)
    return (.boolean, "false", rest)
  else liftExcept (parseNumber total rest)

/-- Reads the values of an array. -/
def TextLength.parseValues (total : TextLength) (values : List String) (rest : Bytes) :
    Program Error (ParsedProperty × Bytes) := do
  let (propertyType, text, rest) ← parseScalar total (skipWhitespace rest)
  let rest := skipWhitespace rest
  if rest.head? = some 44 then total |>.parseValues (values ++ [text]) (rest.drop 1)
  else if rest.head? = some 93 then
    return (⟨propertyType, values ++ [text], true⟩, rest.drop 1)
  else liftExcept (malformed (offsetOf total rest) "expected ',' or ']' in an array")
partial_fixpoint

/-- Reads one property: a scalar, or an array of them. -/
def parseProperty (rest : Bytes) : Program Error (ParsedProperty × Bytes) := do
  if rest.head? = some 91 then
    let rest := skipWhitespace (rest.drop 1)
    if rest.head? = some 93 then return (⟨.string, [], true⟩, rest.drop 1)
    else TextLength.parseValues total [] rest
  else if rest.head? = some 34 then
    let (raw, rest) ← parseString total rest
    -- the name of an empty typed array comes before the type code
    match stripText "[0]:" raw with
    | some name => return (⟨(propertyTypeNamed name).getD .string, [], true⟩, rest)
    | none =>
      let (propertyType, text) := splitTypeCode raw
      return (⟨propertyType, [text], false⟩, rest)
  else
    let (propertyType, text, rest) ← parseScalar total rest
    return (⟨propertyType, [text], false⟩, rest)

/-! ## Nodes -/

mutual

/-- Reads one object. -/
def TextLength.parseNode (total : TextLength) (depth : Nat) (rest : Bytes) :
    Program Error (ParsedNode × Bytes) := do
  if depth > maximumNestingDepth then
    liftExcept (malformed (offsetOf total rest)
      s!"definitions nest deeper than {maximumNestingDepth} levels")
  else
    let body ← liftExcept (expectByte total 123 rest)
    let body := skipWhitespace body
    if body.head? = some 125 then return (.empty, body.drop 1)
    else total |>.parseMembers depth .empty body
partial_fixpoint

/-- Reads what a name stands for. -/
def TextLength.parseMember (total : TextLength) (depth : Nat) (parsed : ParsedNode)
    (name : String) (rest : Bytes) :
    Program Error (ParsedNode × Bytes) := do
  if rest.head? = some 123 then
    let (child, rest) ← total |>.parseNode (depth + 1) rest
    return (parsed.putChild name child, rest)
  else
    let (property, rest) ← parseProperty total rest
    return (parsed.putProperty name property, rest)
partial_fixpoint

/-- Reads the members of an object, properties and children together. -/
def TextLength.parseMembers (total : TextLength) (depth : Nat) (parsed : ParsedNode)
    (rest : Bytes) :
    Program Error (ParsedNode × Bytes) := do
  let (name, rest) ← parseString total (skipWhitespace rest)
  let rest ← liftExcept (expectByte total 58 (skipWhitespace rest))
  let (parsed, rest) ← total |>.parseMember depth parsed name (skipWhitespace rest)
  let rest := skipWhitespace rest
  if rest.head? = some 44 then total |>.parseMembers depth parsed (rest.drop 1)
  else if rest.head? = some 125 then return (parsed, rest.drop 1)
  else liftExcept (malformed (offsetOf total rest) "expected ',' or '\x7d' after a member")
partial_fixpoint

end

end Read

/-- Parses a file of definitions. -/
def parseDefinitions (content : String) : Program Error (TextMap ParsedNode) := do
  let total := content.utf8.length
  if total > maximumDefinitionsFileBytes then
    liftExcept (malformed 0
      s!"the definitions file is {total} bytes, above the {maximumDefinitionsFileBytes} this reader accepts")
  else
    let (root, rest) ← TextLength.parseNode total 0 (skipWhitespace content.utf8)
    let rest := skipWhitespace rest
    if rest ≠ [] then
      liftExcept (malformed (offsetOf total rest) "trailing content after the definitions object")
    else return root.children

end Froe
