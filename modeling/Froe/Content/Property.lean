import Froe.Content.Template

/-!
# Property values

Every value but a binary is stored as text: longs in decimal, doubles as Java
writes them, booleans as `true` or `false`.  The type in the template says how
the text is read.

Floating-point numbers are a parameter: the standard library's parser and its
shortest rendering.
-/

namespace Froe

/-! ## Numbers as text -/

/-- A floating-point type with its parser and its renderings. -/
structure FloatingPoint where
  Double : Type
  isNan : Double → Bool
  isInfinite : Double → Bool
  isZero : Double → Bool
  isSignNegative : Double → Bool
  /-- The shortest digits of the magnitude, `d[.ddd]e<exponent>`. -/
  scientific : Double → String
  /-- The plain rendering. -/
  display : Double → String
  parse : String → Option Double

/-- A text split at the first occurrence of a character. -/
def splitOnce (separator : Char) (text : List Char) : Option (List Char × List Char) :=
  if separator ∈ text then
    some (text.takeWhile (· ≠ separator), (text.dropWhile (· ≠ separator)).tail)
  else none

/-- Parses a decimal integer with an optional sign. -/
def parseDecimal (text : Bytes) : Option Int :=
  match text with
  | [] => none
  | 45 :: digits => if digits = [] then none else (Digits.parse 10 digits).map fun n => -(n : Int)
  | 43 :: digits => if digits = [] then none else (Digits.parse 10 digits).map fun n => (n : Int)
  | digits => (Digits.parse 10 digits).map fun n => (n : Int)

/-- Parses a 64-bit integer. -/
def parseLong (text : String) : Option Int64 :=
  (parseDecimal text.utf8).bind fun n =>
    if -(2 ^ 63) ≤ n ∧ n < 2 ^ 63 then some (Int64.ofInt n) else none

/-- The decimal form of an integer, as ASCII bytes. -/
def decimalBytes (n : Int) : Bytes :=
  if n < 0 then 45 :: Digits.padded 10 1 n.natAbs else Digits.padded 10 1 n.natAbs

/-- The decimal form of a 64-bit integer. -/
def longToText (value : Int64) : String := Utf8.ascii (decimalBytes value.toInt)

/-- Digits as a plain decimal number with the point behind the given power of ten. -/
def plainDecimal (digits : List Char) (exponent : Int) : List Char :=
  if exponent < 0 then '0' :: '.' :: List.replicate (-exponent - 1).toNat '0' ++ digits
  else if exponent ≥ digits.length - 1 then
    digits ++ List.replicate (exponent - (digits.length - 1)).toNat '0' ++ ['.', '0']
  else digits.take (exponent.toNat + 1) ++ '.' :: digits.drop (exponent.toNat + 1)

/-- Digits in computerized scientific notation. -/
def scientificDecimal (digits : List Char) (exponent : Int) : List Char :=
  let rest := digits.drop 1
  digits.take 1 ++ '.' :: (if rest = [] then ['0'] else rest) ++ 'E' ::
    (Utf8.ascii (decimalBytes exponent)).toList

/-- Renders a double as `java.lang.Double::toString` does. -/
def doubleToText (f : FloatingPoint) (value : f.Double) : String :=
  if f.isNan value then "NaN"
  else if f.isInfinite value then if f.isSignNegative value then "-Infinity" else "Infinity"
  else if f.isZero value then if f.isSignNegative value then "-0.0" else "0.0"
  else
    match splitOnce 'e' (f.scientific value).toList with
    | none => f.display value
    | some (mantissa, exponentText) =>
      match parseDecimal (String.ofList exponentText).utf8 with
      | none => f.display value
      | some exponent =>
        let digits := mantissa.filter (· ≠ '.')
        let rendered :=
          if -3 ≤ exponent ∧ exponent < 7 then plainDecimal digits exponent
          else scientificDecimal digits exponent
        String.ofList (if f.isSignNegative value then '-' :: rendered else rendered)

/-! ## Values -/

/-- One decoded value. -/
inductive PropertyValue (f : FloatingPoint) where
  | string (text : String)
  | binary (value : BinaryValue)
  | long (value : Int64)
  | double (value : f.Double)
  | date (text : String)
  | boolean (value : Bool)
  | name (text : String)
  | path (text : String)
  | reference (text : String)
  | weakReference (text : String)
  | uri (text : String)
  | decimal (text : String)

/-- The text form of a value; a binary has none. -/
def PropertyValue.asText {f : FloatingPoint} : PropertyValue f → Option String
  | .string text => some text
  | .binary _ => none
  | .long value => some (longToText value)
  | .double value => some (doubleToText f value)
  | .date text => some text
  | .boolean value => some (if value then "true" else "false")
  | .name text => some text
  | .path text => some text
  | .reference text => some text
  | .weakReference text => some text
  | .uri text => some text
  | .decimal text => some text

/-- An ASCII letter in lower case. -/
def toAsciiLowercase (x : UInt8) : UInt8 := if 65 ≤ x.toNat ∧ x.toNat ≤ 90 then x + 32 else x

/-- Equality of texts up to the case of ASCII letters. -/
def eqIgnoreAsciiCase (a b : String) : Bool :=
  a.utf8.map toAsciiLowercase = b.utf8.map toAsciiLowercase

/-- The error for a text that is no value of its type.  `quote` is `{:?}` up to characters that do not print. -/
def corruptValue (kind text : String) (identifier : RecordIdentifier) : Error :=
  .invalidFormat s!"stored {kind} value {text.quote} at {identifier.display} cannot be decoded"

/-- Reads a text as a value of a type other than binary. -/
def decodeText (f : FloatingPoint) (propertyType : PropertyType) (identifier : RecordIdentifier)
    (text : String) : Result (PropertyValue f) :=
  match propertyType with
  | .string => .ok (.string text)
  | .long =>
    match parseLong text with
    | some value => .ok (.long value)
    | none => .error (corruptValue "long" text identifier)
  | .double =>
    match f.parse text with
    | some value => .ok (.double value)
    | none => .error (corruptValue "double" text identifier)
  | .date => .ok (.date text)
  | .boolean => .ok (.boolean (eqIgnoreAsciiCase text "true"))
  | .name => .ok (.name text)
  | .path => .ok (.path text)
  | .reference => .ok (.reference text)
  | .weakReference => .ok (.weakReference text)
  | .uri => .ok (.uri text)
  | .decimal => .ok (.decimal text)
  | .binary => .error (corruptValue "binary" text identifier)

def readPropertyValue (f : FloatingPoint) (provider : SegmentProvider)
    (valueIdentifier : RecordIdentifier) (propertyType : PropertyType) :
    Result (PropertyValue f) := do
  if propertyType = .binary then return .binary (← readBinaryValue provider valueIdentifier)
  else
    let text ← readString provider valueIdentifier
    decodeText f propertyType valueIdentifier text

end Froe
