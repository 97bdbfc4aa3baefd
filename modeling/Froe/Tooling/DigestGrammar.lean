import Froe.Lib.Separators
import Froe.Tooling.Digest
import Mathlib.Data.Bool.AllAny

/-!
# The grammar of digests

A property is written as its escaped name, the marker of its type and arity, and its escaped
values joined by a separator.  Escaping is a prefix-free code, so that names and values can be
told apart wherever the grammar has a reserved character between them; the `=` and the `:` are
not reserved.  Two properties are written in one way exactly when they are alike
(`segment_eq_iff`).
-/

namespace Froe

open String (append_assoc append_empty toList_append toList_inj toList_ofList)

open Separators

/-! ## Escaping -/

/-- What the grammar of the lines reserves, but for the escape character. -/
def IsReserved (c : Char) : Prop := c = '\t' ∨ c = '\n' ∨ c = '\r' ∨ c = Char.ofNat 0x1F

instance (c : Char) : Decidable (IsReserved c) := by
  unfold IsReserved
  infer_instance

def escaped (text : String) : List Char := text.toList.flatMap escapeChar

theorem escapeChar_ne_nil (c : Char) : escapeChar c ≠ [] := by
  rw [escapeChar]
  split_ifs <;> exact List.cons_ne_nil _ _

variable {c : Char} {text : String} {base w n length readBytes : Nat} {checksum : UInt32}
  {value : DigestValue} {texts' : List String} {q : DigestProperty}

theorem escapeChar_not_reserved {d : Char} (h : d ∈ escapeChar c) : ¬ IsReserved d := by
  rw [escapeChar] at h
  split_ifs at h with h₁ h₂ h₃ h₄ h₅
  · have hall : ∀ d ∈ ['\\', '\\'], ¬ IsReserved d := List.all_iff_forall_prop.mp (by decide)
    exact hall d h
  · have hall : ∀ d ∈ ['\\', 't'], ¬ IsReserved d := List.all_iff_forall_prop.mp (by decide)
    exact hall d h
  · have hall : ∀ d ∈ ['\\', 'n'], ¬ IsReserved d := List.all_iff_forall_prop.mp (by decide)
    exact hall d h
  · have hall : ∀ d ∈ ['\\', 'r'], ¬ IsReserved d := List.all_iff_forall_prop.mp (by decide)
    exact hall d h
  · have hall : ∀ d ∈ ['\\', 'u', '0', '0', '1', 'f'], ¬ IsReserved d :=
      List.all_iff_forall_prop.mp (by decide)
    exact hall d h
  · rw [List.mem_singleton.mp h]
    rintro (rfl | rfl | rfl | rfl)
    · exact h₂ rfl
    · exact h₃ rfl
    · exact h₄ rfl
    · exact h₅ rfl

/-- Reads one escaped character back. -/
def unescapeChar : List Char → Option (Char × List Char)
  | '\\' :: '\\' :: rest => some ('\\', rest)
  | '\\' :: 't' :: rest => some ('\t', rest)
  | '\\' :: 'n' :: rest => some ('\n', rest)
  | '\\' :: 'r' :: rest => some ('\r', rest)
  | '\\' :: 'u' :: '0' :: '0' :: '1' :: 'f' :: rest => some (Char.ofNat 0x1F, rest)
  | c :: rest => some (c, rest)
  | [] => none

theorem unescapeChar_escapeChar (c : Char) (rest : List Char) :
    unescapeChar (escapeChar c ++ rest) = some (c, rest) := by
  rw [escapeChar]
  split_ifs with h₁ h₂ h₃ h₄ h₅
  · rw [h₁]
    rfl
  · rw [h₂]
    rfl
  · rw [h₃]
    rfl
  · rw [h₄]
    rfl
  · rw [h₅]
    rfl
  · rw [List.singleton_append]
    unfold unescapeChar
    split
    · rename_i heq
      exact absurd (List.cons.inj heq).1 h₁
    · rename_i heq
      exact absurd (List.cons.inj heq).1 h₁
    · rename_i heq
      exact absurd (List.cons.inj heq).1 h₁
    · rename_i heq
      exact absurd (List.cons.inj heq).1 h₁
    · rename_i heq
      exact absurd (List.cons.inj heq).1 h₁
    · rename_i heq
      obtain ⟨rfl, rfl⟩ := List.cons.inj heq
      rfl
    · rename_i heq
      cases heq

theorem prefixFree_escapeChar : PrefixFree escapeChar := by
  intro a b rest later h
  have hread := unescapeChar_escapeChar a rest
  rw [h, unescapeChar_escapeChar] at hread
  obtain ⟨rfl, rfl⟩ := Prod.mk.inj (Option.some.inj hread)
  exact ⟨rfl, rfl⟩

theorem toList_escape (text : String) : (escape text).toList = escaped text := by
  rw [escape]
  split
  · rw [toList_ofList, escaped]
  · rename_i hplain
    rw [escaped, ← List.flatMap_singleton' text.toList]
    rw [Bool.not_eq_true, List.any_eq_false] at hplain
    rw [List.flatMap_singleton']
    have hsingle : ∀ c ∈ text.toList, escapeChar c = [c] := by
      intro c hc
      have hnot := hplain c hc
      rw [decide_eq_true_eq, not_or, not_or, not_or, not_or] at hnot
      obtain ⟨h₁, h₂, h₃, h₄, h₅⟩ := hnot
      rw [escapeChar, if_neg h₁, if_neg h₂, if_neg h₃, if_neg h₄, if_neg h₅]
    rw [List.flatMap_congr hsingle, List.flatMap_singleton']

theorem escaped_not_reserved (h : c ∈ escaped text) :
    ¬ IsReserved c := by
  obtain ⟨d, -, hc⟩ := List.mem_flatMap.mp h
  exact escapeChar_not_reserved hc

theorem escaped_inj {text' : String} : escaped text = escaped text' ↔ text = text' := by
  rw [escaped, escaped, prefixFree_escapeChar.flatMap_inj escapeChar_ne_nil, toList_inj]

theorem escaped_append (text text' : String) :
    escaped (text ++ text') = escaped text ++ escaped text' := by
  rw [escaped, toList_append, List.flatMap_append]
  rfl

/-- What begins as an escaped text does not go on inside an escaped character. -/
theorem exists_of_escaped_eq_append {text text' : String} {rest : List Char}
    (h : escaped text' = escaped text ++ rest) :
    ∃ later, text' = text ++ later ∧ rest = escaped later := by
  obtain ⟨later, htext, hrest⟩ := prefixFree_escapeChar.flatMap_append escapeChar_ne_nil h
  refine ⟨String.ofList later, ?_, ?_⟩
  · rw [← toList_inj, htext, toList_append, toList_ofList]
  · rw [hrest, escaped, toList_ofList]

/-! ## Markers -/

/-- The type of a property, as a line shows it. -/
def marker (propertyType : PropertyType) (multiple : Bool) : String :=
  propertyType.jcrName ++ if multiple then "[]" else ""

/-- A character that escaping and the grammar leave alone. -/
def isMarkerChar (c : Char) : Bool := c.isAlpha || c == '[' || c == ']'

theorem marker_chars (propertyType : PropertyType) (multiple : Bool) :
    (marker propertyType multiple).toList.all isMarkerChar = true := by
  cases multiple with
  | false => cases propertyType <;> decide
  | true => cases propertyType <;> decide

theorem not_mem_marker (hc : isMarkerChar c = false) (propertyType : PropertyType)
    (multiple : Bool) : c ∉ (marker propertyType multiple).toList := by
  intro hmem
  have hall := List.all_eq_true.mp (marker_chars propertyType multiple) c hmem
  rw [hc] at hall
  cases hall

theorem escaped_marker (propertyType : PropertyType) (multiple : Bool) :
    escaped (marker propertyType multiple) = (marker propertyType multiple).toList := by
  have hsingle : ∀ c ∈ (marker propertyType multiple).toList, escapeChar c = [c] := by
    intro c hc
    rw [escapeChar, if_neg, if_neg, if_neg, if_neg, if_neg]
    all_goals
      rintro rfl
      exact absurd hc (not_mem_marker (by decide) _ _)
  rw [escaped, List.flatMap_congr hsingle, List.flatMap_singleton']

theorem jcrName_inj {t t' : PropertyType} (h : t.jcrName = t'.jcrName) : t = t' := by
  revert h
  cases t <;> cases t' <;> decide

theorem jcrName_getLast (t : PropertyType) : t.jcrName.toList.getLast? ≠ some ']' := by
  cases t <;> decide

theorem marker_inj {t t' : PropertyType} {m m' : Bool} (h : marker t m = marker t' m') :
    t = t' ∧ m = m' := by
  have hlast := congrArg (fun text : String => text.toList.getLast?) h
  cases m with
  | false =>
    cases m' with
    | false =>
      rw [marker, marker, if_neg Bool.false_ne_true, append_empty, append_empty] at h
      exact ⟨jcrName_inj h, rfl⟩
    | true =>
      rw [marker, marker, if_neg Bool.false_ne_true, if_pos rfl, append_empty,
        toList_append, List.getLast?_append] at hlast
      exact absurd hlast (jcrName_getLast t)
  | true =>
    cases m' with
    | false =>
      rw [marker, marker, if_neg Bool.false_ne_true, if_pos rfl, append_empty,
        toList_append, List.getLast?_append] at hlast
      exact absurd hlast.symm (jcrName_getLast t')
    | true =>
      rw [marker, marker, if_pos rfl, ← toList_inj, toList_append,
        toList_append, List.append_left_inj, toList_inj] at h
      exact ⟨jcrName_inj h, rfl⟩

/-! ## Values -/

/-- A value as a digest compares it.  An inline binary is its length, the length read and the
checksum. -/
inductive DigestValue where
  | inline (length readBytes : Nat) (checksum : UInt32)
  | external (blobIdentifier : String)
  | text (content : String)
deriving DecidableEq

/-- Whether a value can be one of a property's type. -/
def DigestValue.HasType : DigestValue → PropertyType → Prop
  | .text _, propertyType => propertyType ≠ .binary
  | _, propertyType => propertyType = .binary

/-- A value as it is written, but for escapes. -/
def DigestValue.shown : DigestValue → String
  | .inline length readBytes checksum => inlineText length readBytes checksum
  | .external blobIdentifier => "external:" ++ blobIdentifier
  | .text content => content

theorem isAlphanum_digitByte {d : Nat} (h : d < 16) :
    (Char.ofNat (Digits.digitByte d).toNat).isAlphanum = true := by
  revert d
  decide

theorem ascii_padded_chars (hb : 0 < base) (hb' : base ≤ 16) :
    ∀ c ∈ (Utf8.ascii (Digits.padded base w n)).toList, c.isAlphanum = true := by
  intro c hc
  rw [Utf8.ascii, toList_ofList] at hc
  obtain ⟨x, hx, rfl⟩ := List.mem_map.mp hc
  obtain ⟨d, hd, rfl⟩ := Digits.fixed_mem hb hx
  exact isAlphanum_digitByte (Nat.lt_of_lt_of_le hd hb')

theorem not_mem_ascii_padded (hb : 0 < base) (hb' : base ≤ 16)
    (hc : c.isAlphanum = false) : c ∉ (Utf8.ascii (Digits.padded base w n)).toList := by
  intro hmem
  rw [ascii_padded_chars hb hb' c hmem] at hc
  cases hc

theorem ascii_padded_inj {n' : Nat} (hb : 1 < base) (hb' : base ≤ 16)
    (h : (Utf8.ascii (Digits.padded base w n)).toList =
      (Utf8.ascii (Digits.padded base w n')).toList) : n = n' := by
  have hascii : ∀ n, ∀ x ∈ Digits.padded base w n, x.toNat < 128 := fun n x hx =>
    Digits.fixed_ascii (Nat.lt_of_succ_lt hb) hb' hx
  have hbytes := congrArg String.utf8 (toList_inj.mp h)
  rw [Utf8.utf8_ascii (hascii n), Utf8.utf8_ascii (hascii n')] at hbytes
  exact Digits.padded_inj hb hb' hbytes

theorem toList_inlineText (length readBytes : Nat) (checksum : UInt32) :
    (inlineText length readBytes checksum).toList =
      (Utf8.ascii (Digits.padded 10 1 length)).toList ++
        '/' :: ((Utf8.ascii (Digits.padded 10 1 readBytes)).toList ++
          '@' :: (Utf8.ascii (Digits.padded 16 8 checksum.toNat)).toList) := by
  have hslash : "/".toList = ['/'] := rfl
  have hat : "@".toList = ['@'] := rfl
  rw [inlineText]
  simp only [toList_append, List.append_assoc, hslash, hat, List.cons_append,
    List.nil_append]

theorem inlineText_inj {length' readBytes' : Nat} {checksum' : UInt32}
    (h : inlineText length readBytes checksum = inlineText length' readBytes' checksum') :
    length = length' ∧ readBytes = readBytes' ∧ checksum = checksum' := by
  have hlists := congrArg String.toList h
  have hslash : ∀ n, '/' ∉ (Utf8.ascii (Digits.padded 10 1 n)).toList := fun n =>
    not_mem_ascii_padded (by decide) (by decide) (by decide)
  have hat : ∀ n, '@' ∉ (Utf8.ascii (Digits.padded 10 1 n)).toList := fun n =>
    not_mem_ascii_padded (by decide) (by decide) (by decide)
  rw [toList_inlineText, toList_inlineText, Separators.append_cons_inj (hslash _) (hslash _),
    Separators.append_cons_inj (hat _) (hat _)] at hlists
  obtain ⟨hlength, hread, hchecksum⟩ := hlists
  exact ⟨ascii_padded_inj (by decide) (by decide) hlength,
    ascii_padded_inj (by decide) (by decide) hread,
    UInt32.toNat_inj.mp (ascii_padded_inj (by decide) (by decide) hchecksum)⟩

theorem inlineText_ne_external
    {blobIdentifier : String} : inlineText length readBytes checksum ≠ "external:" ++ blobIdentifier := by
  intro h
  have hlists := congrArg String.toList h
  have hcolon : ':' ∈ (inlineText length readBytes checksum).toList := by
    rw [hlists, toList_append]
    exact List.mem_append_left _ (by decide)
  have hnot : ∀ base w n, 0 < base → base ≤ 16 →
      ':' ∉ (Utf8.ascii (Digits.padded base w n)).toList := fun base w n hb hb' =>
    not_mem_ascii_padded hb hb' (by decide)
  rw [toList_inlineText, List.mem_append, List.mem_cons, List.mem_append, List.mem_cons] at hcolon
  rcases hcolon with hc | hc | hc | hc | hc
  · exact hnot 10 1 _ (by decide) (by decide) hc
  · exact absurd hc (by decide)
  · exact hnot 10 1 _ (by decide) (by decide) hc
  · exact absurd hc (by decide)
  · exact hnot 16 8 _ (by decide) (by decide) hc

theorem inlineText_ne_empty :
    inlineText length readBytes checksum ≠ "" := by
  intro h
  have hlists := congrArg String.toList h
  rw [toList_inlineText] at hlists
  exact absurd (List.append_eq_nil_iff.mp hlists).2 (List.cons_ne_nil _ _)

/-- Values of one type that are written in one way are equal. -/
theorem DigestValue.shown_inj {value' : DigestValue} {propertyType : PropertyType}
    (h : value.HasType propertyType) (h' : value'.HasType propertyType)
    (heq : value.shown = value'.shown) : value = value' := by
  cases value with
  | inline length readBytes checksum =>
    cases value' with
    | inline length' readBytes' checksum' =>
      obtain ⟨rfl, rfl, rfl⟩ := inlineText_inj heq
      rfl
    | external blobIdentifier => exact absurd heq inlineText_ne_external
    | text content => exact absurd h h'
  | external blobIdentifier =>
    cases value' with
    | inline length readBytes checksum => exact absurd heq.symm inlineText_ne_external
    | external blobIdentifier' =>
      have hlists := congrArg String.toList heq
      rw [DigestValue.shown, DigestValue.shown, toList_append, toList_append,
        List.append_right_inj, toList_inj] at hlists
      rw [hlists]
    | text content => exact absurd h h'
  | text content =>
    cases value' with
    | inline length readBytes checksum => exact absurd h' h
    | external blobIdentifier => exact absurd h' h
    | text content' =>
      obtain rfl : content = content' := heq
      rfl

theorem DigestValue.shown_eq_empty (h : value.shown = "") :
    value = .text "" := by
  cases value with
  | inline length readBytes checksum => exact absurd h inlineText_ne_empty
  | external blobIdentifier =>
    have hlists := congrArg String.toList h
    rw [DigestValue.shown, toList_append] at hlists
    exact absurd (List.append_eq_nil_iff.mp hlists).1 (by decide)
  | text content =>
    obtain rfl : content = "" := h
    rfl

/-! ## Properties -/

/-- A property as a line shows it. -/
@[ext]
structure DigestProperty where
  name : String
  propertyType : PropertyType
  multiple : Bool
  values : List DigestValue
  typed : ∀ value ∈ values, value.HasType propertyType

namespace DigestProperty

variable (p : DigestProperty)

def texts : List String := p.values.map DigestValue.shown

def mark : List Char := (marker p.propertyType p.multiple).toList

end DigestProperty

/-- Escaped texts with the separator of values between them. -/
def joined (texts : List String) : List Char :=
  [valueSeparator].intercalate (texts.map escaped)

theorem joined_cons (text : String) (texts : List String) :
    joined (text :: texts) = escaped text ++ separated valueSeparator (texts.map escaped) := by
  rw [joined, List.map_cons, intercalate_cons]

/-- A property as it is written, behind its tab. -/
def segment (p : DigestProperty) : List Char :=
  escaped p.name ++ '=' :: (p.mark ++ ':' :: joined p.texts)

/-- Two properties that differ in that one has no values and the other a single empty text. -/
def EmptyAlike (p q : DigestProperty) : Prop :=
  p.name = q.name ∧ p.propertyType = q.propertyType ∧ p.multiple = q.multiple ∧
    (p.values = [] ∧ q.values = [.text ""] ∨ p.values = [.text ""] ∧ q.values = [])

/-- The name of the second property goes on, behind the name of the first one, with the marker of
the first one and the start of its first value.  That value goes on with the marker of the second
property and its values. -/
def Shifted (p q : DigestProperty) : Prop :=
  ∃ start : String,
    q.name = p.name ++ "=" ++ marker p.propertyType p.multiple ++ ":" ++ start ∧
    p.texts = (start ++ "=" ++ marker q.propertyType q.multiple ++ ":" ++ q.texts.headD "") ::
      q.texts.tail

/-- Two properties that are written in one way. -/
def Alike (p q : DigestProperty) : Prop := p = q ∨ EmptyAlike p q ∨ Shifted p q ∨ Shifted q p

/-! ## Which properties are written in one way -/

theorem valueSeparator_not_mem_escaped (text : String) : valueSeparator ∉ escaped text :=
  fun h => escaped_not_reserved h (.inr (.inr (.inr rfl)))

theorem valueSeparator_not_mem_map_escaped (texts : List String) :
    ∀ piece ∈ texts.map escaped, valueSeparator ∉ piece := by
  intro piece hpiece
  obtain ⟨text, -, rfl⟩ := List.mem_map.mp hpiece
  exact valueSeparator_not_mem_escaped text

theorem map_escaped_inj {texts : List String} :
    texts.map escaped = texts'.map escaped ↔ texts = texts' :=
  (List.map_injective_iff.mpr fun _ _ h => escaped_inj.mp h).eq_iff

theorem joined_cons_inj {text' : String} {texts : List String} :
    joined (text :: texts) = joined (text' :: texts') ↔ text = text' ∧ texts = texts' := by
  rw [joined_cons, joined_cons, append_separated_inj (valueSeparator_not_mem_escaped _)
    (valueSeparator_not_mem_escaped _) (valueSeparator_not_mem_map_escaped _)
    (valueSeparator_not_mem_map_escaped _), escaped_inj, map_escaped_inj]

theorem joined_eq_nil_iff {texts : List String} : joined texts = [] ↔ texts = [] ∨ texts = [""] := by
  cases texts with
  | nil => exact iff_of_true rfl (.inl rfl)
  | cons text texts =>
    have hempty : joined [""] = [] := rfl
    rw [← hempty, joined_cons_inj, List.cons.injEq]
    exact ⟨.inr, fun h => h.resolve_left (List.cons_ne_nil _ _)⟩

theorem joined_eq_iff {texts : List String} :
    joined texts = joined texts' ↔
      texts = texts' ∨ texts = [] ∧ texts' = [""] ∨ texts = [""] ∧ texts' = [] := by
  cases texts with
  | nil =>
    rw [eq_comm (a := joined []), show joined [] = [] from rfl, joined_eq_nil_iff]
    constructor
    · rintro (rfl | rfl)
      · exact .inl rfl
      · exact .inr (.inl ⟨rfl, rfl⟩)
    · rintro (rfl | ⟨-, rfl⟩ | ⟨h, -⟩)
      · exact .inl rfl
      · exact .inr rfl
      · cases h
  | cons text texts =>
    cases texts' with
    | nil =>
      rw [show joined [] = [] from rfl, joined_eq_nil_iff]
      constructor
      · rintro (h | h)
        · cases h
        · exact .inr (.inr ⟨h, rfl⟩)
      · rintro (h | ⟨h, -⟩ | ⟨h, -⟩)
        · cases h
        · cases h
        · exact .inr h
    | cons text' texts' =>
      rw [joined_cons_inj, ← List.cons.injEq]
      constructor
      · exact .inl
      · rintro (h | ⟨h, -⟩ | ⟨-, h⟩)
        · exact h
        · cases h
        · cases h

/-- Texts that are joined to what begins with an escaped text and goes on with joined ones. -/
theorem joined_eq_append_iff {texts : List String} {start : String} (h : start ≠ "") :
    joined texts = escaped start ++ joined texts' ↔
      texts = (start ++ texts'.headD "") :: texts'.tail := by
  have hright : escaped start ++ joined texts' =
      joined ((start ++ texts'.headD "") :: texts'.tail) := by
    cases texts' with
    | nil =>
      rw [List.headD_nil, append_empty, joined_cons]
      rfl
    | cons text' texts' =>
      rw [List.headD_cons, List.tail_cons, joined_cons, joined_cons, escaped_append,
        List.append_assoc]
  rw [hright, joined_eq_iff]
  constructor
  · rintro (htexts | ⟨-, htexts⟩ | ⟨-, htexts⟩)
    · exact htexts
    · have hlists := congrArg String.toList (List.cons.inj htexts).1
      rw [toList_append] at hlists
      exact absurd (String.toList_eq_nil_iff.mp (List.append_eq_nil_iff.mp hlists).1) h
    · cases htexts
  · exact .inl

/-- What follows the name and its equals sign. -/
def behindName (p : DigestProperty) : List Char := p.mark ++ ':' :: joined p.texts

theorem segment_eq (p : DigestProperty) : segment p = escaped p.name ++ '=' :: behindName p := rfl

section

variable {p : DigestProperty}

theorem behindName_eq_iff :
    behindName p = behindName q ↔
      p.propertyType = q.propertyType ∧ p.multiple = q.multiple ∧ joined p.texts = joined q.texts := by
  rw [behindName, behindName, DigestProperty.mark, DigestProperty.mark,
    Separators.append_cons_inj (not_mem_marker (by decide) _ _) (not_mem_marker (by decide) _ _),
    toList_inj]
  constructor
  · rintro ⟨hmarker, htexts⟩
    obtain ⟨htype, hmultiple⟩ := marker_inj hmarker
    exact ⟨htype, hmultiple, htexts⟩
  · rintro ⟨htype, hmultiple, htexts⟩
    rw [htype, hmultiple]
    exact ⟨rfl, htexts⟩

theorem values_eq_of_texts (htype : p.propertyType = q.propertyType)
    (h : p.texts = q.texts) : p.values = q.values := by
  have hvalues : ∀ values values' : List DigestValue,
      (∀ value ∈ values, value.HasType q.propertyType) →
      (∀ value ∈ values', value.HasType q.propertyType) →
      values.map DigestValue.shown = values'.map DigestValue.shown → values = values' := by
    intro values
    induction values with
    | nil => exact fun values' _ _ heq => (List.map_eq_nil_iff.mp heq.symm).symm
    | cons value values ih =>
      intro values' htyped htyped' heq
      cases values' with
      | nil => cases heq
      | cons value' values' =>
        obtain ⟨hfirst, hrest⟩ := List.cons.inj heq
        rw [DigestValue.shown_inj (htyped value List.mem_cons_self)
            (htyped' value' List.mem_cons_self) hfirst,
          ih values' (fun other hother => htyped other (List.mem_cons_of_mem _ hother))
            (fun other hother => htyped' other (List.mem_cons_of_mem _ hother)) hrest]
  exact hvalues _ _ (htype ▸ p.typed) q.typed h

theorem values_of_texts_empty (h : p.texts = [""]) :
    p.values = [.text ""] := by
  obtain ⟨value, hvalue, hshown⟩ := List.map_eq_singleton_iff.mp h
  rw [hvalue, DigestValue.shown_eq_empty hshown]

/-- Names and the rest are cut at the first `=`, or one name goes on. -/
theorem segment_cut (h : segment p = segment q) :
    (p.name = q.name ∧ behindName p = behindName q) ∨
      (∃ later, q.name = p.name ++ "=" ++ later ∧
        behindName p = escaped later ++ '=' :: behindName q) ∨
      ∃ later, p.name = q.name ++ "=" ++ later ∧
        behindName q = escaped later ++ '=' :: behindName p := by
  have hgoesOn : ∀ {p q : DigestProperty} {e : List Char}, escaped q.name = escaped p.name ++ e →
      '=' :: behindName p = e ++ '=' :: behindName q →
      (p.name = q.name ∧ behindName p = behindName q) ∨
        ∃ later, q.name = p.name ++ "=" ++ later ∧
          behindName p = escaped later ++ '=' :: behindName q := by
    intro p q e hname hbehind
    cases e with
    | nil =>
      rw [List.append_nil] at hname
      exact .inl ⟨(escaped_inj.mp hname).symm, (List.cons.inj hbehind).2⟩
    | cons c e =>
      obtain ⟨rfl, hrest⟩ := List.cons.inj hbehind
      obtain ⟨later, hlater, hescaped⟩ := exists_of_escaped_eq_append hname
      obtain ⟨more, rfl, rfl⟩ := @exists_of_escaped_eq_append "=" _ e hescaped.symm
      exact .inr ⟨more, by rw [hlater, append_assoc], hrest⟩
  rw [segment_eq, segment_eq] at h
  rcases List.append_eq_append_iff.mp h with ⟨e, hname, hbehind⟩ | ⟨e, hname, hbehind⟩
  · rcases hgoesOn hname hbehind with hsame | hlater
    · exact .inl hsame
    · exact .inr (.inl hlater)
  · rcases hgoesOn hname hbehind with ⟨hsame, hrest⟩ | hlater
    · exact .inl ⟨hsame.symm, hrest.symm⟩
    · exact .inr (.inr hlater)

/-- A name that goes on does so with the marker of the other property. -/
theorem behindName_eq_append_iff {later : String} :
    behindName p = escaped later ++ '=' :: behindName q ↔
      ∃ start : String, later = marker p.propertyType p.multiple ++ ":" ++ start ∧
        p.texts = (start ++ "=" ++ marker q.propertyType q.multiple ++ ":" ++ q.texts.headD "") ::
          q.texts.tail := by
  have hvalues : ∀ start : String,
      escaped start ++ '=' :: behindName q =
        escaped (start ++ "=" ++ marker q.propertyType q.multiple ++ ":") ++ joined q.texts := by
    intro start
    rw [behindName, DigestProperty.mark, escaped_append, escaped_append, escaped_append,
      escaped_marker]
    simp only [List.append_assoc]
    rfl
  have hne : ∀ start : String, start ++ "=" ++ marker q.propertyType q.multiple ++ ":" ≠ "" := by
    intro start heq
    have hlists := congrArg String.toList heq
    rw [toList_append] at hlists
    exact absurd (List.append_eq_nil_iff.mp hlists).2 (by decide)
  constructor
  · intro h
    rcases List.append_eq_append_iff.mp h with ⟨e, hmark, hbehind⟩ | ⟨e, hmark, hbehind⟩
    · cases e with
      | nil => exact absurd (List.cons.inj hbehind).1 (by decide)
      | cons c e =>
        obtain ⟨rfl, htexts⟩ := List.cons.inj hbehind
        rw [DigestProperty.mark, ← escaped_marker] at hmark
        obtain ⟨more, rfl, hmore⟩ := exists_of_escaped_eq_append hmark
        obtain ⟨start, rfl, rfl⟩ := @exists_of_escaped_eq_append ":" _ e hmore.symm
        rw [List.append_eq, hvalues, joined_eq_append_iff (hne start)] at htexts
        exact ⟨start, by rw [append_assoc], htexts⟩
    · cases e with
      | nil => exact absurd (List.cons.inj hbehind).1 (by decide)
      | cons c e =>
        obtain ⟨rfl, -⟩ := List.cons.inj hbehind
        have hmem : '=' ∈ p.mark := by
          rw [hmark]
          exact List.mem_append_right _ List.mem_cons_self
        exact absurd hmem (not_mem_marker (by decide) _ _)
  · rintro ⟨start, rfl, htexts⟩
    rw [behindName, (joined_eq_append_iff (hne start)).mpr htexts, ← hvalues, escaped_append,
      escaped_append, escaped_marker, DigestProperty.mark]
    simp only [List.append_assoc]
    rfl

theorem shifted_iff :
    Shifted p q ↔ ∃ later, q.name = p.name ++ "=" ++ later ∧
      behindName p = escaped later ++ '=' :: behindName q := by
  constructor
  · rintro ⟨start, hname, htexts⟩
    refine ⟨marker p.propertyType p.multiple ++ ":" ++ start, ?_,
      behindName_eq_append_iff.mpr ⟨start, rfl, htexts⟩⟩
    rw [hname]
    simp only [append_assoc]
  · rintro ⟨later, hname, hbehind⟩
    obtain ⟨start, rfl, htexts⟩ := behindName_eq_append_iff.mp hbehind
    refine ⟨start, ?_, htexts⟩
    rw [hname]
    simp only [append_assoc]

theorem segment_eq_of_shifted (h : Shifted p q) : segment p = segment q := by
  obtain ⟨later, hname, hbehind⟩ := shifted_iff.mp h
  rw [segment_eq, segment_eq, hbehind, hname, escaped_append, escaped_append]
  simp only [List.append_assoc]
  rfl

/-- Which properties are written in one way. -/
theorem segment_eq_iff : segment p = segment q ↔ Alike p q := by
  constructor
  · intro h
    rcases segment_cut h with ⟨hname, hbehind⟩ | hshifted | hshifted
    · obtain ⟨htype, hmultiple, htexts⟩ := behindName_eq_iff.mp hbehind
      rcases joined_eq_iff.mp htexts with htexts | ⟨hnone, hempty⟩ | ⟨hempty, hnone⟩
      · exact .inl (DigestProperty.ext hname htype hmultiple (values_eq_of_texts htype htexts))
      · exact .inr (.inl ⟨hname, htype, hmultiple,
          .inl ⟨List.map_eq_nil_iff.mp hnone, values_of_texts_empty hempty⟩⟩)
      · exact .inr (.inl ⟨hname, htype, hmultiple,
          .inr ⟨values_of_texts_empty hempty, List.map_eq_nil_iff.mp hnone⟩⟩)
    · exact .inr (.inr (.inl (shifted_iff.mpr hshifted)))
    · exact .inr (.inr (.inr (shifted_iff.mpr hshifted)))
  · rintro (rfl | ⟨hname, htype, hmultiple, hvalues⟩ | hshifted | hshifted)
    · rfl
    · have hjoined : joined p.texts = joined q.texts := by
        rw [DigestProperty.texts, DigestProperty.texts]
        rcases hvalues with ⟨hp, hq⟩ | ⟨hp, hq⟩
        · rw [hp, hq]
          rfl
        · rw [hp, hq]
          rfl
      rw [segment_eq, segment_eq, hname, behindName_eq_iff.mpr ⟨htype, hmultiple, hjoined⟩]
    · exact segment_eq_of_shifted hshifted
    · exact (segment_eq_of_shifted hshifted).symm

end

end Froe
