import Froe.Content.PropertyTypes
import Froe.Index.DefinitionsTokens
import Mathlib.Data.Bool.AllAny
import Mathlib.Data.List.DropRight

/-!
# Round trip of index definitions

What is rendered of a definition reads back: the names, types, arities and values of the
properties and the names of the children, down to the depth that the reader accepts.  A
rendering past the size that the reader accepts is refused.
-/

namespace Froe

open Utf16 (charUtf16 encodeUtf16)

open NodeState (appendNode)

open TextLength (parseMember parseMembers parseNode parseValues)

open List (append_assoc cons_append mem_append mem_cons mem_cons_of_mem mem_cons_self mem_map
  mem_singleton)

open Loops
open Utf8 (utf8_append)

/-! ## Values -/

/-- The digits of a finite number are those of a decimal fraction with an exponent. -/
def FloatingPoint.RendersDigits (f : FloatingPoint) : Prop :=
  ∀ value, f.isNan value = false → f.isInfinite value = false → f.isZero value = false →
    ∃ mantissa exponentText exponent, (f.scientific value).toList = mantissa ++ 'e' :: exponentText ∧
      (∀ c ∈ mantissa, c.isDigit = true ∨ c = '.') ∧
      parseDecimal (String.ofList exponentText).utf8 = some exponent

section Values

variable {f : FloatingPoint} (provider : SegmentProvider) (options : RenderOptions)

/-- The text that stands for a value: the content of a binary in base 64, and the text form
of any other value. -/
def ValueText : PropertyValue f → String → Prop
  | .binary (.inline _ recordIdentifier), text =>
    ∃ content, readBinaryContent provider recordIdentifier = .ok content ∧ text = base64 content
  | .binary (.external _), _ => False
  | value, text => value.asText = some text

/-- A value that can be rendered.  Of the binaries these are the inline ones below the limit. -/
def ExportableValue : PropertyValue f → Prop
  | .binary (.inline length recordIdentifier) =>
    length < options.maximumBlobSize ∧
      ∃ content, readBinaryContent provider recordIdentifier = .ok content
  | .binary (.external _) => False
  | _ => True

variable {digits : List Char} {text written indent : String} {propertyType : PropertyType}
  {texts : List String} {blanks : Bytes} {depth : Nat} {α : Type}

section

variable (h : ∀ c ∈ digits, isNumberChar c = true) (exponent : Int)
include h

theorem plainDecimal_number :
    (∀ c ∈ plainDecimal digits exponent, isNumberChar c = true) ∧
      '.' ∈ plainDecimal digits exponent := by
  have hzeros : ∀ count, ∀ c ∈ List.replicate count '0', isNumberChar c = true := by
    intro count c hc
    rw [List.eq_of_mem_replicate hc]
    decide
  rw [plainDecimal]
  split
  · refine ⟨?_, by simp⟩
    simp only [cons_append, List.forall_mem_cons]
    refine ⟨by decide, by decide, fun c hc => ?_⟩
    rcases mem_append.mp hc with hc | hc
    · exact hzeros _ c hc
    · exact h c hc
  · split
    · refine ⟨fun c hc => ?_, by simp⟩
      rw [mem_append, mem_append] at hc
      rcases hc with (hc | hc) | hc
      · exact h c hc
      · exact hzeros _ c hc
      · have hpoint : ∀ c ∈ ['.', '0'], isNumberChar c = true := List.all_eq_true.mp (by decide)
        exact hpoint c hc
    · refine ⟨fun c hc => ?_, by simp⟩
      rw [mem_append, mem_cons] at hc
      rcases hc with hc | rfl | hc
      · exact h c (List.mem_of_mem_take hc)
      · decide
      · exact h c (List.mem_of_mem_drop hc)

theorem scientificDecimal_number :
    (∀ c ∈ scientificDecimal digits exponent, isNumberChar c = true) ∧
      '.' ∈ scientificDecimal digits exponent := by
  rw [scientificDecimal]
  refine ⟨fun c hc => ?_, by simp⟩
  rw [mem_append, mem_append, mem_cons, mem_cons] at hc
  rcases hc with (hc | rfl | hc) | rfl | hc
  · exact h c (List.mem_of_mem_take hc)
  · decide
  · split at hc
    · rw [mem_singleton.mp hc]
      decide
    · exact h c (List.mem_of_mem_drop hc)
  · decide
  · rcases decimalText_chars exponent c hc with hdigit | rfl
    · rw [isNumberChar, hdigit]
      rfl
    · decide

end

/-- A finite number is written as a decimal fraction. -/
theorem doubleToText_number (hf : f.RendersDigits) {value : f.Double}
    (hnan : f.isNan value = false) (hinfinite : f.isInfinite value = false) :
    ∃ chars, doubleToText f value = String.ofList chars ∧
      (∀ c ∈ chars, isNumberChar c = true) ∧ '.' ∈ chars := by
  have hdigit : ∀ c : Char, c.isDigit = true ∨ c = '-' → isNumberChar c = true := by
    intro c hc
    rcases hc with hc | rfl
    · rw [isNumberChar, hc]
      rfl
    · decide
  rw [doubleToText, if_neg (by rw [hnan]; decide), if_neg (by rw [hinfinite]; decide)]
  split
  · split
    · exact ⟨['-', '0', '.', '0'], rfl, List.all_eq_true.mp (by decide), by decide⟩
    · exact ⟨['0', '.', '0'], rfl, List.all_eq_true.mp (by decide), by decide⟩
  · rename_i hzero
    rw [Bool.not_eq_true] at hzero
    obtain ⟨mantissa, exponentText, exponent, hscientific, hmantissa, hexponent⟩ :=
      hf value hnan hinfinite hzero
    have hnot : 'e' ∉ mantissa := by
      intro he
      rcases hmantissa 'e' he with h | h
      · cases h
      · cases h
    have hsplit : splitOnce 'e' (f.scientific value).toList = some (mantissa, exponentText) := by
      have hall : ∀ c ∈ mantissa, decide (c ≠ 'e') = true := by
        intro c hc
        rw [decide_eq_true_eq]
        rintro rfl
        exact hnot hc
      rw [hscientific, splitOnce, if_pos (by simp), List.takeWhile_append_of_pos hall,
        List.dropWhile_append_of_pos hall]
      simp
    have hdigits : ∀ c ∈ mantissa.filter (· ≠ '.'), isNumberChar c = true := by
      intro c hc
      rw [List.mem_filter, decide_eq_true_eq] at hc
      exact hdigit c ((hmantissa c hc.1).imp_right fun h => absurd h hc.2)
    rw [hsplit]
    simp only [hexponent]
    generalize hrendered : (if -3 ≤ exponent ∧ exponent < 7 then
      plainDecimal (mantissa.filter (· ≠ '.')) exponent
      else scientificDecimal (mantissa.filter (· ≠ '.')) exponent) = rendered
    have hall : (∀ c ∈ rendered, isNumberChar c = true) ∧ '.' ∈ rendered := by
      rw [← hrendered]
      split
      · exact plainDecimal_number hdigits exponent
      · exact scientificDecimal_number hdigits exponent
    refine ⟨_, rfl, ?_, ?_⟩
    · split
      · rw [List.forall_mem_cons]
        exact ⟨by decide, hall.1⟩
      · exact hall.1
    · split
      · exact mem_cons_of_mem _ hall.2
      · exact hall.2

/-- A written value reads back as a value of a type, alone and as a property. -/
structure ReadsScalar (written : String) (propertyType : PropertyType) (text : String) : Prop where
  head : ∃ x tail, written.utf8 = x :: tail ∧ isAsciiWhitespace x = false ∧ x ≠ 93 ∧ x ≠ 123
  scalar : ∀ total rest, EndsNumber rest →
    parseScalar total (written.utf8 ++ rest) = pure (propertyType, text, rest)
  property : ∀ total rest, EndsNumber rest →
    parseProperty total (written.utf8 ++ rest) = pure (⟨propertyType, [text], false⟩, rest)

theorem utf8_appendString (text : String) : ∃ tail, (appendString text).utf8 = 34 :: tail := by
  rw [appendString]
  simp only [utf8_append]
  exact ⟨_, rfl⟩

/-- A quoted text that is no mark of an empty array. -/
theorem readsScalar_quoted {raw : String}
    (hmark : stripText "[0]:" raw = none) (hsplit : splitTypeCode raw = (propertyType, text)) :
    ReadsScalar (appendString raw) propertyType text := by
  obtain ⟨tail, htail⟩ := utf8_appendString raw
  refine ⟨⟨34, tail, htail, by decide, by decide, by decide⟩, ?_, ?_⟩
  · intro total rest _
    have hread := parseString_appendString total raw rest
    rw [htail, cons_append] at hread ⊢
    rw [parseScalar, if_pos (show (34 :: (tail ++ rest)).head? = some 34 from rfl), hread, pure_bind]
    simp only [hsplit]
  · intro total rest _
    have hread := parseString_appendString total raw rest
    rw [htail, cons_append] at hread ⊢
    rw [parseProperty, if_neg (by simp),
      if_pos (show (34 :: (tail ++ rest)).head? = some 34 from rfl), hread, pure_bind]
    simp only [hmark, hsplit]

/-- A value without quotes. -/
theorem readsScalar_unquoted {x : UInt8}
    {tail : Bytes} (hwritten : written.utf8 = x :: tail) (hblank : isAsciiWhitespace x = false)
    (hx : x ≠ 34 ∧ x ≠ 91 ∧ x ≠ 93 ∧ x ≠ 123) (hscalar : ∀ total rest, EndsNumber rest →
      parseScalar total (written.utf8 ++ rest) = pure (propertyType, text, rest)) :
    ReadsScalar written propertyType text := by
  refine ⟨⟨x, tail, hwritten, hblank, hx.2.2⟩, hscalar, ?_⟩
  intro total rest hrest
  have hread := hscalar total rest hrest
  rw [hwritten, cons_append] at hread ⊢
  rw [parseProperty, if_neg (by simpa using hx.2.1), if_neg (by simpa using hx.1), hread, pure_bind]

theorem readsScalar_boolean (truth : Bool) :
    ReadsScalar (if truth then "true" else "false") .boolean (if truth then "true" else "false") := by
  cases truth with
  | true =>
    have hbytes : "true".utf8 = [116, 114, 117, 101] := by decide
    refine readsScalar_unquoted hbytes (by decide) (by decide) fun total rest _ => ?_
    rw [if_pos rfl, parseScalar, if_neg (by simp [hbytes]), if_pos (by simp [hbytes]), expectLiteral,
      if_pos (List.isPrefixOf_iff_prefix.mpr (List.prefix_append _ _)), List.drop_left]
    rfl
  | false =>
    have hbytes : "false".utf8 = [102, 97, 108, 115, 101] := by decide
    refine readsScalar_unquoted hbytes (by decide) (by decide) fun total rest _ => ?_
    rw [if_neg Bool.false_ne_true, parseScalar, if_neg (by simp [hbytes]),
      if_neg (by simp [hbytes]), if_pos (by simp [hbytes]), expectLiteral,
      if_pos (List.isPrefixOf_iff_prefix.mpr (List.prefix_append _ _)), List.drop_left]
    rfl

/-- A number is a double when it has a point. -/
theorem readsScalar_number (text : String) (hnumber : ∀ x ∈ text.utf8, isNumberByte x = true)
    (hne : text.utf8 ≠ []) :
    ReadsScalar text
      (if 46 ∈ text.utf8 ∨ 101 ∈ text.utf8 ∨ 69 ∈ text.utf8 then .double else .long) text := by
  obtain ⟨x, tail, hcons⟩ := List.exists_cons_of_ne_nil hne
  have hx : isNumberByte x = true := hnumber x (by rw [hcons]; exact mem_cons_self ..)
  have hall : ∀ n : Fin 256, isNumberByte (UInt8.ofNat n) = true →
      isAsciiWhitespace (UInt8.ofNat n) = false ∧ UInt8.ofNat n ≠ 34 ∧ UInt8.ofNat n ≠ 91 ∧
        UInt8.ofNat n ≠ 93 ∧ UInt8.ofNat n ≠ 123 ∧ UInt8.ofNat n ≠ 116 ∧ UInt8.ofNat n ≠ 102 := by
    decide +kernel
  have hother := hall ⟨x.toNat, x.toNat_lt⟩ (by rw [UInt8.ofNat_toNat]; exact hx)
  simp only [UInt8.ofNat_toNat] at hother
  obtain ⟨hblank, h34, h91, h93, h123, h116, h102⟩ := hother
  refine readsScalar_unquoted hcons hblank ⟨h34, h91, h93, h123⟩ fun total rest hrest => ?_
  have hhead : (text.utf8 ++ rest).head? = some x := by
    rw [hcons]
    rfl
  rw [parseScalar, hhead, if_neg (by simpa using h34), if_neg (by simpa using h116),
    if_neg (by simpa using h102), parseNumber_text total hnumber hne hrest]
  rfl

/-- A text of a type behind its code, or a string without one. -/
theorem readsScalar_text (hbinary : propertyType ≠ .binary)
    (text : String) : ReadsScalar (appendText propertyType text) propertyType text := by
  rw [appendText]
  split
  · rename_i hplain
    rw [hplain.1]
    exact readsScalar_quoted (stripText_plain hplain.2) (splitTypeCode_plain hplain.2)
  · rw [typeCode, if_neg hbinary]
    exact readsScalar_quoted (stripText_code (isCode_shortName propertyType) text)
      (splitTypeCode_shortName propertyType text)

theorem readsScalar_long (number : Int64) :
    ReadsScalar (longToText number) .long (longToText number) := by
  have hchars := decimalText_chars number.toInt
  have hnumber : ∀ c ∈ (longToText number).toList, isNumberChar c = true := by
    intro c hc
    rcases hchars c hc with h | rfl
    · rw [isNumberChar, h]
      rfl
    · decide
  have hbytes : (longToText number).utf8 =
      (longToText number).toList.map fun c => UInt8.ofNat c.toNat := by
    conv_lhs => rw [← String.ofList_toList (s := longToText number)]
    exact utf8_number hnumber
  have hascii : ∀ c : Char, isNumberChar c = true → ∀ n : Nat, n < 128 →
      UInt8.ofNat c.toNat = UInt8.ofNat n → c = Char.ofNat n := by
    intro c hc n hn heq
    have hcode := congrArg UInt8.toNat heq
    have hsmall := isNumberChar_lt hc
    rw [UInt8.toNat_ofNat', UInt8.toNat_ofNat', Nat.mod_eq_of_lt (by omega),
      Nat.mod_eq_of_lt (by omega)] at hcode
    rw [← hcode, Char.ofNat_toNat]
  have hnone : ∀ n : Nat, n < 128 → (Char.ofNat n).isDigit = false → Char.ofNat n ≠ '-' →
      UInt8.ofNat n ∉ (longToText number).utf8 := by
    intro n hn hdigit hsign hin
    rw [hbytes, mem_map] at hin
    obtain ⟨c, hc, heq⟩ := hin
    obtain rfl := hascii c (hnumber c hc) n hn heq
    rcases hchars _ hc with h | h
    · rw [h] at hdigit
      cases hdigit
    · exact hsign h
  have hread := readsScalar_number (longToText number) (by
    intro x hx
    rw [hbytes, mem_map] at hx
    obtain ⟨c, hc, rfl⟩ := hx
    exact isNumberByte_number (hnumber c hc)) (by
    intro hnil
    have hlength : (decimalBytes number.toInt).length = 0 := by
      have := congrArg List.length hnil
      rw [hbytes, List.length_map, longToText, Utf8.ascii, String.toList_ofList,
        List.length_map] at this
      exact this
    rw [decimalBytes] at hlength
    split at hlength
    · cases hlength
    · rw [Digits.padded, Digits.length_fixed] at hlength
      omega)
  rw [if_neg] at hread
  · exact hread
  · rw [not_or, not_or]
    exact ⟨hnone 46 (by decide) (by decide) (by decide),
      hnone 101 (by decide) (by decide) (by decide), hnone 69 (by decide) (by decide) (by decide)⟩

theorem readsScalar_double (hf : f.RendersDigits) {value : f.Double}
    (hnan : f.isNan value = false) (hinfinite : f.isInfinite value = false) :
    ReadsScalar (doubleToText f value) .double (doubleToText f value) := by
  obtain ⟨chars, htext, hnumber, hpoint⟩ := doubleToText_number hf hnan hinfinite
  have hbytes : (doubleToText f value).utf8 = chars.map fun c => UInt8.ofNat c.toNat := by
    rw [htext]
    exact utf8_number hnumber
  have hin : (46 : UInt8) ∈ (doubleToText f value).utf8 := by
    rw [hbytes]
    exact List.mem_map_of_mem (f := fun c : Char => UInt8.ofNat c.toNat) hpoint
  have hread := readsScalar_number (doubleToText f value) (by
    intro x hx
    rw [hbytes, mem_map] at hx
    obtain ⟨c, hc, rfl⟩ := hx
    exact isNumberByte_number (hnumber c hc)) (List.ne_nil_of_mem hin)
  rw [if_pos (.inl hin)] at hread
  exact hread

/-- A value that can be rendered reads back with its type and its text. -/
theorem appendValue_reads (hf : f.RendersDigits) {value : PropertyValue f}
    (hvalue : ExportableValue provider options value) :
    ∃ written text,
      appendValue f provider options value.propertyType value = .ok written ∧
        ValueText provider value text ∧ ReadsScalar written value.propertyType text := by
  cases value with
  | string text =>
    have h : ReadsScalar (appendText .string text) .string text := readsScalar_text (by decide) text
    exact ⟨_, text, rfl, rfl, h⟩
  | binary binary =>
    cases binary with
    | external blobIdentifier => exact hvalue.elim
    | inline length recordIdentifier =>
      obtain ⟨hlength, content, hcontent⟩ := hvalue
      refine ⟨appendString (":blobId:" ++ base64 content), base64 content, ?_,
        ⟨content, hcontent, rfl⟩, readsScalar_quoted (stripText_blob _) (splitTypeCode_blob _)⟩
      rw [appendValue, encodeBlob, if_neg (by omega), hcontent]
      rfl
  | long number => exact ⟨_, _, rfl, rfl, readsScalar_long number⟩
  | double number =>
    rw [appendValue]
    split
    · refine ⟨_, doubleToText f number, rfl, rfl, ?_⟩
      have hcode : "dou:" ++ doubleToText f number =
          shortName .double ++ ":" ++ doubleToText f number := by
        have : "dou:" = shortName .double ++ ":" := by decide
        rw [this]
      rw [hcode]
      exact readsScalar_quoted (stripText_code (isCode_shortName .double) _)
        (splitTypeCode_shortName .double _)
    · rename_i hfinite
      rw [Bool.or_eq_true, not_or, Bool.not_eq_true, Bool.not_eq_true] at hfinite
      exact ⟨_, _, rfl, rfl, readsScalar_double hf hfinite.1 hfinite.2⟩
  | date text =>
    have h : ReadsScalar (appendText .date text) .date text := readsScalar_text (by decide) text
    exact ⟨_, text, rfl, rfl, h⟩
  | boolean truth => exact ⟨_, _, rfl, rfl, readsScalar_boolean truth⟩
  | name text =>
    have h : ReadsScalar (appendText .name text) .name text := readsScalar_text (by decide) text
    exact ⟨_, text, rfl, rfl, h⟩
  | path text =>
    have h : ReadsScalar (appendText .path text) .path text := readsScalar_text (by decide) text
    exact ⟨_, text, rfl, rfl, h⟩
  | reference text =>
    have h : ReadsScalar (appendText .reference text) .reference text := readsScalar_text (by decide) text
    exact ⟨_, text, rfl, rfl, h⟩
  | weakReference text =>
    have h : ReadsScalar (appendText .weakReference text) .weakReference text := readsScalar_text (by decide) text
    exact ⟨_, text, rfl, rfl, h⟩
  | uri text =>
    have h : ReadsScalar (appendText .uri text) .uri text := readsScalar_text (by decide) text
    exact ⟨_, text, rfl, rfl, h⟩
  | decimal text =>
    have h : ReadsScalar (appendText .decimal text) .decimal text := readsScalar_text (by decide) text
    exact ⟨_, text, rfl, rfl, h⟩

/-! ## Properties -/

theorem skipWhitespace_cons {x : UInt8} (h : isAsciiWhitespace x = false) (rest : Bytes) :
    skipWhitespace (x :: rest) = x :: rest :=
  List.dropWhile_cons_of_neg (by rw [h]; exact Bool.false_ne_true)

theorem ReadsScalar.skipWhitespace (h : ReadsScalar written propertyType text) (rest : Bytes) :
    skipWhitespace (written.utf8 ++ rest) = written.utf8 ++ rest := by
  obtain ⟨x, tail, hbytes, hblank, -⟩ := h.head
  rw [hbytes, cons_append]
  exact skipWhitespace_cons hblank _

/-- The values of an array read back in order. -/
theorem parseValues_join (total : Nat) {written : List String}
    (h : List.Forall₂ (fun written text => ReadsScalar written propertyType text) written texts)
    (hne : written ≠ []) (read : List String) (hblanks : blanks = [] ∨ blanks = [32])
    (rest : Bytes) :
    parseValues total read (blanks ++ ((joinValues written).utf8 ++ 93 :: rest)) =
      pure (⟨propertyType, read ++ texts, true⟩, rest) := by
  induction h generalizing read blanks with
  | nil => exact absurd rfl hne
  | @cons first text written texts hfirst hrest ih =>
    have hskip : ∀ later, skipWhitespace (blanks ++ (first.utf8 ++ later)) = first.utf8 ++ later := by
      intro later
      rcases hblanks with rfl | rfl
      · exact hfirst.skipWhitespace later
      · exact hfirst.skipWhitespace later
    cases hrest with
    | nil =>
      rw [joinValues, parseValues, hskip, hfirst.scalar total _ (endsNumber_cons (by decide) rest),
        pure_bind]
      simp only [skipWhitespace_cons (show isAsciiWhitespace 93 = false by decide)]
      rw [if_neg (by simp), if_pos (by rfl)]
      rfl
    | @cons second text' written texts hsecond hlater =>
      have hjoin : (joinValues (first :: second :: written)).utf8 ++ 93 :: rest =
          first.utf8 ++ 44 :: ([32] ++ ((joinValues (second :: written)).utf8 ++ 93 :: rest)) := by
        rw [joinValues]
        · simp only [utf8_append, append_assoc]
          rfl
        · nofun
      rw [hjoin, parseValues, hskip, hfirst.scalar total _ (endsNumber_cons (by decide) _),
        pure_bind]
      simp only [skipWhitespace_cons (show isAsciiWhitespace 44 = false by decide)]
      rw [if_pos (by rfl)]
      have hnext := ih (by simp) (read ++ [text]) (.inr rfl)
      rw [append_assoc] at hnext
      exact hnext

structure ReadsProperty (written : String) (parsed : ParsedProperty) : Prop where
  head : ∃ x tail, written.utf8 = x :: tail ∧ isAsciiWhitespace x = false ∧ x ≠ 123
  property : ∀ total rest, EndsNumber rest →
    parseProperty total (written.utf8 ++ rest) = pure (parsed, rest)

/-- What the file has of a property. -/
def DescribesProperty (property : PropertyState f) (parsed : ParsedProperty) : Prop :=
  parsed.propertyType = property.propertyType ∧
    match property.values with
    | .single value => parsed.multiple = false ∧
        ∃ text, ValueText provider value text ∧ parsed.values = [text]
    | .multiple values => parsed.multiple = true ∧
        List.Forall₂ (ValueText provider) values parsed.values

/-- The mark of an empty array reads back as one. -/
theorem readsProperty_empty (propertyType : PropertyType) :
    ReadsProperty (appendString ("[0]:" ++ propertyType.jcrName)) ⟨propertyType, [], true⟩ := by
  obtain ⟨tail, htail⟩ := utf8_appendString ("[0]:" ++ propertyType.jcrName)
  refine ⟨⟨34, tail, htail, by decide, by decide⟩, ?_⟩
  intro total rest _
  have hread := parseString_appendString total ("[0]:" ++ propertyType.jcrName) rest
  rw [htail, cons_append] at hread ⊢
  rw [parseProperty, if_neg (by simp),
    if_pos (show (34 :: (tail ++ rest)).head? = some 34 from rfl), hread, pure_bind]
  simp only [stripText_append, propertyTypeNamed_jcrName]
  rfl

theorem readsProperty_array {written : List String}
    (h : List.Forall₂ (fun written text => ReadsScalar written propertyType text) written texts)
    (htype : written = [] → propertyType = .string) :
    ReadsProperty ("[" ++ joinValues written ++ "]") ⟨propertyType, texts, true⟩ := by
  have hbytes : ("[" ++ joinValues written ++ "]").utf8 = 91 :: ((joinValues written).utf8 ++ [93]) := by
    simp only [utf8_append]
    rfl
  refine ⟨⟨91, _, hbytes, by decide, by decide⟩, ?_⟩
  intro total rest _
  rw [hbytes, cons_append, append_assoc, parseProperty, if_pos (by rfl), List.drop_one,
    List.tail_cons]
  cases h with
  | nil =>
    rw [htype rfl]
    rfl
  | @cons first text written texts hfirst hrest =>
    obtain ⟨x, tail, hfirstBytes, hblank, hbracket, -⟩ := hfirst.head
    have hhead : ∃ later, (joinValues (first :: written)).utf8 ++ ([93] ++ rest) = x :: later := by
      cases written with
      | nil =>
        rw [joinValues, hfirstBytes]
        exact ⟨_, rfl⟩
      | cons second written =>
        rw [joinValues]
        · simp only [utf8_append, hfirstBytes]
          exact ⟨_, rfl⟩
        · nofun
    obtain ⟨later, hlater⟩ := hhead
    have hvalues := parseValues_join total (.cons hfirst hrest) (by simp) [] (.inl rfl)
      rest
    rw [List.nil_append, List.nil_append] at hvalues
    change (joinValues (first :: written)).utf8 ++ 93 :: rest = x :: later at hlater
    change (let rest := skipWhitespace ((joinValues (first :: written)).utf8 ++ 93 :: rest)
      if rest.head? = some 93 then pure (⟨.string, [], true⟩, rest.drop 1)
      else parseValues total [] rest) = _
    rw [hlater] at hvalues ⊢
    simp only [skipWhitespace_cons hblank]
    rw [if_neg (by simpa using hbracket)]
    exact hvalues

/-! ## Properties of nodes -/

/-- A property that can be rendered reads back with its type, its arity and its values. -/
theorem appendProperty_reads (hf : f.RendersDigits) {property : PropertyState f}
    (htyped : property.Typed)
    (hvalues : ∀ value ∈ property.values.toList, ExportableValue provider options value) :
    ∃ written parsed, appendProperty f provider options property = .ok written ∧
      DescribesProperty provider property parsed ∧ ReadsProperty written parsed := by
  obtain ⟨name, propertyType, values⟩ := property
  cases values with
  | single value =>
    have htype : value.propertyType = propertyType := htyped value (List.mem_singleton_self _)
    obtain ⟨written, text, hwritten, htext, hreads⟩ :=
      appendValue_reads provider options hf (hvalues value (List.mem_singleton_self _))
    rw [htype] at hwritten hreads
    obtain ⟨x, tail, hbytes, hblank, -, hbrace⟩ := hreads.head
    exact ⟨written, ⟨propertyType, [text], false⟩, hwritten, ⟨rfl, rfl, text, htext, rfl⟩,
      ⟨⟨x, tail, hbytes, hblank, hbrace⟩, hreads.property⟩⟩
  | multiple values =>
    by_cases hempty : (values.isEmpty && propertyType != .string) = true
    · obtain rfl : values = [] := List.isEmpty_iff.mp (Bool.and_eq_true_iff.mp hempty).1
      exact ⟨appendString ("[0]:" ++ propertyType.jcrName), _, if_pos hempty, ⟨rfl, rfl, .nil⟩,
        readsProperty_empty propertyType⟩
    · have hall : ∀ value ∈ values, ∃ written text,
          appendValue f provider options propertyType value = .ok written ∧
            ValueText provider value text ∧ ReadsScalar written propertyType text := by
        intro value hvalue
        rw [← show value.propertyType = propertyType from htyped value hvalue]
        exact appendValue_reads provider options hf (hvalues value hvalue)
      obtain ⟨written, texts, hwritten, htexts, hreads⟩ :
          ∃ written texts, values.mapM (appendValue f provider options propertyType) = .ok written ∧
            List.Forall₂ (ValueText provider) values texts ∧
            List.Forall₂ (fun written text => ReadsScalar written propertyType text)
              written texts := by
        clear hempty htyped hvalues
        induction values with
        | nil => exact ⟨[], [], rfl, .nil, .nil⟩
        | cons value values ih =>
          obtain ⟨first, text, hfirst, htext, hread⟩ := hall value mem_cons_self
          obtain ⟨written, texts, hwritten, htexts, hreads⟩ :=
            ih fun other hother => hall other (mem_cons_of_mem _ hother)
          exact ⟨first :: written, text :: texts,
            Except.mapM_cons_ok_iff.mpr ⟨first, written, hfirst, hwritten, rfl⟩,
            .cons htext htexts, .cons hread hreads⟩
      refine ⟨"[" ++ joinValues written ++ "]", ⟨propertyType, texts, true⟩,
        (if_neg hempty).trans (Except.bind_ok_iff.mpr ⟨written, hwritten, rfl⟩),
        ⟨rfl, rfl, htexts⟩, readsProperty_array hreads ?_⟩
      intro hnil
      rw [hnil] at hreads
      cases hreads
      cases htexts
      simpa using hempty

/-! ## Members -/

def ReadsMember (depth : Nat) (written : String) (step : ParsedNode → ParsedNode) : Prop :=
  ∃ name value, written = appendMember name value ∧
    (∃ x tail, value.utf8 = x :: tail ∧ isAsciiWhitespace x = false) ∧
    ∀ total parsed rest, EndsNumber rest →
      parseMember total depth parsed name (value.utf8 ++ rest) = pure (step parsed, rest)

theorem readsMember_property {name : String} {parsed : ParsedProperty} (depth : Nat)
    (h : ReadsProperty written parsed) :
    ReadsMember depth (appendMember name written) fun node => node.putProperty name parsed := by
  obtain ⟨x, tail, hbytes, hblank, hbrace⟩ := h.head
  refine ⟨name, written, rfl, ⟨x, tail, hbytes, hblank⟩, fun total node rest hrest => ?_⟩
  have hread := h.property total rest hrest
  rw [hbytes, cons_append] at hread ⊢
  rw [parseMember, if_neg (by simpa using hbrace), hread, pure_bind]

theorem readsMember_child {name : String} {parsed : ParsedNode}
    (hhead : ∃ tail, written.utf8 = 123 :: tail)
    (h : ∀ total rest, parseNode total (depth + 1) (written.utf8 ++ rest) = pure (parsed, rest)) :
    ReadsMember depth (appendMember name written) fun node => node.putChild name parsed := by
  obtain ⟨tail, hbytes⟩ := hhead
  refine ⟨name, written, rfl, ⟨123, tail, hbytes, by decide⟩, fun total node rest _ => ?_⟩
  have hread := h total rest
  rw [hbytes, cons_append] at hread ⊢
  rw [parseMember, if_pos (by rfl), hread, pure_bind]

/-- Bytes that the reader skips. -/
def Blank (bytes : Bytes) : Prop := ∀ x ∈ bytes, isAsciiWhitespace x = true

theorem blank_deeper {indent : String} (hindent : Blank indent.utf8) :
    Blank (indent ++ "  ").utf8 := by
  intro x hx
  rw [utf8_append, mem_append] at hx
  rcases hx with hx | hx
  · exact hindent x hx
  · have hspaces : ∀ x ∈ "  ".utf8, isAsciiWhitespace x = true :=
      List.all_eq_true.mp (by decide)
    exact hspaces x hx

theorem skipWhitespace_blank (h : Blank blanks) (rest : Bytes) :
    skipWhitespace (blanks ++ rest) = skipWhitespace rest :=
  List.dropWhile_append_of_pos h

/-- The members of an object read back one after another. -/
theorem parseMembers_join (total depth : Nat) (hindent : Blank indent.utf8)
    {written : List String} {steps : List (ParsedNode → ParsedNode)}
    (h : List.Forall₂ (ReadsMember depth) written steps) (hne : written ≠ [])
    {later : Bytes} (hblanks : Blank blanks) (hlater : Blank later)
    (hnumber : EndsNumber later) (parsed : ParsedNode) (rest : Bytes) :
    parseMembers total depth parsed
        (blanks ++ ((joinMembers indent written).utf8 ++ (later ++ 125 :: rest))) =
      pure (steps.foldl (fun node step => step node) parsed, rest) := by
  induction h generalizing parsed blanks with
  | nil => exact absurd rfl hne
  | @cons member step written steps hmember hsteps ih =>
    obtain ⟨name, value, rfl, ⟨x, tail, hbytes, hblank⟩, hread⟩ := hmember
    -- one member, up to what follows its value
    have hone : ∀ behind, EndsNumber behind →
        parseMembers total depth parsed
            (blanks ++ ((indent ++ appendMember name value).utf8 ++ behind)) =
          (let rest := skipWhitespace behind
          if rest.head? = some 44 then parseMembers total depth (step parsed) (rest.drop 1)
          else if rest.head? = some 125 then pure (step parsed, rest.drop 1)
          else liftExcept (malformed (offsetOf total rest) "expected ',' or '\x7d' after a member")) := by
      intro behind hbehind
      obtain ⟨nameTail, hname⟩ := utf8_appendString name
      have hstring := parseString_appendString total name (58 :: 32 :: (value.utf8 ++ behind))
      have hsplit : (indent ++ appendMember name value).utf8 ++ behind =
          indent.utf8 ++ ((appendString name).utf8 ++ 58 :: 32 :: (value.utf8 ++ behind)) := by
        rw [appendMember]
        simp only [utf8_append, append_assoc]
        rfl
      have hcolon : expectByte total 58 (58 :: 32 :: (value.utf8 ++ behind)) =
          .ok (32 :: (value.utf8 ++ behind)) := by rw [expectByte, if_pos rfl]
      have hspace : skipWhitespace (32 :: (value.utf8 ++ behind)) = value.utf8 ++ behind := by
        rw [hbytes]
        exact skipWhitespace_cons hblank _
      rw [hsplit, parseMembers, skipWhitespace_blank hblanks, skipWhitespace_blank hindent]
      rw [hname, cons_append] at hstring ⊢
      rw [skipWhitespace_cons (by decide), hstring, pure_bind]
      simp only [skipWhitespace_cons (show isAsciiWhitespace 58 = false by decide)]
      rw [hcolon]
      change (parseMember total depth parsed name
        (skipWhitespace (32 :: (value.utf8 ++ behind))) >>= _) = _
      rw [hspace, hread total parsed behind hbehind, pure_bind]
    cases hsteps with
    | nil =>
      rw [joinMembers, hone _ (by
        cases later with
        | nil => exact endsNumber_cons (by decide) rest
        | cons y later => exact hnumber), skipWhitespace_blank hlater]
      simp only [skipWhitespace_cons (show isAsciiWhitespace 125 = false by decide)]
      rw [if_neg (by simp), if_pos (by rfl)]
      rfl
    | @cons second nextStep written steps hsecond hrest =>
      have hjoin : (joinMembers indent (appendMember name value :: second :: written)).utf8 ++
          (later ++ 125 :: rest) =
          (indent ++ appendMember name value).utf8 ++ (44 :: ([10] ++
            ((joinMembers indent (second :: written)).utf8 ++ (later ++ 125 :: rest)))) := by
        rw [joinMembers]
        · simp only [utf8_append, append_assoc]
          rfl
        · nofun
      rw [hjoin, hone _ (endsNumber_cons (by decide) _)]
      simp only [skipWhitespace_cons (show isAsciiWhitespace 44 = false by decide)]
      rw [if_pos (by rfl)]
      exact ih (by simp) (by
        intro y hy
        rw [mem_singleton.mp hy]
        decide) (step parsed)

/-! ## Maps of names -/

def TextMap.puts {α : Type} (entries : List (String × α)) (map : TextMap α) : TextMap α :=
  entries.foldl (fun map entry => TextMap.put entry.1 entry.2 map) map

theorem TextMap.lookup_put (key other : String) (value : α) (map : TextMap α) :
    (TextMap.put key value map).lookup other =
      if other = key then some value else map.lookup other := by
  induction map with
  | nil =>
    rw [TextMap.put, List.lookup_cons]
    split_ifs with h
    · rw [beq_iff_eq.mpr h]
    · rw [beq_eq_false_iff_ne.mpr h]
  | cons entry entries ih =>
    rw [TextMap.put]
    split_ifs with heq hother hlt hother hother
    · rw [List.lookup_cons, beq_iff_eq.mpr hother]
    · rw [List.lookup_cons, List.lookup_cons, beq_eq_false_iff_ne.mpr hother, ← heq,
        beq_eq_false_iff_ne.mpr hother]
    · rw [List.lookup_cons, beq_iff_eq.mpr hother]
    · rw [List.lookup_cons, beq_eq_false_iff_ne.mpr hother]
    · rw [List.lookup_cons, ih, if_pos hother, hother, beq_eq_false_iff_ne.mpr heq]
    · rw [List.lookup_cons, ih, if_neg hother, List.lookup_cons]

/-- After some puts a name stands for the last thing put under it. -/
theorem TextMap.lookup_puts (entries : List (String × α)) (map : TextMap α) (name : String) :
    name ∉ entries.map Prod.fst ∧ (map.puts entries).lookup name = map.lookup name ∨
      ∃ value, (name, value) ∈ entries ∧ (map.puts entries).lookup name = some value := by
  induction entries generalizing map with
  | nil => exact .inl ⟨List.not_mem_nil, rfl⟩
  | cons entry entries ih =>
    rcases ih (TextMap.put entry.1 entry.2 map) with ⟨hnot, hlookup⟩ | ⟨value, hmem, hlookup⟩
    · rw [TextMap.lookup_put] at hlookup
      by_cases hname : name = entry.1
      · rw [if_pos hname] at hlookup
        refine .inr ⟨entry.2, ?_, hlookup⟩
        rw [hname]
        exact mem_cons_self
      · rw [if_neg hname] at hlookup
        refine .inl ⟨?_, hlookup⟩
        rw [List.map_cons, mem_cons, not_or]
        exact ⟨hname, hnot⟩
    · exact .inr ⟨value, mem_cons_of_mem _ hmem, hlookup⟩

/-- A map has an entry for every name of a list and no others, each of what the list has. -/
structure DescribesEntries {α β : Type} (describes : α → β → Prop) (entries : List (String × α))
    (map : TextMap β) : Prop where
  names : ∀ name, (map.lookup name).isSome → name ∈ entries.map Prod.fst
  entry : ∀ entry ∈ entries, ∃ read, map.lookup entry.1 = some read ∧ describes entry.2 read

theorem describesEntries_puts {β : Type} {describes : α → β → Prop}
    {entries : List (String × α)} {read : List (String × β)}
    (hsame : ∀ a ∈ entries, ∀ b ∈ entries, a.1 = b.1 → a = b)
    (h : List.Forall₂ (fun entry put => put.1 = entry.1 ∧ describes entry.2 put.2) entries read) :
    DescribesEntries describes entries (TextMap.puts read []) := by
  have hnames : read.map Prod.fst = entries.map Prod.fst := by
    clear hsame
    induction h with
    | nil => rfl
    | cons hfirst _ ih => rw [List.map_cons, List.map_cons, hfirst.1, ih]
  have hfound : ∀ put ∈ read, ∃ entry ∈ entries, put.1 = entry.1 ∧ describes entry.2 put.2 := by
    clear hsame hnames
    induction h with
    | nil => exact nofun
    | cons hfirst _ ih =>
      intro put hput
      rcases mem_cons.mp hput with rfl | hput
      · exact ⟨_, mem_cons_self, hfirst⟩
      · obtain ⟨entry, hentry, hput⟩ := ih put hput
        exact ⟨entry, mem_cons_of_mem _ hentry, hput⟩
  refine ⟨fun name hname => ?_, fun entry hentry => ?_⟩
  · rcases TextMap.lookup_puts read [] name with ⟨-, hlookup⟩ | ⟨value, hmem, -⟩
    · rw [hlookup] at hname
      cases hname
    · rw [← hnames]
      exact List.mem_map_of_mem (f := Prod.fst) hmem
  · rcases TextMap.lookup_puts read [] entry.1 with ⟨hnot, -⟩ | ⟨value, hmem, hlookup⟩
    · refine absurd ?_ hnot
      rw [hnames]
      exact List.mem_map_of_mem hentry
    · obtain ⟨other, hother, hname, hdescribes⟩ := hfound _ hmem
      rw [hsame entry hentry other hother hname]
      exact ⟨value, by rw [← hname, hlookup], hdescribes⟩

/-- The steps of a node that is read, its properties and then its children. -/
theorem foldl_puts (properties : List (String × ParsedProperty))
    (children : List (String × ParsedNode)) (parsed : ParsedNode) :
    ((properties.map fun put (node : ParsedNode) => node.putProperty put.1 put.2) ++
        children.map fun put (node : ParsedNode) => node.putChild put.1 put.2).foldl
          (fun node step => step node) parsed =
      .node (TextMap.puts properties parsed.properties)
        (TextMap.puts children parsed.children) := by
  induction properties generalizing parsed with
  | nil =>
    induction children generalizing parsed with
    | nil =>
      cases parsed
      rfl
    | cons child children ih => exact ih (parsed.putChild child.1 child.2)
  | cons property properties ih => exact ih (parsed.putProperty property.1 property.2)

/-! ## Nodes -/

variable (f) in
/-- A node that can be rendered, with a number of levels below it.  Its properties have
distinct names, and a name stands for one child. -/
def Exportable : Nat → NodeState → Prop
  | 0, _ => False
  | levels + 1, node => ∃ properties children,
    renderedProperties f node = .ok properties ∧ orderedChildren f options node = .ok children ∧
      (properties.map PropertyState.name).Nodup ∧
      (∀ property ∈ properties, ∀ value ∈ property.values.toList,
        ExportableValue provider options value) ∧
      (∀ a ∈ children, ∀ b ∈ children, a.1 = b.1 → a = b) ∧
      ∀ child ∈ children, Exportable levels child.2

variable (f) in
/-- What the file has of a node, with a number of levels below it: the properties that are
rendered and the children that are rendered, under their names. -/
def Describes : Nat → NodeState → ParsedNode → Prop
  | 0, _, _ => False
  | levels + 1, node, parsed => ∃ properties children,
    renderedProperties f node = .ok properties ∧ orderedChildren f options node = .ok children ∧
      DescribesEntries (DescribesProperty provider)
        (properties.map fun property => (property.name, property)) parsed.properties ∧
      DescribesEntries (Describes levels) children parsed.children

/-- The members of the properties of a node read back as the properties. -/
theorem properties_members (hf : f.RendersDigits) (depth : Nat)
    {properties : List (PropertyState f)} (h : ∀ property ∈ properties, property.Typed ∧
      ∀ value ∈ property.values.toList, ExportableValue provider options value) :
    ∃ (written : List String) (read : List (String × ParsedProperty)),
      properties.mapM (fun property => do
        return appendMember property.name (← appendProperty f provider options property)) =
        .ok written ∧
      List.Forall₂ (fun entry put => put.1 = entry.1 ∧ DescribesProperty provider entry.2 put.2)
        (properties.map fun property => (property.name, property)) read ∧
      List.Forall₂ (ReadsMember depth) written
        (read.map fun put (node : ParsedNode) => node.putProperty put.1 put.2) := by
  induction properties with
  | nil => exact ⟨[], [], rfl, .nil, .nil⟩
  | cons property properties ih =>
    obtain ⟨htyped, hvalues⟩ := h property mem_cons_self
    obtain ⟨text, parsed, htext, hdescribes, hreads⟩ :=
      appendProperty_reads provider options hf htyped hvalues
    obtain ⟨written, read, hwritten, hread, hsteps⟩ :=
      ih fun other hother => h other (mem_cons_of_mem _ hother)
    refine ⟨appendMember property.name text :: written, (property.name, parsed) :: read,
      Except.mapM_cons_ok_iff.mpr ⟨_, written, ?_, hwritten, rfl⟩, .cons ⟨rfl, hdescribes⟩ hread,
      .cons (readsMember_property depth hreads) hsteps⟩
    exact Except.bind_ok_iff.mpr ⟨text, htext, rfl⟩

/-- What is rendered of a node reads back at a depth. -/
def RendersNode (levels depth : Nat) (indent : String) (node : NodeState) (written : String)
    (parsed : ParsedNode) : Prop :=
  Ends (appendNode f provider options indent node) (.ok written) ∧
    Describes f provider options levels node parsed ∧ (∃ tail, written.utf8 = 123 :: tail) ∧
      ∀ total rest, parseNode total depth (written.utf8 ++ rest) = pure (parsed, rest)

theorem children_members {levels : Nat} {children : List (String × NodeState)}
    (h : ∀ child ∈ children, ∃ written parsed,
      RendersNode (f := f) provider options levels (depth + 1) indent child.2 written parsed) :
    ∃ (written : List String) (read : List (String × ParsedNode)),
      Ends (children.mapM fun child => do
        return appendMember child.1 (← appendNode f provider options indent child.2))
        (.ok written) ∧
      List.Forall₂ (fun entry put => put.1 = entry.1 ∧
        Describes f provider options levels entry.2 put.2) children read ∧
      List.Forall₂ (ReadsMember depth) written
        (read.map fun put (node : ParsedNode) => node.putChild put.1 put.2) := by
  induction children with
  | nil => exact ⟨[], [], ends_pure [], .nil, .nil⟩
  | cons child children ih =>
    obtain ⟨text, parsed, htext, hdescribes, hhead, hreads⟩ := h child mem_cons_self
    obtain ⟨written, read, hwritten, hread, hsteps⟩ :=
      ih fun other hother => h other (mem_cons_of_mem _ hother)
    refine ⟨appendMember child.1 text :: written, (child.1, parsed) :: read, ?_,
      .cons ⟨rfl, hdescribes⟩ hread, .cons (readsMember_child hhead hreads) hsteps⟩
    have hmember : Ends (do return appendMember child.1 (← appendNode f provider options indent child.2))
        (.ok (appendMember child.1 text)) := htext.goOn (ends_pure _)
    rw [List.mapM_cons]
    refine hmember.goOn ?_
    exact hwritten.goOn (ends_pure _)

theorem parseMembers_skipWhitespace (total depth : Nat) (parsed : ParsedNode) (rest : Bytes) :
    parseMembers total depth parsed (skipWhitespace rest) = parseMembers total depth parsed rest := by
  have hskip : skipWhitespace (skipWhitespace rest) = skipWhitespace rest :=
    List.dropWhile_idempotent isAsciiWhitespace rest
  rw [parseMembers, parseMembers, hskip]

theorem joinMembers_head {depth : Nat} {indent : String} {written : List String}
    {steps : List (ParsedNode → ParsedNode)}
    (h : List.Forall₂ (ReadsMember depth) written steps) (hne : written ≠ []) :
    ∃ tail, (joinMembers indent written).utf8 = indent.utf8 ++ 34 :: tail := by
  cases h with
  | nil => exact absurd rfl hne
  | @cons first _ written _ hfirst _ =>
    obtain ⟨name, value, rfl, -⟩ := hfirst
    obtain ⟨tail, hname⟩ := utf8_appendString name
    cases written with
    | nil =>
      rw [joinMembers, appendMember]
      simp only [utf8_append, hname]
      exact ⟨_, rfl⟩
    | cons second written =>
      rw [joinMembers, appendMember]
      · simp only [utf8_append, hname, append_assoc]
        exact ⟨_, rfl⟩
      · nofun

/-- An object with members reads back. -/
theorem parseNode_members (total : Nat) {depth : Nat} (hdepth : depth ≤ maximumNestingDepth)
    {indent : String} (hindent : Blank indent.utf8) {written : List String}
    {steps : List (ParsedNode → ParsedNode)}
    (h : List.Forall₂ (ReadsMember depth) written steps) (hne : written ≠ []) (rest : Bytes) :
    parseNode total depth (("\x7b\n" ++ joinMembers (indent ++ "  ") written ++ "\n" ++ indent ++
        "\x7d").utf8 ++ rest) =
      pure (steps.foldl (fun node step => step node) .empty, rest) := by
  have hnewline : Blank [10] := by
    intro x hx
    rw [mem_singleton.mp hx]
    decide
  have hdeeper : Blank (indent ++ "  ").utf8 := blank_deeper hindent
  have hlater : Blank (10 :: indent.utf8) := by
    intro x hx
    rcases mem_cons.mp hx with rfl | hx
    · decide
    · exact hindent x hx
  have hsplit : ("\x7b\n" ++ joinMembers (indent ++ "  ") written ++ "\n" ++ indent ++ "\x7d").utf8 ++
      rest = 123 :: ([10] ++ ((joinMembers (indent ++ "  ") written).utf8 ++
        ((10 :: indent.utf8) ++ 125 :: rest))) := by
    simp only [utf8_append, append_assoc]
    rfl
  have hbrace : ∀ body, expectByte total 123 (123 :: body) = .ok body := by
    intro body
    rw [expectByte, if_pos rfl]
  obtain ⟨tail, hhead⟩ := @joinMembers_head _ (indent ++ "  ") _ _ h hne
  have hmembers := parseMembers_join total depth hdeeper h hne hnewline hlater
    (endsNumber_cons (by decide) _) .empty rest
  rw [hsplit, parseNode, if_neg (by omega), hbrace]
  rw [← parseMembers_skipWhitespace] at hmembers
  rw [skipWhitespace_blank hnewline, hhead, append_assoc, skipWhitespace_blank hdeeper,
    cons_append, skipWhitespace_cons (by decide)] at hmembers
  change (let body := skipWhitespace ([10] ++ ((joinMembers (indent ++ "  ") written).utf8 ++
        ((10 :: indent.utf8) ++ 125 :: rest)))
      if body.head? = some 125 then pure (ParsedNode.empty, body.drop 1)
      else parseMembers total depth .empty body) = _
  rw [skipWhitespace_blank hnewline, hhead, append_assoc, skipWhitespace_blank hdeeper,
    cons_append, skipWhitespace_cons (by decide)]
  exact hmembers

theorem parseNode_empty (total : Nat) {depth : Nat} (hdepth : depth ≤ maximumNestingDepth)
    (rest : Bytes) :
    parseNode total depth ("\x7b\x7d".utf8 ++ rest) = pure (.empty, rest) := by
  have hbrace : expectByte total 123 ("\x7b\x7d".utf8 ++ rest) = .ok (125 :: rest) := by
    change expectByte total 123 (123 :: 125 :: rest) = .ok (125 :: rest)
    rw [expectByte, if_pos rfl]
  rw [parseNode, if_neg (by omega), hbrace]
  rfl

theorem appendNode_reads (hf : f.RendersDigits) {levels : Nat} {node : NodeState}
    (hnode : Exportable f provider options levels node)
    (hdepth : depth + levels ≤ maximumNestingDepth + 1) (hindent : Blank indent.utf8) :
    ∃ written parsed,
      RendersNode (f := f) provider options levels depth indent node written parsed := by
  induction levels generalizing node depth indent with
  | zero => exact hnode.elim
  | succ levels ih =>
    obtain ⟨properties, children, hproperties, hchildren, hnames, hvalues, hsame, hbelow⟩ := hnode
    have htyped : ∀ property ∈ properties, property.Typed := by
      obtain ⟨stored, hstored, hkept⟩ := Except.bind_ok_iff.mp hproperties
      cases hkept
      intro property hproperty
      exact NodeState.properties_typed hstored (List.mem_filter.mp hproperty).1
    have hdeeper : Blank (indent ++ "  ").utf8 := blank_deeper hindent
    obtain ⟨propertyTexts, propertyPuts, hpropertyTexts, hpropertyPuts, hpropertySteps⟩ :=
      properties_members provider options hf depth
        fun property hproperty => ⟨htyped property hproperty, hvalues property hproperty⟩
    have hchild : ∀ child ∈ children, ∃ written parsed, RendersNode (f := f) provider options levels
        (depth + 1) (indent ++ "  ") child.2 written parsed :=
      fun child hchild => ih (hbelow child hchild) (by omega) hdeeper
    obtain ⟨childTexts, childPuts, hchildTexts, hchildPuts, hchildSteps⟩ :=
      children_members provider options hchild
    have hproperty : DescribesEntries (DescribesProperty provider)
        (properties.map fun property => (property.name, property))
        (TextMap.puts propertyPuts []) := by
      refine describesEntries_puts ?_ hpropertyPuts
      intro a ha b hb hname
      obtain ⟨first, hfirst, rfl⟩ := mem_map.mp ha
      obtain ⟨second, hsecond, rfl⟩ := mem_map.mp hb
      rw [List.inj_on_of_nodup_map hnames hfirst hsecond hname]
    have hdescribes : Describes f provider options (levels + 1) node
        (.node (TextMap.puts propertyPuts []) (TextMap.puts childPuts [])) :=
      ⟨properties, children, hproperties, hchildren, hproperty,
        describesEntries_puts hsame hchildPuts⟩
    by_cases hempty : (properties.isEmpty && children.isEmpty) = true
    · rw [Bool.and_eq_true, List.isEmpty_iff, List.isEmpty_iff] at hempty
      obtain ⟨rfl, rfl⟩ := hempty
      cases hpropertyPuts
      cases hchildPuts
      refine ⟨"\x7b\x7d", .empty, ?_, hdescribes, ⟨_, rfl⟩,
        fun total rest => parseNode_empty total (by omega) rest⟩
      rw [appendNode, hproperties, hchildren]
      refine (ends_liftExcept (.ok [])).goOn ?_
      exact (ends_liftExcept (.ok [])).goOn (ends_pure _)
    · have hsteps := List.rel_append hpropertySteps hchildSteps
      have hne : propertyTexts ++ childTexts ≠ [] := by
        intro hnil
        obtain ⟨rfl, rfl⟩ := List.append_eq_nil_iff.mp hnil
        rw [List.forall₂_nil_left_iff, List.map_eq_nil_iff] at hchildSteps
        rw [Except.mapM_ok_iff, List.forall₂_nil_right_iff] at hpropertyTexts
        rw [hchildSteps, List.forall₂_nil_right_iff] at hchildPuts
        rw [hpropertyTexts, hchildPuts] at hempty
        exact hempty rfl
      have hread := fun total rest => parseNode_members total (by omega) hindent hsteps hne rest
      simp only [foldl_puts] at hread
      refine ⟨"\x7b\n" ++ joinMembers (indent ++ "  ") (propertyTexts ++ childTexts) ++ "\n" ++
        indent ++ "\x7d", _, ?_, hdescribes, ?_, hread⟩
      · rw [appendNode, hproperties, hchildren]
        refine (ends_liftExcept (.ok properties)).goOn ?_
        refine (ends_liftExcept (.ok children)).goOn ?_
        rw [if_neg hempty, hpropertyTexts]
        refine (ends_liftExcept (.ok propertyTexts)).goOn ?_
        exact hchildTexts.goOn (ends_pure _)
      · simp only [utf8_append, append_assoc]
        exact ⟨_, rfl⟩

/-! ## Files -/

variable (f) in
/-- What the file has of definitions. -/
def DescribesDefinitions (definitions : List (String × NodeState)) (parsed : TextMap ParsedNode) :
    Prop :=
  DescribesEntries (Describes f provider options maximumNestingDepth) definitions parsed

variable (f) in
/-- Definitions that can be rendered: their paths are distinct, and they do not nest deeper than
the reader accepts. -/
structure ExportableDefinitions (definitions : List (String × NodeState)) : Prop where
  paths : (definitions.map Prod.fst).Nodup
  nodes : ∀ definition ∈ definitions,
    Exportable f provider options maximumNestingDepth definition.2

/-- Definitions are rendered, and what is rendered reads back as an object of them. -/
theorem render_reads (hf : f.RendersDigits) {definitions : List (String × NodeState)}
    (h : ExportableDefinitions f provider options definitions) :
    ∃ written parsed, Ends (render f provider options definitions) (.ok written) ∧
      DescribesDefinitions f provider options definitions parsed ∧
      (∃ tail, written.utf8 = 123 :: tail) ∧
      ∀ total, parseNode total 0 written.utf8 = pure (.node [] parsed, []) := by
  by_cases hempty : definitions.isEmpty = true
  · obtain rfl := List.isEmpty_iff.mp hempty
    refine ⟨"\x7b\x7d", [], ends_pure _, ⟨nofun, nofun⟩, ⟨_, rfl⟩, fun total => ?_⟩
    have hread := @parseNode_empty total 0 (by decide) []
    rwa [List.append_nil] at hread
  · have hindent : Blank "  ".utf8 := @blank_deeper "" nofun
    have hnode : ∀ definition ∈ definitions, ∃ written parsed, RendersNode (f := f) provider options
        maximumNestingDepth (0 + 1) "  " definition.2 written parsed :=
      fun definition hdefinition =>
        appendNode_reads provider options hf (h.nodes definition hdefinition) (by decide) hindent
    obtain ⟨texts, puts, htexts, hputs, hsteps⟩ := children_members provider options hnode
    have hne : texts ≠ [] := by
      rintro rfl
      rw [List.forall₂_nil_left_iff, List.map_eq_nil_iff] at hsteps
      rw [hsteps, List.forall₂_nil_right_iff] at hputs
      exact hempty (List.isEmpty_iff.mpr hputs)
    have hsame : ∀ a ∈ definitions, ∀ b ∈ definitions, a.1 = b.1 → a = b :=
      fun a ha b hb hpath => List.inj_on_of_nodup_map h.paths ha hb hpath
    refine ⟨"\x7b\n" ++ joinMembers "  " texts ++ "\n\x7d", TextMap.puts puts [], ?_,
      describesEntries_puts hsame hputs, ?_, fun total => ?_⟩
    · rw [render, if_neg hempty]
      exact htexts.goOn (ends_pure _)
    · simp only [utf8_append, append_assoc]
      exact ⟨_, rfl⟩
    · have hread := @parseNode_members total 0 (by decide) "" nofun _ _ hsteps hne []
      have hfold := foldl_puts [] puts .empty
      rw [List.map_nil, List.nil_append] at hfold
      rw [hfold, List.append_nil] at hread
      simp only [String.append_empty, String.append_assoc] at hread ⊢
      exact hread

/-- A file past the limit is refused. -/
theorem parseDefinitions_refuses {content : String}
    (h : maximumDefinitionsFileBytes < content.utf8.length) :
    ∃ error, Ends (parseDefinitions content) (.error error) := by
  rw [parseDefinitions]
  simp only [if_pos h]
  exact ⟨_, ends_liftExcept (.error _)⟩

/-- Definitions that can be rendered have a rendering.  When it is no larger than the reader
accepts it reads back as the definitions, and otherwise it is refused. -/
theorem parseDefinitions_render (hf : f.RendersDigits) {definitions : List (String × NodeState)}
    (h : ExportableDefinitions f provider options definitions) :
    ∃ written, Ends (render f provider options definitions) (.ok written) ∧
      (written.utf8.length ≤ maximumDefinitionsFileBytes →
        ∃ parsed, Ends (parseDefinitions written) (.ok parsed) ∧
          DescribesDefinitions f provider options definitions parsed) ∧
      (maximumDefinitionsFileBytes < written.utf8.length →
        ∃ error, Ends (parseDefinitions written) (.error error)) := by
  obtain ⟨written, parsed, hwritten, hdescribes, ⟨tail, hbytes⟩, hread⟩ :=
    render_reads provider options hf h
  refine ⟨written, hwritten, fun hsize => ⟨parsed, ?_, hdescribes⟩, fun hsize => ?_⟩
  · have hskip : skipWhitespace written.utf8 = written.utf8 := by
      rw [hbytes]
      exact skipWhitespace_cons (by decide) _
    rw [parseDefinitions]
    simp only [if_neg (Nat.not_lt.mpr hsize), hskip, hread, pure_bind]
    rfl
  · exact parseDefinitions_refuses hsize

end Values

/-! ## A definition without children -/

theorem rendersDigits_oneDouble : oneDouble.RendersDigits :=
  have hscientific : "1e0".toList = ['1'] ++ 'e' :: ['0'] := by decide
  fun _ _ _ _ => ⟨['1'], ['0'], 0, hscientific, List.all_iff_forall_prop.mp (by decide), by decide⟩

/-- A data segment of a name, a template with that primary type, and a node of the template. -/
def typedNodeSegment : Bytes :=
  [0x30, 0x61, 0x4B, 12] ++ List.replicate 14 0 ++ [0, 0, 0, 3] ++ List.replicate 10 0 ++
    [0, 0, 0, 0, 4, 0, 3, 0xFF, 0xE4] ++ [0, 0, 0, 1, 6, 0, 3, 0xFF, 0xE8] ++
    [0, 0, 0, 2, 7, 0, 3, 0xFF, 0xF4] ++
    [1, 97, 0, 0] ++ [0xA0, 0, 0, 0] ++ [0, 0, 0, 0, 0, 0, 0, 0] ++
    [0, 0, 0, 0, 0, 2] ++ [0, 0, 0, 0, 0, 1]

def typedNode : NodeState where
  provider identifier := do
    return ⟨← ParsedSegment.parse identifier typedNodeSegment, typedNodeSegment⟩
  recordIdentifier := ⟨⟨0, 0xA000000000000000⟩, 2⟩

theorem typedNode_template : typedNode.template = .ok ⟨some "a", [], .zero, []⟩ := by
  decide +kernel

section

variable (f : FloatingPoint) (provider : SegmentProvider) (options : RenderOptions)

/-- The node can be rendered: it has its type and no children. -/
theorem exportable_typedNode (levels : Nat) :
    Exportable f provider options (levels + 1) typedNode := by
  have hproperties : renderedProperties f typedNode =
      .ok [⟨"jcr:primaryType", .name, .single (.name "a")⟩] := by
    rw [renderedProperties, NodeState.properties, typedNode_template]
    rfl
  have hchildren : orderedChildren f options typedNode = .ok [] := by
    rw [orderedChildren, childrenInTreeOrder, NodeState.childNodeEntries, NodeState.property,
      typedNode_template]
    rfl
  refine ⟨_, _, hproperties, hchildren, List.nodup_singleton _, ?_, nofun, nofun⟩
  intro property hproperty value hvalue
  rw [mem_singleton.mp hproperty, PropertyValues.toList, mem_singleton] at hvalue
  rw [hvalue]
  trivial

/-- One definition under a path. -/
theorem exportableDefinitions_typedNode (path : String) :
    ExportableDefinitions f provider options [(path, typedNode)] := by
  refine ⟨List.nodup_singleton _, fun definition hdefinition => ?_⟩
  rw [mem_singleton.mp hdefinition]
  exact exportable_typedNode f provider options 63

end

theorem parseDefinitions_render_typedNode :
    ∃ written, Ends (render oneDouble typedNode.provider .default [("/oak:index/a", typedNode)])
        (.ok written) ∧
      (written.utf8.length ≤ maximumDefinitionsFileBytes →
        ∃ parsed, Ends (parseDefinitions written) (.ok parsed) ∧
          DescribesDefinitions oneDouble typedNode.provider .default [("/oak:index/a", typedNode)]
            parsed) ∧
      (maximumDefinitionsFileBytes < written.utf8.length →
        ∃ error, Ends (parseDefinitions written) (.error error)) :=
  parseDefinitions_render typedNode.provider .default rendersDigits_oneDouble
    (exportableDefinitions_typedNode _ _ _ _)

theorem render_longer (length : Nat) :
    ∃ written, Ends (render oneDouble typedNode.provider .default
        [(String.ofList (List.replicate length 'a'), typedNode)]) (.ok written) ∧
      length < written.utf8.length := by
  obtain ⟨text, parsed, htext, -⟩ := appendNode_reads typedNode.provider .default
    rendersDigits_oneDouble (exportable_typedNode oneDouble typedNode.provider .default 0)
    (show 0 + 1 ≤ maximumNestingDepth + 1 by decide) (@blank_deeper "" nofun)
  generalize hpath : String.ofList (List.replicate length 'a') = path
  have hplain : appendString path = "\"" ++ path ++ "\"" := by
    have hunits : ¬ (encodeUtf16 path).any shouldEscape = true := by
      rw [List.any_eq_true]
      rintro ⟨unit, hunit, hescape⟩
      obtain ⟨c, hc, hunit⟩ := List.mem_flatMap.mp hunit
      rw [← hpath, String.toList_ofList] at hc
      rw [List.eq_of_mem_replicate hc] at hunit
      have hletter : ∀ unit ∈ charUtf16 'a', shouldEscape unit = false :=
        List.all_iff_forall_prop.mp (by decide)
      rw [hletter unit hunit] at hescape
      cases hescape
    rw [appendString]
    simp only [if_neg hunits]
  have hmember : Ends (appendNode oneDouble typedNode.provider .default "  " typedNode >>=
      fun text => pure (appendMember path text)) (.ok (appendMember path text)) :=
    htext.goOn (ends_pure _)
  refine ⟨"\x7b\n" ++ joinMembers "  " [appendMember path text] ++ "\n\x7d", ?_, ?_⟩
  · rw [render, if_neg (by simp), List.mapM_cons]
    have hmembers := @Ends.goOn Error String (List String) _
      (fun text => pure [text]) _ _ hmember (ends_pure [appendMember path text])
    exact hmembers.goOn (ends_pure _)
  · have hlength : path.utf8.length = length := by
      have hletter : (String.utf8EncodeChar 'a').length = 1 := by decide
      rw [← hpath, utf8_toList, String.toList_ofList, List.length_flatMap, List.map_replicate,
        List.sum_replicate, hletter]
      exact Nat.mul_one length
    rw [joinMembers, appendMember, hplain]
    simp only [utf8_append, List.length_append]
    rw [hlength, show "\"".utf8.length = 1 from rfl]
    omega

/-- A definition under a long path is rendered and does not read back. -/
theorem not_every_rendering_parses :
    ¬ ∀ (f : FloatingPoint) (provider : SegmentProvider) (options : RenderOptions)
      (definitions : List (String × NodeState)), f.RendersDigits →
      ExportableDefinitions f provider options definitions →
      ∃ written parsed, Ends (render f provider options definitions) (.ok written) ∧
        Ends (parseDefinitions written) (.ok parsed) ∧
        DescribesDefinitions f provider options definitions parsed := by
  intro h
  obtain ⟨written, parsed, hwritten, hparsed, -⟩ := h oneDouble typedNode.provider .default
    [(String.ofList (List.replicate maximumDefinitionsFileBytes 'a'), typedNode)]
    rendersDigits_oneDouble (exportableDefinitions_typedNode _ _ _ _)
  obtain ⟨long, hlong, hlength⟩ := render_longer maximumDefinitionsFileBytes
  rw [Ends, hwritten] at hlong
  cases hlong
  obtain ⟨error, herror⟩ := parseDefinitions_refuses hlength
  rw [Ends, hparsed] at herror
  cases herror

end Froe
