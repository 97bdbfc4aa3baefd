import Froe.Index.DefinitionsJsonReader

/-!
# Tokens of index definitions

A text reads back as it was, whether it is escaped or not: each character is read as one
step of the reader, and the steps add up.  A value reads back with its type, since a code
stands in front of every text that is no plain string, and a number ends before the byte
that separates values.
-/

namespace Froe

open Utf16 (charUtf16 charUtf16_pair charUtf16_single decodeUtf16 encodeUtf16 encodeUtf16_append)

open TextLength (parseStringBody)

open String (append_empty ofList utf8EncodeChar)
open UInt8 (le_iff_toNat_le)

open Loops
open Digits (fixed padded)

/-! ## Escapes -/

/-- What is written for one character. -/
def escapedChar (c : Char) : String := escapeUnits (charUtf16 c)

/-- Only a high surrogate looks at the unit behind it. -/
theorem escapeUnits_cons {unit : UInt16} (h : ¬ (0xD800 ≤ unit ∧ unit ≤ 0xDFFF))
    (rest : List UInt16) : escapeUnits (unit :: rest) = escapeUnits [unit] ++ escapeUnits rest := by
  cases rest with
  | nil => rw [escapeUnits.eq_1, append_empty]
  | cons next rest =>
    rw [escapeUnits.eq_2, escapeUnits.eq_3, if_neg h, if_neg h, escapeUnits.eq_1]
    simp only [append_empty]
    split_ifs <;> rfl

theorem escapeUnits_pair {unit next : UInt16} (hunit : 0xD800 ≤ unit ∧ unit ≤ 0xDBFF)
    (hnext : 0xDC00 ≤ next ∧ next ≤ 0xDFFF) (rest : List UInt16) :
    escapeUnits (unit :: next :: rest) =
      ofList (decodeUtf16 [unit, next]) ++ escapeUnits rest := by
  simp only [UInt16.le_iff_toNat_le] at hunit hnext
  simp at hunit hnext
  have hne : ∀ n : UInt16, n.toNat < 0xD800 → unit ≠ n := by
    rintro n hn rfl
    omega
  rw [escapeUnits, if_neg (hne _ (by decide)), if_neg (hne _ (by decide)),
    if_neg (hne _ (by decide)), if_neg (hne _ (by decide)), if_neg (hne _ (by decide)),
    if_neg (hne _ (by decide)), if_neg (hne _ (by decide)), if_neg, if_pos, if_pos]
  · simp only [UInt16.le_iff_toNat_le]
    simp
    omega
  · simp only [UInt16.le_iff_toNat_le]
    simp
    omega
  · simp only [UInt16.lt_iff_toNat_lt]
    simp
    omega

theorem escapeUnits_charUtf16 (c : Char) (units : List UInt16) :
    escapeUnits (charUtf16 c ++ units) = escapedChar c ++ escapeUnits units := by
  rw [escapedChar]
  rcases Nat.lt_or_ge c.toNat 0x10000 with h | h
  · obtain ⟨unit, hunit, -, hsurrogate⟩ := charUtf16_single h
    rw [hunit]
    exact escapeUnits_cons hsurrogate units
  · obtain ⟨unit, next, hunits, hunit, hnext, -⟩ := charUtf16_pair h
    rw [hunits, List.cons_append, List.cons_append, List.nil_append,
      escapeUnits_pair hunit hnext, escapeUnits_pair hunit hnext, escapeUnits, append_empty]

/-! ## Reading a text back -/

section Read

variable (total : Nat)

theorem fromUtf8?_utf8 (text : String) : fromUtf8? text.utf8 = some text := by
  have hb : ByteArray.mk text.utf8.toArray = text.toByteArray := by simp [String.utf8]
  have hvalid : (ByteArray.mk text.utf8.toArray).validateUTF8 = true := by
    rw [hb]
    exact ByteArray.validateUTF8_eq_true_iff.mpr text.isValidUTF8
  rw [fromUtf8?, if_pos hvalid, Utf8.decodeLossy_utf8]

theorem utf8EncodeChar_eq (c : Char) : utf8EncodeChar c = (String.singleton c).utf8 := by
  have h : (ofList [c]).utf8 = utf8EncodeChar c := by
    rw [Utf8.utf8_ofList, List.flatMap_singleton]
  rw [← h]
  rfl

variable {byte : UInt8} {c : Char} {rest : Bytes} {text : String}

/-- A byte by its code. -/
theorem byte_ne {n : Nat} (hn : n < 256) (h : byte.toNat ≠ n) :
    byte ≠ UInt8.ofNat n := by
  rintro rfl
  rw [UInt8.toNat_ofNat', Nat.mod_eq_of_lt hn] at h
  exact h rfl

theorem utf8Width_one (h : byte.toNat < 128) : utf8Width byte = 1 := by
  rw [utf8Width, if_pos]
  exact le_iff_toNat_le.mpr (Nat.le_of_lt_succ h)

theorem utf8Width_two (h : 0xC0 ≤ byte.toNat ∧ byte.toNat < 0xE0) :
    utf8Width byte = 2 := by
  rw [utf8Width, if_neg, if_pos]
  · exact ⟨le_iff_toNat_le.mpr h.1, le_iff_toNat_le.mpr (Nat.le_of_lt_succ h.2)⟩
  · rw [le_iff_toNat_le]
    exact Nat.not_le.mpr (lt_of_lt_of_le (by decide) h.1)

theorem utf8Width_three (h : 0xE0 ≤ byte.toNat ∧ byte.toNat < 0xF0) :
    utf8Width byte = 3 := by
  rw [utf8Width, if_neg, if_neg, if_pos]
  · exact ⟨le_iff_toNat_le.mpr h.1, le_iff_toNat_le.mpr (Nat.le_of_lt_succ h.2)⟩
  · rintro ⟨-, hhigh⟩
    exact absurd (le_iff_toNat_le.mp hhigh) (Nat.not_le.mpr (lt_of_lt_of_le (by decide) h.1))
  · rw [le_iff_toNat_le]
    exact Nat.not_le.mpr (lt_of_lt_of_le (by decide) h.1)

theorem utf8Width_four (h : 0xF0 ≤ byte.toNat) : utf8Width byte = 4 := by
  rw [utf8Width, if_neg, if_neg, if_neg]
  · rintro ⟨-, hhigh⟩
    exact absurd (le_iff_toNat_le.mp hhigh) (Nat.not_le.mpr (lt_of_lt_of_le (by decide) h))
  · rintro ⟨-, hhigh⟩
    exact absurd (le_iff_toNat_le.mp hhigh) (Nat.not_le.mpr (lt_of_lt_of_le (by decide) h))
  · rw [le_iff_toNat_le]
    exact Nat.not_le.mpr (lt_of_lt_of_le (by decide) h)

/-- The first byte of a character tells its length, and a character that is no quote and no
backslash starts with neither. -/
theorem utf8EncodeChar_width (hquote : c ≠ '"') (hslash : c ≠ '\\') :
    ∃ byte later, String.utf8EncodeChar c = byte :: later ∧
      utf8Width byte = later.length + 1 ∧ byte ≠ 34 ∧ byte ≠ 92 := by
  have hmax : c.toNat < 0x110000 := by
    rcases c.valid with hc | hc
    · exact lt_trans hc (by decide)
    · exact hc.2
  have hne : ∀ n : Nat, n < 0xD800 → c ≠ Char.ofNat n → c.toNat ≠ n := by
    intro n _ hc heq
    exact hc (by rw [← heq, Char.ofNat_toNat])
  have h34 := hne 34 (by decide) hquote
  have h92 := hne 92 (by decide) hslash
  have hval : c.val.toNat = c.toNat := rfl
  simp only [String.utf8EncodeChar, hval]
  split
  · have hbyte : (UInt8.ofNat c.toNat).toNat = c.toNat := by
      rw [UInt8.toNat_ofNat']
      omega
    refine ⟨_, _, rfl, utf8Width_one (by omega), ?_, ?_⟩
    · exact byte_ne (by decide) (by rw [hbyte]; exact h34)
    · exact byte_ne (by decide) (by rw [hbyte]; exact h92)
  · split
    · refine ⟨_, _, rfl, utf8Width_two ?_, byte_ne (n := 34) (by decide) ?_,
        byte_ne (n := 92) (by decide) ?_⟩
      all_goals
        rw [UInt8.toNat_ofNat']
        omega
    · split
      · refine ⟨_, _, rfl, utf8Width_three ?_, byte_ne (n := 34) (by decide) ?_,
          byte_ne (n := 92) (by decide) ?_⟩
        all_goals
          rw [UInt8.toNat_ofNat']
          omega
      · refine ⟨_, _, rfl, utf8Width_four ?_, byte_ne (n := 34) (by decide) ?_,
          byte_ne (n := 92) (by decide) ?_⟩
        all_goals
          rw [UInt8.toNat_ofNat']
          omega

/-- A character that is not escaped is one step of the reader. -/
theorem parseStringBody_char (hquote : c ≠ '"') (hslash : c ≠ '\\') (text : String) (rest : Bytes) :
    parseStringBody total text (utf8EncodeChar c ++ rest) =
      parseStringBody total (text.push c) rest := by
  obtain ⟨byte, later, hbytes, hwidth, h34, h92⟩ := utf8EncodeChar_width hquote hslash
  have hlength : (byte :: later).length = utf8Width byte := hwidth.symm
  have htake : ((byte :: later) ++ rest).take (utf8Width byte) = utf8EncodeChar c := by
    rw [← hlength, List.take_left, hbytes]
  have hdrop : ((byte :: later) ++ rest).drop (utf8Width byte) = rest := by
    rw [← hlength, List.drop_left]
  have hread : readSequence total byte ((byte :: later) ++ rest) =
      .ok (String.singleton c, rest) := by
    have hlong : ¬ ((byte :: later) ++ rest).length < utf8Width byte := by
      rw [List.length_append, hlength]
      omega
    simp only [readSequence]
    rw [if_neg hlong, htake, utf8EncodeChar_eq, fromUtf8?_utf8, hdrop]
  rw [hbytes, List.cons_append, parseStringBody]
  simp only [if_neg h34, if_neg h92]
  rw [← List.cons_append, hread]
  rfl

/-- An escape is one step of the reader. -/
theorem parseStringBody_escape {escape : Bytes} (text : String)
    (h : readEscape total (escape ++ rest) = .ok (c, rest)) :
    parseStringBody total text (92 :: (escape ++ rest)) =
      parseStringBody total (text.push c) rest := by
  rw [parseStringBody]
  simp only [if_neg (show (92 : UInt8) ≠ 34 by decide), if_true]
  rw [h]
  rfl

/-- The digits of an escape read back. -/
theorem readEscape_unicode (h : c.toNat < 32) (rest : Bytes) :
    readEscape total (117 :: padded 16 4 c.toNat ++ rest) = .ok (c, rest) := by
  have hdigits : padded 16 4 c.toNat = fixed 16 4 c.toNat :=
    Digits.padded_of_lt (by omega) (by omega)
  have hascii : ∀ x ∈ fixed 16 4 c.toNat, x.toNat < 128 := fun x hx =>
    Digits.fixed_ascii (by omega) (by omega) hx
  have hparse : ∀ n : Fin 32, parseHexadecimal (fixed 16 4 n) = some n.val := by decide
  have htake : (fixed 16 4 c.toNat ++ rest).take 4 = fixed 16 4 c.toNat :=
    List.take_left' (Digits.length_fixed 16 4 c.toNat)
  have hdrop : (fixed 16 4 c.toNat ++ rest).drop 4 = rest :=
    List.drop_left' (Digits.length_fixed 16 4 c.toNat)
  have hlong : ¬ (fixed 16 4 c.toNat ++ rest).length < 4 := by
    rw [List.length_append, Digits.length_fixed]
    omega
  have htext : fromUtf8? (fixed 16 4 c.toNat) =
      some (Utf8.ascii (fixed 16 4 c.toNat)) := by
    conv_lhs => rw [← Utf8.utf8_ascii hascii]
    exact fromUtf8?_utf8 _
  rw [hdigits, List.cons_append]
  simp only [readEscape]
  simp only [if_neg (show (117 : UInt8) ≠ 34 by decide), if_neg (show (117 : UInt8) ≠ 92 by decide),
    if_neg (show (117 : UInt8) ≠ 47 by decide), if_neg (show (117 : UInt8) ≠ 98 by decide),
    if_neg (show (117 : UInt8) ≠ 102 by decide), if_neg (show (117 : UInt8) ≠ 110 by decide),
    if_neg (show (117 : UInt8) ≠ 114 by decide), if_neg (show (117 : UInt8) ≠ 116 by decide),
    if_true]
  rw [readUnicodeEscape, if_neg hlong, htake, htext]
  simp only [hparse ⟨c.toNat, h⟩, hdrop]
  rw [charFromCode, if_pos (.inl (by omega)), Char.ofNat_toNat]

/-- A character is written as an escape for it or as itself. -/
theorem escapedChar_cases (c : Char) :
    (∃ escape, (escapedChar c).utf8 = 92 :: escape ∧
      ∀ rest, readEscape total (escape ++ rest) = .ok (c, rest)) ∨
    c ≠ '"' ∧ c ≠ '\\' ∧ escapedChar c = String.singleton c := by
  rcases Nat.lt_or_ge c.toNat 0x10000 with h | h
  · obtain ⟨unit, hunit, hcode, hsurrogate⟩ := charUtf16_single h
    have hofNat : ∀ n : UInt16, unit = n → c = Char.ofNat n.toNat := by
      rintro _ rfl
      rw [hcode, Char.ofNat_toNat]
    rw [escapedChar, hunit, escapeUnits.eq_3, if_neg hsurrogate, escapeUnits.eq_1]
    split_ifs with hquote hslash hbackspace hfeed hnewline hreturn htab hcontrol
    · exact .inl ⟨[34], rfl, fun rest => by rw [hofNat _ hquote]; rfl⟩
    · exact .inl ⟨[92], rfl, fun rest => by rw [hofNat _ hslash]; rfl⟩
    · exact .inl ⟨[98], rfl, fun rest => by rw [hofNat _ hbackspace]; rfl⟩
    · exact .inl ⟨[102], rfl, fun rest => by rw [hofNat _ hfeed]; rfl⟩
    · exact .inl ⟨[110], rfl, fun rest => by rw [hofNat _ hnewline]; rfl⟩
    · exact .inl ⟨[114], rfl, fun rest => by rw [hofNat _ hreturn]; rfl⟩
    · exact .inl ⟨[116], rfl, fun rest => by rw [hofNat _ htab]; rfl⟩
    · have hsmall : c.toNat < 32 := by
        rw [← hcode]
        exact UInt16.lt_iff_toNat_lt.mp hcontrol
      have hascii : ∀ x ∈ Digits.padded 16 4 c.toNat, x.toNat < 128 := fun x hx =>
        Digits.fixed_ascii (by decide) (by decide) hx
      refine .inl ⟨117 :: Digits.padded 16 4 c.toNat, ?_, readEscape_unicode total hsmall⟩
      rw [String.append_empty, unicodeEscape, Utf8.utf8_append, hcode, Utf8.utf8_ascii hascii]
      rfl
    · have hne : ∀ n : UInt16, unit ≠ n → n.toNat < 128 → c ≠ Char.ofNat n.toNat := by
        rintro n hn hsmall rfl
        refine hn (UInt16.toNat_inj.mp ?_)
        rw [hcode]
        exact Utf8.ofNat_toNat (.inl (lt_trans hsmall (by decide)))
      refine .inr ⟨hne 34 hquote (by decide), hne 92 hslash (by decide), ?_⟩
      rw [String.append_empty, decodeUtf16, if_neg hsurrogate, hcode, Char.ofNat_toNat]
      rfl
  · obtain ⟨unit, next, hunits, hunit, hnext, hdecode⟩ := charUtf16_pair h
    refine .inr ⟨?_, ?_, ?_⟩
    · rintro rfl
      exact absurd h (by decide)
    · rintro rfl
      exact absurd h (by decide)
    · rw [escapedChar, hunits, escapeUnits_pair hunit hnext, hdecode, escapeUnits,
        String.append_empty]
      rfl

/-- What is written for a character is one step of the reader. -/
theorem parseStringBody_escapedChar (c : Char) (text : String) (rest : Bytes) :
    parseStringBody total text ((escapedChar c).utf8 ++ rest) =
      parseStringBody total (text.push c) rest := by
  rcases escapedChar_cases total c with ⟨escape, hbytes, hread⟩ | ⟨hquote, hslash, hplain⟩
  · rw [hbytes, List.cons_append]
    exact parseStringBody_escape total text (hread rest)
  · rw [hplain, ← utf8EncodeChar_eq]
    exact parseStringBody_char total hquote hslash text rest

/-- A text in which every character is one step of the reader. -/
theorem parseStringBody_chars {written : Char → Bytes} (chars : List Char)
    (hstep : ∀ c ∈ chars, ∀ (text : String) (rest : Bytes),
      parseStringBody total text (written c ++ rest) = parseStringBody total (text.push c) rest)
    (text : String) (rest : Bytes) :
    parseStringBody total text (chars.flatMap written ++ 34 :: rest) =
      pure (text ++ String.ofList chars, rest) := by
  induction chars generalizing text with
  | nil =>
    rw [List.flatMap_nil, List.nil_append, parseStringBody]
    simp
  | cons c chars ih =>
    rw [List.flatMap_cons, List.append_assoc, hstep c List.mem_cons_self,
      ih fun c hc => hstep c (List.mem_cons_of_mem _ hc)]
    refine congrArg (fun text => pure (text, rest)) (String.toList_inj.mp ?_)
    simp

theorem escapeUnits_flatMap (chars : List Char) :
    (escapeUnits (chars.flatMap charUtf16)).utf8 =
      chars.flatMap fun c => (escapedChar c).utf8 := by
  induction chars with
  | nil => rfl
  | cons c chars ih =>
    rw [List.flatMap_cons, List.flatMap_cons, escapeUnits_charUtf16, Utf8.utf8_append, ih]

theorem utf8_toList (text : String) : text.utf8 = text.toList.flatMap String.utf8EncodeChar := by
  conv_lhs => rw [← String.ofList_toList (s := text)]
  exact Utf8.utf8_ofList _

/-- A text that is not escaped has no character that would have to be. -/
theorem not_escaped (h : ¬ (encodeUtf16 text).any shouldEscape = true) {d : Char}
    (hc : c ∈ text.toList) (hd : (charUtf16 d).any shouldEscape = true) : c ≠ d := by
  rintro rfl
  obtain ⟨unit, hunit, hescape⟩ := List.any_eq_true.mp hd
  refine h (List.any_eq_true.mpr ⟨unit, ?_, hescape⟩)
  rw [encodeUtf16, List.mem_flatMap]
  exact ⟨c, hc, hunit⟩

/-- A quoted text reads back as the text. -/
theorem parseString_appendString (text : String) (rest : Bytes) :
    parseString total ((appendString text).utf8 ++ rest) = pure (text, rest) := by
  have hbody : parseStringBody total "" ((if (encodeUtf16 text).any shouldEscape then
      escapeUnits (encodeUtf16 text) else text).utf8 ++ 34 :: rest) = pure (text, rest) := by
    split_ifs with hescape
    · rw [encodeUtf16, escapeUnits_flatMap, parseStringBody_chars total _ fun c _ text rest =>
        parseStringBody_escapedChar total c text rest]
      simp
    · rw [utf8_toList, parseStringBody_chars total _ fun c hc text rest =>
        parseStringBody_char total (not_escaped hescape hc (by decide))
          (not_escaped hescape hc (by decide)) text rest]
      simp
  rw [appendString]
  simp only [Utf8.utf8_append, List.append_assoc]
  exact hbody

/-! ## Type codes -/

theorem stripText_append (start text : String) : stripText start (start ++ text) = some text := by
  rw [stripText, String.toList_append, if_pos (List.isPrefixOf_iff_prefix.mpr
    (List.prefix_append _ _)), List.drop_left, String.ofList_toList]

theorem stripText_eq_none {start : String} (h : ¬ start.toList <+: text.toList) :
    stripText start text = none := by
  rw [stripText, if_neg]
  rw [List.isPrefixOf_iff_prefix]
  exact h

/-- The codes that stand in front of a value. -/
def isCode (code : String) : Bool :=
  code.toList.length == 3 && (encodeUtf16 code).length == 3 && code.toList.head? != some ':' &&
    code.toList.head? != some '['

variable (propertyType : PropertyType)

theorem isCode_shortName : isCode (shortName propertyType) = true := by
  cases propertyType <;> decide

theorem splitTypeCode_code {code : String} (hcode : isCode code = true) (text : String) :
    splitTypeCode (code ++ ":" ++ text) = ((propertyTypeForCode code).getD .string, text) := by
  simp only [isCode, Bool.and_eq_true, beq_iff_eq, bne_iff_ne] at hcode
  obtain ⟨⟨⟨hlength, hunits⟩, hcolon⟩, -⟩ := hcode
  have hlist : (code ++ ":" ++ text).toList = code.toList ++ ':' :: text.toList := by simp
  have hnot : ¬ ":blobId:".toList <+: (code ++ ":" ++ text).toList := by
    rw [hlist]
    obtain ⟨a, rest, hcons⟩ := List.exists_cons_of_length_pos (l := code.toList) (by omega)
    rw [hcons] at hcolon ⊢
    intro hstart
    obtain ⟨tail, htail⟩ := hstart
    injection htail with hhead
    exact hcolon (by rw [← hhead]; rfl)
  have hfour : (encodeUtf16 (code ++ ":" ++ text))[3]? = some 0x3A := by
    rw [encodeUtf16_append, encodeUtf16_append, List.append_assoc,
      List.getElem?_append_right (by omega), hunits]
    rfl
  rw [splitTypeCode, stripText_eq_none hnot]
  simp only [hfour, if_true]
  rw [hlist, List.take_left' hlength, String.ofList_toList, ← List.drop_drop (j := 3) (i := 1)]
  rw [List.drop_left' hlength]
  simp

theorem propertyTypeForCode_shortName :
    propertyTypeForCode (shortName propertyType) = some propertyType := by
  cases propertyType <;> decide

theorem propertyTypeNamed_jcrName :
    propertyTypeNamed propertyType.jcrName = some propertyType := by
  cases propertyType <;> decide

theorem splitTypeCode_shortName (text : String) :
    splitTypeCode (shortName propertyType ++ ":" ++ text) = (propertyType, text) := by
  rw [splitTypeCode_code (isCode_shortName propertyType), propertyTypeForCode_shortName]
  rfl

theorem splitTypeCode_blob (text : String) :
    splitTypeCode (":blobId:" ++ text) = (.binary, text) := by
  rw [splitTypeCode, stripText_append]

theorem splitTypeCode_plain (h : typeCodeSplit text = none) :
    splitTypeCode text = (.string, text) := by
  rw [typeCodeSplit] at h
  split at h
  · cases h
  · rename_i hblob
    split at h
    · cases h
    · rename_i hfour
      have hnot : ¬ ":blobId:".toList <+: text.toList := by
        rintro ⟨rest, hrest⟩
        refine hblob (List.isPrefixOf_iff_prefix.mpr ?_)
        rw [utf8_toList, utf8_toList, ← hrest, List.flatMap_append]
        exact List.prefix_append _ _
      rw [splitTypeCode, stripText_eq_none hnot]
      simp only [if_neg hfour]

/-- A code is no mark of an empty array. -/
theorem stripText_code {code : String} (hcode : isCode code = true) (text : String) :
    stripText "[0]:" (code ++ ":" ++ text) = none := by
  simp only [isCode, Bool.and_eq_true, beq_iff_eq, bne_iff_ne] at hcode
  obtain ⟨⟨⟨hlength, -⟩, -⟩, hbracket⟩ := hcode
  refine stripText_eq_none ?_
  have hlist : (code ++ ":" ++ text).toList = code.toList ++ ':' :: text.toList := by simp
  rw [hlist]
  obtain ⟨a, rest, hcons⟩ := List.exists_cons_of_length_pos (l := code.toList) (by omega)
  rw [hcons] at hbracket ⊢
  rintro ⟨tail, htail⟩
  injection htail with hhead
  exact hbracket (by rw [← hhead]; rfl)

theorem stripText_blob (text : String) : stripText "[0]:" (":blobId:" ++ text) = none := by
  refine stripText_eq_none ?_
  rw [String.toList_append]
  rintro ⟨tail, htail⟩
  injection htail with hhead
  exact absurd hhead (by decide)

theorem stripText_plain (h : typeCodeSplit text = none) :
    stripText "[0]:" text = none := by
  refine stripText_eq_none ?_
  rintro ⟨rest, hrest⟩
  have htext : text = "[0]:" ++ ofList rest := by
    rw [← String.toList_inj, ← hrest]
    simp
  have hfour : (encodeUtf16 text)[3]? = some 0x3A := by
    rw [htext, encodeUtf16_append]
    rfl
  rw [typeCodeSplit, if_pos hfour] at h
  split at h <;> cases h

/-! ## Numbers -/

/-- What follows a value does not go on with a number. -/
def EndsNumber (rest : Bytes) : Prop := ∀ x ∈ rest.head?, isNumberByte x = false

theorem endsNumber_cons {x : UInt8} (h : isNumberByte x = false) (rest : Bytes) :
    EndsNumber (x :: rest) := by
  rintro y hy
  obtain rfl := Option.some.inj hy
  exact h

theorem takeWhile_number {number : Bytes} (hnumber : ∀ x ∈ number, isNumberByte x = true)
    (hrest : EndsNumber rest) : (number ++ rest).takeWhile isNumberByte = number := by
  rw [List.takeWhile_append_of_pos hnumber]
  cases rest with
  | nil => simp
  | cons x rest => rw [List.takeWhile_cons_of_neg (by rw [hrest x rfl]; decide), List.append_nil]

/-- A number reads back as its text. -/
theorem parseNumber_text (hnumber : ∀ x ∈ text.utf8, isNumberByte x = true) (hne : text.utf8 ≠ [])
    (hrest : EndsNumber rest) :
    parseNumber total (text.utf8 ++ rest) =
      .ok (if 46 ∈ text.utf8 ∨ 101 ∈ text.utf8 ∨ 69 ∈ text.utf8 then .double else .long, text,
        rest) := by
  rw [parseNumber]
  simp only [takeWhile_number hnumber hrest, if_neg hne, Utf8.decodeLossy_utf8, List.drop_left]

/-- The characters of a decimal fraction. -/
def isNumberChar (c : Char) : Bool := c.isDigit || c == '-' || c == '.' || c == 'E'

theorem isNumberChar_lt (h : isNumberChar c = true) : c.toNat < 128 := by
  simp only [isNumberChar, Bool.or_eq_true, beq_iff_eq] at h
  rcases h with ((h | rfl) | rfl) | rfl
  · rw [Char.isDigit, Bool.and_eq_true, decide_eq_true_eq, decide_eq_true_eq] at h
    exact lt_of_le_of_lt (UInt32.le_iff_toNat_le.mp h.2) (by decide)
  · decide
  · decide
  · decide

theorem utf8EncodeChar_number (h : isNumberChar c = true) :
    utf8EncodeChar c = [UInt8.ofNat c.toNat] := by
  conv_lhs => rw [← Char.ofNat_toNat c]
  exact Utf8.utf8EncodeChar_ascii (isNumberChar_lt h)

theorem isNumberByte_number (h : isNumberChar c = true) :
    isNumberByte (UInt8.ofNat c.toNat) = true := by
  have hall : ∀ n : Fin 128, isNumberChar (Char.ofNat n) = true →
      isNumberByte (UInt8.ofNat n) = true := by decide
  refine hall ⟨c.toNat, isNumberChar_lt h⟩ ?_
  rw [Char.ofNat_toNat]
  exact h

theorem utf8_number {chars : List Char} (h : ∀ c ∈ chars, isNumberChar c = true) :
    (ofList chars).utf8 = chars.map fun c => UInt8.ofNat c.toNat := by
  rw [Utf8.utf8_ofList]
  induction chars with
  | nil => rfl
  | cons c chars ih =>
    rw [List.forall_mem_cons] at h
    rw [List.flatMap_cons, utf8EncodeChar_number h.1, ih h.2]
    rfl

/-- The characters of a decimal number without a point. -/
theorem decimalText_chars (n : Int) :
    ∀ c ∈ (Utf8.ascii (decimalBytes n)).toList, c.isDigit = true ∨ c = '-' := by
  have hdigit : ∀ d : Fin 10, (Char.ofNat (Digits.digitByte d).toNat).isDigit = true := by decide
  have hpadded : ∀ x ∈ padded 10 1 n.natAbs, (Char.ofNat x.toNat).isDigit = true := by
    intro x hx
    obtain ⟨d, hd, rfl⟩ := Digits.fixed_mem (by decide) hx
    exact hdigit ⟨d, hd⟩
  intro c hc
  rw [Utf8.ascii, String.toList_ofList, List.mem_map] at hc
  obtain ⟨x, hx, rfl⟩ := hc
  rw [decimalBytes] at hx
  split at hx
  · rcases List.mem_cons.mp hx with rfl | hx
    · exact .inr rfl
    · exact .inl (hpadded x hx)
  · exact .inl (hpadded x hx)

end Read

end Froe
