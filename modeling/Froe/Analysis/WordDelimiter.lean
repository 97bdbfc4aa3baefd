import Froe.Lib.Utf16

/-!
# The word delimiter

A token is split at the code units that are classed as delimiters, and an English possessive
in front of a delimiter or the end is left out.  An index into the term is a step that can
fail, so that a split that returns never looks outside of the term.
-/

namespace Froe.WordDelimiter

open Utf16 (charUtf16 charUtf16_pair charUtf16_single decodeUtf16 decodeUtf16_chars encodeUtf16)

open Option (bind_eq_bind bind_some)

/-! ## Classes -/

/-- The classes of code units. -/
inductive CharacterClass where
  | lower
  | upper
  | alpha
  | digit
  | alphanum
  | subwordDelim
deriving DecidableEq, Repr

/-- The byte of a class; a letter has either case. -/
def CharacterClass.bits : CharacterClass → UInt8
  | .lower => 0x01
  | .upper => 0x02
  | .alpha => 0x03
  | .digit => 0x04
  | .alphanum => 0x07
  | .subwordDelim => 0x08

/-- Whether a unit is half of a pair. -/
def isSurrogate (unit : UInt16) : Bool := 0xD800 ≤ unit ∧ unit ≤ 0xDFFF

/-- A table of classes, in which a surrogate is a letter and a digit. -/
structure ClassTable where
  classOf : UInt16 → CharacterClass
  surrogates : ∀ unit, isSurrogate unit → classOf unit = .alphanum

/-- Whether a class has letters. -/
def isAlpha (cls : UInt8) : Bool := cls &&& 0x03 != 0

/-- Whether a class has digits. -/
def isDigit (cls : UInt8) : Bool := cls &&& 0x04 != 0

/-- Whether a class delimits words. -/
def isSubwordDelim (cls : UInt8) : Bool := cls &&& 0x08 != 0

/-- Whether a class has upper case letters. -/
def isUpper (cls : UInt8) : Bool := cls &&& 0x02 != 0

/-- Whether a word ends between two classes. -/
def isBreak (lastClass cls : UInt8) : Bool :=
  if cls &&& lastClass != 0 then false
  else if isAlpha lastClass && isAlpha cls then false
  else if isUpper lastClass && isAlpha cls then false
  else if (isAlpha lastClass && isDigit cls) || (isDigit lastClass && isAlpha cls) then false
  else true

/-! ## Subwords -/

/-- The walk over the subwords of a term. -/
structure Subwords where
  text : List UInt16
  startBounds : Nat
  endBounds : Nat
  current : Nat
  /-- Where the subword ends, when there is one. -/
  stop : Option Nat
  skipPossessive : Bool
  hasFinalPossessive : Bool
deriving DecidableEq, Repr

section

variable (table : ClassTable)

/-- The class of the unit at an index. -/
def classAt (text : List UInt16) (at' : Nat) : Option UInt8 := do
  let unit ← text[at']?
  return (table.classOf unit).bits

/-- Whether `at'` sits just past an apostrophe and an `s`, after a letter, at a boundary. -/
def endsWithPossessive (text : List UInt16) (endBounds at' : Nat) : Option Bool := do
  if ¬ (2 < at' ∧ at' ≤ text.length) then return false
  else
    let apostrophe ← text[at' - 2]?
    if apostrophe ≠ 0x27 then return false
    else
      let s ← text[at' - 1]?
      if ¬ (s = 0x73 ∨ s = 0x53) then return false
      else
        let letter ← classAt table text (at' - 3)
        if ¬ isAlpha letter then return false
        else if at' = endBounds then return true
        else if ¬ at' < text.length then return false
        else
          let behind ← classAt table text at'
          return isSubwordDelim behind

/-- The first unit from `at'` on that is no delimiter, with its class. -/
def skipDelimiters (text : List UInt16) (bound : Nat) (lastClass : UInt8) (at' : Nat) :
    Option (Nat × UInt8) :=
  if at' < bound then do
    let cls ← classAt table text at'
    if isSubwordDelim cls then skipDelimiters text bound cls (at' + 1) else return (at', cls)
  else some (at', lastClass)
termination_by bound - at'

/-- The end without the delimiters in front of it. -/
def trimDelimiters (text : List UInt16) (bound : Nat) : Nat → Option Nat
  | 0 => some 0
  | at' + 1 =>
    if bound < at' + 1 then do
      let cls ← classAt table text at'
      if isSubwordDelim cls then trimDelimiters text bound at' else return at' + 1
    else some (at' + 1)

/-- The first break from `at'` on. -/
def findBreak (text : List UInt16) (bound : Nat) (lastClass : UInt8) (at' : Nat) : Option Nat :=
  if at' < bound then do
    let cls ← classAt table text at'
    if isBreak lastClass cls then return at' else findBreak text bound cls (at' + 1)
  else some at'
termination_by bound - at'

/-- Begins the walk, at the first subword. -/
def Subwords.over (text : List UInt16) : Option Subwords := do
  let (startBounds, _) ← skipDelimiters table text text.length 0 0
  let endBounds ← trimDelimiters table text startBounds text.length
  let hasFinalPossessive ← endsWithPossessive table text endBounds endBounds
  return ⟨text, startBounds, endBounds, startBounds, some 0, false, hasFinalPossessive⟩

/-- Advances to the next subword.  Where it stands is not looked at once there is none left. -/
def Subwords.next (words : Subwords) : Option Subwords :=
  match words.stop with
  | none => some words
  | some stop => do
    let start := if words.skipPossessive then stop + 2 else stop
    let (current, lastClass) ← skipDelimiters table words.text words.endBounds 0 start
    if words.endBounds ≤ current then
      return { words with current := current, stop := none, skipPossessive := false }
    else
      let stop ← findBreak table words.text words.endBounds lastClass (current + 1)
      let possessive ←
        if stop + 1 < words.endBounds then
          endsWithPossessive table words.text words.endBounds (stop + 2)
        else some false
      return { words with current := current, stop := some stop, skipPossessive := possessive }

/-- Whether the current subword is the whole word, possessive aside. -/
def Subwords.isSingleWord (words : Subwords) (stop : Nat) : Bool :=
  if words.hasFinalPossessive then
    words.current == words.startBounds && stop + 2 == words.endBounds
  else words.current == words.startBounds && stop == words.endBounds

/-! ## Splitting a token -/

/-- A token with its position and offsets. -/
structure Token where
  term : String
  positionIncrement : UInt32
  startOffset : UInt32
  endOffset : UInt32
  tokenType : String
deriving DecidableEq, Repr

/-- What a stream has behind its last token. -/
structure EndState where
  positionIncrement : UInt32
  offset : UInt32
deriving DecidableEq, Repr

/-- A token with the state behind it. -/
structure StagedToken where
  token : Token
  stop : EndState
deriving DecidableEq, Repr

/-- What a token has taken so far from the positions that the stream has given. -/
structure Positions where
  accumulated : Int
  hasOutputToken : Bool
  hasOutputFollowingOriginal : Bool
deriving DecidableEq, Repr

/-- An increment that does not fit becomes the largest. -/
def incrementOf (accumulated : Int) : UInt32 :=
  if (max accumulated 0).toNat < 2 ^ 32 then UInt32.ofNat (max accumulated 0).toNat
  else 0xFFFFFFFF

/-- The increment of the next part. -/
def Positions.position (positions : Positions) : UInt32 × Positions :=
  if positions.hasOutputToken then
    (max (incrementOf positions.accumulated) 1, { positions with accumulated := 0 })
  else if ¬ positions.hasOutputFollowingOriginal then
    (0, ⟨positions.accumulated, true, true⟩)
  else (max (incrementOf positions.accumulated) 1,
    ⟨0, true, positions.hasOutputFollowingOriginal⟩)

/-- The units of a range of the term, which is inside of it. -/
def sliceUnits (text : List UInt16) (start stop : Nat) : Option (List UInt16) :=
  if start ≤ stop ∧ stop ≤ text.length then some ((text.drop start).take (stop - start)) else none

/-- The offsets of a part.  An input whose offsets do not span its term keeps its own. -/
def partOffsets (token : Token) (length : Nat) (words : Subwords) (stop : Nat) : UInt32 × UInt32 :=
  let start := token.startOffset + UInt32.ofNat words.current
  let «end» := token.startOffset + UInt32.ofNat stop
  if (token.endOffset - token.startOffset).toNat ≠ length then
    if words.isSingleWord stop ∧ start ≤ token.endOffset then (start, token.endOffset)
    else (token.startOffset, token.endOffset)
  else (start, «end»)

/-- The loop over the parts. -/
def Token.splitParts (token : Token) (stopState : EndState) (words : Subwords)
    (positions : Positions) :
    Option (List StagedToken × Int) :=
  match words.stop with
  | none => some ([], positions.accumulated)
  | some stop => do
    let (startOffset, endOffset) := partOffsets token words.text.length words stop
    let (positionIncrement, positions) := positions.position
    let units ← sliceUnits words.text words.current stop
    let part : StagedToken :=
      ⟨⟨String.ofList (decodeUtf16 units), positionIncrement, startOffset, endOffset,
        token.tokenType⟩, stopState⟩
    let words ← words.next table
    let (parts, accumulated) ← token |>.splitParts stopState words positions
    return (part :: parts, accumulated)
partial_fixpoint

/-- What one token becomes, and what is accumulated behind it. -/
def splitToken (token : Token) (stopState : EndState) (preserveOriginal : Bool)
    (accumulated : Int) : Option (List StagedToken × Int) := do
  let units := encodeUtf16 token.term
  let accumulated := accumulated + token.positionIncrement.toNat
  let whole : StagedToken :=
    ⟨{ token with positionIncrement := incrementOf accumulated }, stopState⟩
  let words ← Subwords.over table units
  let words ← words.next table
  if words.current = 0 ∧ words.stop = some units.length then return ([whole], 0)
  else if words.stop = none ∧ ¬ preserveOriginal then
    return ([], if token.positionIncrement = 1 then accumulated - 1 else accumulated)
  else if preserveOriginal then
    let (parts, accumulated) ← Token.splitParts table token stopState words ⟨0, false, false⟩
    return (whole :: parts, accumulated)
  else Token.splitParts table token stopState words ⟨accumulated, false, true⟩

end

/-! ## Units of a text -/

section

variable (table : ClassTable)

/-- A delimiter stands at an index. -/
def DelimiterAt (text : List UInt16) (i : Nat) : Prop :=
  ∃ unit, text[i]? = some unit ∧ table.classOf unit = .subwordDelim

/-- No delimiter stands at an index. -/
def WordAt (text : List UInt16) (i : Nat) : Prop :=
  ∃ unit, text[i]? = some unit ∧ table.classOf unit ≠ .subwordDelim

/-- An apostrophe and an `s` after a letter, in front of a delimiter or the end. -/
structure PossessiveAt (text : List UInt16) (at' : Nat) : Prop where
  letter : ∃ unit, text[at' - 3]? = some unit ∧ isAlpha (table.classOf unit).bits
  apostrophe : text[at' - 2]? = some 0x27
  s : text[at' - 1]? = some 0x73 ∨ text[at' - 1]? = some 0x53
  inside : 2 < at' ∧ at' ≤ text.length
  behind : at' = text.length ∨ DelimiterAt table text at'

end

variable {table : ClassTable} {text : List UInt16}

variable {i stop : Nat} {last : CharacterClass} {words : Subwords} {unit : UInt16}

theorem wordAt_or_delimiterAt (h : i < text.length) :
    WordAt table text i ∨ DelimiterAt table text i := by
  have hget : text[i]? = some text[i] := List.getElem?_eq_getElem h
  by_cases hdelim : table.classOf text[i] = .subwordDelim
  · exact .inr ⟨_, hget, hdelim⟩
  · exact .inl ⟨_, hget, hdelim⟩

theorem WordAt.not_delimiterAt (h : WordAt table text i) :
    ¬ DelimiterAt table text i := by
  obtain ⟨unit, hunit, hword⟩ := h
  rintro ⟨other, hother, hdelim⟩
  cases hunit.symm.trans hother
  exact hword hdelim

theorem isSubwordDelim_bits (cls : CharacterClass) :
    isSubwordDelim cls.bits = true ↔ cls = .subwordDelim := by
  cases cls <;> decide

/-- Behind a unit of a word only a delimiter breaks. -/
theorem isBreak_bits (h : last ≠ .subwordDelim) (cls : CharacterClass) :
    isBreak last.bits cls.bits = true ↔ cls = .subwordDelim := by
  cases last
  case subwordDelim => exact absurd rfl h
  all_goals cases cls <;> decide

theorem exists_classAt {i : Nat} (h : i < text.length) :
    ∃ unit, text[i]? = some unit ∧ classAt table text i = some (table.classOf unit).bits := by
  refine ⟨text[i], List.getElem?_eq_getElem h, ?_⟩
  rw [classAt, List.getElem?_eq_getElem h]
  rfl

/-! ## The loops -/

theorem skipDelimiters_spec {bound : Nat} (hbound : bound ≤ text.length) (last : UInt8) {at' : Nat}
    (hat : at' ≤ bound) :
    ∃ j cls, skipDelimiters table text bound last at' = some (j, cls) ∧ at' ≤ j ∧ j ≤ bound ∧
      (∀ i, at' ≤ i → i < j → DelimiterAt table text i) ∧
      (j < bound → ∃ unit, text[j]? = some unit ∧ table.classOf unit ≠ .subwordDelim ∧
        cls = (table.classOf unit).bits) := by
  induction hn : bound - at' generalizing at' last with
  | zero =>
    have heq : at' = bound := Nat.le_antisymm hat (Nat.le_of_sub_eq_zero hn)
    refine ⟨at', last, ?_, le_rfl, hat, fun i hi hj => absurd hj (by omega), fun hlt => ?_⟩
    · rw [skipDelimiters, if_neg (by omega)]
    · exact absurd heq hlt.ne
  | succ n ih =>
    have hlt : at' < bound := by omega
    obtain ⟨unit, hunit, hclass⟩ := @exists_classAt table text at' (lt_of_lt_of_le hlt hbound)
    rw [skipDelimiters, if_pos hlt, hclass]
    dsimp only [bind_eq_bind, bind_some]
    by_cases hdelim : table.classOf unit = .subwordDelim
    · rw [if_pos ((isSubwordDelim_bits _).mpr hdelim)]
      obtain ⟨j, cls, hskip, hle, hj, hbetween, hstop⟩ :=
        ih (table.classOf unit).bits hlt (by omega)
      refine ⟨j, cls, hskip, by omega, hj, fun i hi hij => ?_, hstop⟩
      rcases Nat.eq_or_lt_of_le hi with rfl | hi
      · exact ⟨unit, hunit, hdelim⟩
      · exact hbetween i hi hij
    · rw [if_neg (fun h => hdelim ((isSubwordDelim_bits _).mp h))]
      exact ⟨at', _, rfl, le_rfl, hat, fun i hi hij => absurd hij (by omega),
        fun _ => ⟨unit, hunit, hdelim, rfl⟩⟩

theorem trimDelimiters_spec {bound : Nat} {at' : Nat} (hbound : bound ≤ at')
    (hat : at' ≤ text.length) :
    ∃ j, trimDelimiters table text bound at' = some j ∧ bound ≤ j ∧ j ≤ at' ∧
      ∀ i, j ≤ i → i < at' → DelimiterAt table text i := by
  induction at' with
  | zero => exact ⟨0, rfl, hbound, le_rfl, fun i _ hi => absurd hi (Nat.not_lt_zero _)⟩
  | succ at' ih =>
    rw [trimDelimiters]
    by_cases hlt : bound < at' + 1
    · obtain ⟨unit, hunit, hclass⟩ := @exists_classAt table text at' hat
      rw [if_pos hlt, hclass]
      dsimp only [bind_eq_bind, bind_some]
      by_cases hdelim : table.classOf unit = .subwordDelim
      · rw [if_pos ((isSubwordDelim_bits _).mpr hdelim)]
        obtain ⟨j, htrim, hbj, hj, hbetween⟩ := ih (Nat.le_of_lt_succ hlt) (Nat.le_of_lt hat)
        refine ⟨j, htrim, hbj, Nat.le_succ_of_le hj, fun i hi hlt => ?_⟩
        rcases Nat.eq_or_lt_of_le (Nat.le_of_lt_succ hlt) with rfl | hlt
        · exact ⟨unit, hunit, hdelim⟩
        · exact hbetween i hi hlt
      · rw [if_neg (fun h => hdelim ((isSubwordDelim_bits _).mp h))]
        exact ⟨at' + 1, rfl, hbound, le_rfl, fun i hi hlt => absurd hlt (Nat.not_lt.mpr hi)⟩
    · rw [if_neg hlt]
      exact ⟨at' + 1, rfl, hbound, le_rfl, fun i hi hlt => absurd hlt (Nat.not_lt.mpr hi)⟩

theorem findBreak_spec {bound : Nat} (hbound : bound ≤ text.length)
    (hlast : last ≠ .subwordDelim) {at' : Nat} (hat : at' ≤ bound) :
    ∃ j, findBreak table text bound last.bits at' = some j ∧ at' ≤ j ∧ j ≤ bound ∧
      (∀ i, at' ≤ i → i < j → WordAt table text i) ∧ (j < bound → DelimiterAt table text j) := by
  induction hn : bound - at' generalizing at' last with
  | zero =>
    have heq : at' = bound := Nat.le_antisymm hat (Nat.le_of_sub_eq_zero hn)
    refine ⟨at', ?_, le_rfl, hat, fun i hi hj => absurd hj (by omega),
      fun hlt => absurd heq hlt.ne⟩
    rw [findBreak, if_neg (by omega)]
  | succ n ih =>
    have hlt : at' < bound := by omega
    obtain ⟨unit, hunit, hclass⟩ := @exists_classAt table text at' (lt_of_lt_of_le hlt hbound)
    rw [findBreak, if_pos hlt, hclass]
    dsimp only [bind_eq_bind, bind_some]
    by_cases hdelim : table.classOf unit = .subwordDelim
    · rw [if_pos ((isBreak_bits hlast _).mpr hdelim)]
      exact ⟨at', rfl, le_rfl, hat, fun i hi hij => absurd hij (by omega),
        fun _ => ⟨unit, hunit, hdelim⟩⟩
    · rw [if_neg (fun h => hdelim ((isBreak_bits hlast _).mp h))]
      obtain ⟨j, hfind, hle, hj, hbetween, hstop⟩ := ih hdelim hlt (by omega)
      refine ⟨j, hfind, by omega, hj, fun i hi hij => ?_, hstop⟩
      rcases Nat.eq_or_lt_of_le hi with rfl | hi
      · exact ⟨unit, hunit, hdelim⟩
      · exact hbetween i hi hij

/-- What is found to be a possessive is one. -/
theorem endsWithPossessive_spec {endBounds : Nat}
    (hbehind : endBounds = text.length ∨ DelimiterAt table text endBounds) (at' : Nat) :
    ∃ found, endsWithPossessive table text endBounds at' = some found ∧
      (found = true → PossessiveAt table text at') := by
  have hnone : ∀ {P : Prop}, false = true → P := nofun
  rw [endsWithPossessive]
  by_cases hinside : 2 < at' ∧ at' ≤ text.length
  · have hsecond : at' - 2 < text.length := by omega
    have hfirst : at' - 1 < text.length := by omega
    rw [if_neg (not_not_intro hinside), List.getElem?_eq_getElem hsecond]
    dsimp only [bind_eq_bind, bind_some]
    by_cases hapostrophe : text[at' - 2] = 0x27
    · rw [if_neg (not_not_intro hapostrophe), List.getElem?_eq_getElem hfirst]
      dsimp only [bind_some]
      by_cases hs : text[at' - 1] = 0x73 ∨ text[at' - 1] = 0x53
      · obtain ⟨unit, hunit, hclass⟩ := @exists_classAt table text (at' - 3) (by omega)
        rw [if_neg (not_not_intro hs), hclass]
        dsimp only [bind_some]
        have hpossessive : isAlpha (table.classOf unit).bits = true →
            (at' = text.length ∨ DelimiterAt table text at') → PossessiveAt table text at' := by
          refine fun hletter hend => ⟨⟨unit, hunit, hletter⟩, ?_, ?_, hinside, hend⟩
          · rw [List.getElem?_eq_getElem hsecond, hapostrophe]
          · rw [List.getElem?_eq_getElem hfirst]
            exact hs.imp (congrArg some) (congrArg some)
        by_cases hletter : isAlpha (table.classOf unit).bits = true
        · rw [if_neg (not_not_intro hletter)]
          by_cases hend : at' = endBounds
          · rw [if_pos hend]
            exact ⟨true, rfl, fun _ => hpossessive hletter (hend ▸ hbehind)⟩
          · rw [if_neg hend]
            by_cases hlt : at' < text.length
            · obtain ⟨behind, hget, hdelim⟩ := @exists_classAt table text at' hlt
              rw [if_neg (not_not_intro hlt), hdelim]
              exact ⟨_, rfl, fun h => hpossessive hletter
                (.inr ⟨behind, hget, (isSubwordDelim_bits _).mp h⟩)⟩
            · rw [if_pos hlt]
              exact ⟨false, rfl, hnone⟩
        · rw [if_pos hletter]
          exact ⟨false, rfl, hnone⟩
      · rw [if_pos hs]
        exact ⟨false, rfl, hnone⟩
    · rw [if_pos hapostrophe]
      exact ⟨false, rfl, hnone⟩
  · rw [if_pos hinside]
    exact ⟨false, rfl, hnone⟩

/-! ## The ranges of the parts -/

/-- The ranges of the parts from a place on: each is a longest run of units of a word behind
delimiters, and the next place is its end or, behind a possessive, two units later. -/
inductive Splits (table : ClassTable) (text : List UInt16) (bound : Nat) :
    Nat → List (Nat × Nat) → Prop where
  | done {p : Nat} (rest : ∀ i, p ≤ i → i < bound → DelimiterAt table text i) :
    Splits table text bound p []
  | part {p start stop q : Nat} {ranges : List (Nat × Nat)} (le : p ≤ start) (lt : start < stop)
    (inside : stop ≤ bound) (before : ∀ i, p ≤ i → i < start → DelimiterAt table text i)
    (word : ∀ i, start ≤ i → i < stop → WordAt table text i)
    (behind : stop < bound → DelimiterAt table text stop)
    (next : q = stop ∨ q = stop + 2 ∧ PossessiveAt table text q)
    (later : Splits table text bound q ranges) :
    Splits table text bound p ((start, stop) :: ranges)

namespace Splits

variable {bound p : Nat} {ranges : List (Nat × Nat)}

variable (h : Splits table text bound p ranges)

include h in
theorem le_start : ∀ range ∈ ranges, p ≤ range.1 := by
  induction h with
  | done rest => nofun
  | part le lt inside before word behind next later ih =>
    rintro range (_ | ⟨_, hmem⟩)
    · exact le
    · have hq := ih range hmem
      rcases next with rfl | ⟨rfl, -⟩ <;> omega

include h in
theorem ascending :
    ranges.Pairwise fun a b => a.2 ≤ b.1 := by
  induction h with
  | done rest => exact .nil
  | part le lt inside before word behind next later ih =>
    refine List.pairwise_cons.mpr ⟨fun range hmem => ?_, ih⟩
    have hq := later.le_start range hmem
    rcases next with rfl | ⟨rfl, -⟩
    · exact hq
    · exact Nat.le_trans (Nat.le_add_right _ _) hq

/-- A range holds units of a word and stands between delimiters and the ends of the text. -/
structure Part (table : ClassTable) (text : List UInt16) (range : Nat × Nat) : Prop where
  lt : range.1 < range.2
  inside : range.2 ≤ text.length
  word : ∀ i, range.1 ≤ i → i < range.2 → WordAt table text i
  front : range.1 = 0 ∨ 0 < range.1 ∧ DelimiterAt table text (range.1 - 1)
  behind : range.2 = text.length ∨ DelimiterAt table text range.2

include h in
theorem parts (hbound : bound ≤ text.length)
    (hbehind : bound = text.length ∨ DelimiterAt table text bound)
    (hp : p = 0 ∨ bound ≤ p ∨ DelimiterAt table text p) :
    ∀ range ∈ ranges, Part table text range := by
  induction h with
  | done rest => nofun
  | @part p start stop q ranges le lt inside before word behind next later ih =>
    have hstop : stop = text.length ∨ DelimiterAt table text stop := by
      rcases Nat.eq_or_lt_of_le inside with rfl | hlt
      · exact hbehind
      · exact .inr (behind hlt)
    have hstart : start = 0 ∨ 0 < start ∧ DelimiterAt table text (start - 1) := by
      rcases Nat.eq_or_lt_of_le le with rfl | hlt
      · rcases hp with hzero | hpast | hdelim
        · exact .inl hzero
        · omega
        · exact absurd hdelim (word p le_rfl lt).not_delimiterAt
      · exact .inr ⟨by omega, before (start - 1) (by omega) (by omega)⟩
    have hq : q = 0 ∨ bound ≤ q ∨ DelimiterAt table text q := by
      rcases next with rfl | ⟨rfl, hpossessive⟩
      · rcases Nat.lt_or_ge q bound with hlt | hge
        · exact .inr (.inr (behind hlt))
        · exact .inr (.inl hge)
      · rcases hpossessive.behind with hend | hdelim
        · exact .inr (.inl (hend ▸ hbound))
        · exact .inr (.inr hdelim)
    rintro range (_ | ⟨_, hmem⟩)
    · exact ⟨lt, Nat.le_trans inside hbound, word, hstart, hstop⟩
    · exact ih hq range hmem

include h in
/-- A unit of a word is in a part, or it is one of the two of a possessive. -/
theorem covers {i : Nat} (hp : p ≤ i) (hi : i < bound) (hword : WordAt table text i) :
    (∃ range ∈ ranges, range.1 ≤ i ∧ i < range.2) ∨
      ∃ q, PossessiveAt table text q ∧ (i = q - 2 ∨ i = q - 1) := by
  induction h with
  | done rest => exact absurd (rest i hp hi) hword.not_delimiterAt
  | @part p start stop q ranges le lt inside before word behind next later ih =>
    rcases Nat.lt_or_ge i start with hlt | hge
    · exact absurd (before i hp hlt) hword.not_delimiterAt
    · rcases Nat.lt_or_ge i stop with hlt | hstop
      · exact .inl ⟨_, List.mem_cons_self .., hge, hlt⟩
      · rcases Nat.lt_or_ge i q with hq | hq
        · rcases next with rfl | ⟨rfl, hpossessive⟩
          · omega
          · exact .inr ⟨_, hpossessive, by omega⟩
        · rcases ih hq with ⟨range, hmem, hrange⟩ | hpossessive
          · exact .inl ⟨range, List.mem_cons_of_mem _ hmem, hrange⟩
          · exact .inr hpossessive

end Splits

/-! ## The iterator -/

/-- The bounds of an iterator are inside of its text, and there are only delimiters behind. -/
structure Subwords.Bounded (table : ClassTable) (words : Subwords) : Prop where
  inside : words.endBounds ≤ words.text.length
  behind : ∀ i, words.endBounds ≤ i → i < words.text.length → DelimiterAt table words.text i

theorem Subwords.Bounded.end (h : words.Bounded table) :
    words.endBounds = words.text.length ∨ DelimiterAt table words.text words.endBounds := by
  rcases Nat.eq_or_lt_of_le h.inside with heq | hlt
  · exact .inl heq
  · exact .inr (h.behind _ le_rfl hlt)

/-- The place from which the next subword is sought. -/
def Subwords.place (words : Subwords) (stop : Nat) : Nat :=
  if words.skipPossessive then stop + 2 else stop

/-- An iterator that was advanced from a place. -/
inductive Subwords.Advanced (table : ClassTable) (words : Subwords) (p : Nat) : Prop where
  | done (none : words.stop = none)
      (rest : ∀ i, p ≤ i → i < words.endBounds → DelimiterAt table words.text i)
  | part (stop : Nat) (some : words.stop = some stop) (le : p ≤ words.current)
      (lt : words.current < stop) (inside : stop ≤ words.endBounds)
      (before : ∀ i, p ≤ i → i < words.current → DelimiterAt table words.text i)
      (word : ∀ i, words.current ≤ i → i < stop → WordAt table words.text i)
      (behind : stop < words.endBounds → DelimiterAt table words.text stop)
      (next : words.skipPossessive = true →
        stop + 2 ≤ words.endBounds ∧ PossessiveAt table words.text (stop + 2))

/-- One call of `next`. -/
theorem Subwords.next_spec (h : words.Bounded table)
    (hstop : words.stop = some stop) (hplace : words.place stop ≤ words.endBounds) :
    ∃ words', words.next table = some words' ∧ words'.text = words.text ∧
      words'.startBounds = words.startBounds ∧ words'.endBounds = words.endBounds ∧
      words'.Advanced table (words.place stop) := by
  obtain ⟨current, cls, hskip, hle, hcurrent, hbefore, hclass⟩ :=
    @skipDelimiters_spec table _ _ h.inside 0 _ hplace
  have hnext : words.next table = (do
      let (current, lastClass) ← skipDelimiters table words.text words.endBounds 0
        (words.place stop)
      if words.endBounds ≤ current then
        return { words with current := current, stop := none, skipPossessive := false }
      else
        let stop ← findBreak table words.text words.endBounds lastClass (current + 1)
        let possessive ←
          if stop + 1 < words.endBounds then
            endsWithPossessive table words.text words.endBounds (stop + 2)
          else some false
        return { words with current := current, stop := some stop, skipPossessive := possessive }) := by
    rw [Subwords.next, hstop]
    rfl
  rw [hnext, hskip]
  dsimp only [bind_eq_bind, bind_some]
  rcases Nat.lt_or_ge current words.endBounds with hlt | hge
  · obtain ⟨unit, hunit, hword, rfl⟩ := hclass hlt
    obtain ⟨last, hfind, hlast, hinside, hbetween, hbehind⟩ :=
      findBreak_spec h.inside hword (Nat.succ_le_of_lt hlt)
    rw [if_neg (Nat.not_le.mpr hlt), hfind]
    dsimp only [bind_some]
    have hword' : ∀ i, current ≤ i → i < last → WordAt table words.text i := by
      intro i hi hlt
      rcases Nat.eq_or_lt_of_le hi with rfl | hi
      · exact ⟨unit, hunit, hword⟩
      · exact hbetween i hi hlt
    by_cases hroom : last + 1 < words.endBounds
    · obtain ⟨found, hfound, hpossessive⟩ := endsWithPossessive_spec h.end (last + 2)
      rw [if_pos hroom, hfound]
      exact ⟨_, rfl, rfl, rfl, rfl, .part last rfl hle hlast hinside hbefore hword' hbehind
        fun htrue => ⟨hroom, hpossessive htrue⟩⟩
    · rw [if_neg hroom]
      exact ⟨_, rfl, rfl, rfl, rfl, .part last rfl hle hlast hinside hbefore hword' hbehind nofun⟩
  · rw [if_pos hge]
    exact ⟨_, rfl, rfl, rfl, rfl, .done rfl fun i hi hlt =>
      hbefore i hi (Nat.lt_of_lt_of_le hlt hge)⟩

theorem Subwords.over_spec (table : ClassTable) (text : List UInt16) :
    ∃ words, Subwords.over table text = some words ∧ words.text = text ∧ words.Bounded table ∧
      words.stop = some 0 ∧ words.place 0 = 0 := by
  obtain ⟨start, cls, hskip, -, hstart, -⟩ :=
    @skipDelimiters_spec table _ _ (le_refl text.length) 0 _ (Nat.zero_le _)
  obtain ⟨bound, htrim, -, hbound, hbehind⟩ :=
    @trimDelimiters_spec table _ _ _ hstart (le_refl text.length)
  have hend : bound = text.length ∨ DelimiterAt table text bound := by
    rcases Nat.eq_or_lt_of_le hbound with heq | hlt
    · exact .inl heq
    · exact .inr (hbehind bound le_rfl hlt)
  obtain ⟨found, hfound, -⟩ := endsWithPossessive_spec hend bound
  refine ⟨⟨text, start, bound, start, some 0, false, found⟩, ?_, rfl, ⟨hbound, hbehind⟩, rfl, rfl⟩
  rw [Subwords.over, hskip]
  dsimp only [bind_eq_bind, bind_some]
  rw [htrim]
  dsimp only [bind_some]
  rw [hfound]
  rfl

/-! ## Characters -/

/-- A place between the two units of a character. -/
def InsidePair (text : List UInt16) (i : Nat) : Prop :=
  ∃ before high low after, text = before ++ high :: low :: after ∧ i = before.length + 1 ∧
    (0xD800 ≤ high ∧ high ≤ 0xDBFF) ∧ (0xDC00 ≤ low ∧ low ≤ 0xDFFF)

theorem not_insidePair_zero (text : List UInt16) : ¬ InsidePair text 0 := by
  rintro ⟨before, high, low, after, -, hi, -⟩
  cases hi

theorem not_insidePair_length (text : List UInt16) : ¬ InsidePair text text.length := by
  rintro ⟨before, high, low, after, rfl, hi, -⟩
  rw [List.length_append, List.length_cons, List.length_cons] at hi
  omega

theorem surrogate_high (h : 0xD800 ≤ unit ∧ unit ≤ 0xDBFF) :
    isSurrogate unit = true :=
  decide_eq_true ⟨h.1, UInt16.le_trans h.2 (by decide)⟩

theorem surrogate_low (h : 0xDC00 ≤ unit ∧ unit ≤ 0xDFFF) :
    isSurrogate unit = true :=
  decide_eq_true ⟨UInt16.le_trans (by decide) h.1, h.2⟩

theorem DelimiterAt.not_surrogate (h : DelimiterAt table text i)
    (hunit : text[i]? = some unit) (hsurrogate : isSurrogate unit = true) : False := by
  obtain ⟨other, hother, hdelim⟩ := h
  cases hunit.symm.trans hother
  rw [table.surrogates unit hsurrogate] at hdelim
  cases hdelim

theorem DelimiterAt.not_insidePair (h : DelimiterAt table text i) :
    ¬ InsidePair text i := by
  rintro ⟨before, high, low, after, rfl, rfl, -, hlow⟩
  refine h.not_surrogate ?_ (surrogate_low hlow)
  rw [List.getElem?_append_right (Nat.le_add_right _ 1), Nat.add_sub_cancel_left]
  rfl

theorem DelimiterAt.not_insidePair_succ (h : DelimiterAt table text (i - 1))
    (hi : 0 < i) : ¬ InsidePair text i := by
  rintro ⟨before, high, low, after, rfl, rfl, hhigh, -⟩
  refine h.not_surrogate ?_ (surrogate_high hhigh)
  rw [Nat.add_sub_cancel, List.getElem?_append_right le_rfl, Nat.sub_self]
  rfl

theorem Splits.Part.not_insidePair {range : Nat × Nat} (h : Splits.Part table text range) :
    ¬ InsidePair text range.1 ∧ ¬ InsidePair text range.2 := by
  constructor
  · rcases h.front with hzero | ⟨hpos, hdelim⟩
    · rw [hzero]
      exact not_insidePair_zero text
    · exact hdelim.not_insidePair_succ hpos
  · rcases h.behind with hend | hdelim
    · rw [hend]
      exact not_insidePair_length text
    · exact hdelim.not_insidePair

theorem InsidePair.cons {rest : List UInt16} {i : Nat} (h : InsidePair rest i) (unit : UInt16) :
    InsidePair (unit :: rest) (i + 1) := by
  obtain ⟨before, high, low, after, rfl, rfl, hhigh, hlow⟩ := h
  exact ⟨unit :: before, high, low, after, rfl, rfl, hhigh, hlow⟩

/-- A place that is in no character splits the characters. -/
theorem exists_chars {chars : List Char} (hi : i ≤ (chars.flatMap charUtf16).length)
    (h : ¬ InsidePair (chars.flatMap charUtf16) i) :
    ∃ before after, chars = before ++ after ∧ (before.flatMap charUtf16).length = i := by
  induction chars generalizing i with
  | nil => exact ⟨[], [], rfl, (Nat.le_zero.mp hi).symm⟩
  | cons c chars ih =>
    cases i with
    | zero => exact ⟨[], c :: chars, rfl, rfl⟩
    | succ i =>
      rw [List.flatMap_cons] at hi h
      rcases Nat.lt_or_ge c.toNat 0x10000 with hsmall | hlarge
      · obtain ⟨unit, hunits, -, -⟩ := charUtf16_single hsmall
        rw [hunits] at hi h
        obtain ⟨before, after, rfl, hlength⟩ := ih (Nat.le_of_succ_le_succ hi)
          fun hpair => h (hpair.cons unit)
        refine ⟨c :: before, after, rfl, ?_⟩
        rw [List.flatMap_cons, hunits, List.singleton_append, List.length_cons, hlength]
      · obtain ⟨unit, next, hunits, hhigh, hlow, -⟩ := charUtf16_pair hlarge
        rw [hunits] at hi h
        cases i with
        | zero => exact absurd ⟨[], unit, next, _, rfl, rfl, hhigh, hlow⟩ h
        | succ i =>
          obtain ⟨before, after, rfl, hlength⟩ :=
            ih (Nat.le_of_succ_le_succ (Nat.le_of_succ_le_succ hi))
              fun hpair => h ((hpair.cons next).cons unit)
          refine ⟨c :: before, after, rfl, ?_⟩
          rw [List.flatMap_cons, hunits, List.length_append, hlength]
          exact Nat.add_comm _ _

theorem length_flatMap_append (before after : List Char) :
    ((before ++ after).flatMap charUtf16).length =
      (before.flatMap charUtf16).length + (after.flatMap charUtf16).length := by
  rw [List.flatMap_append, List.length_append]

/-- The units between two places that are in no character are the text of their characters. -/
theorem encode_decode_slice {term : String} {start : Nat} (hle : start ≤ stop)
    (hstop : stop ≤ (encodeUtf16 term).length) (hstart : ¬ InsidePair (encodeUtf16 term) start)
    (hend : ¬ InsidePair (encodeUtf16 term) stop) :
    encodeUtf16 (String.ofList (decodeUtf16
      (((encodeUtf16 term).drop start).take (stop - start)))) =
      ((encodeUtf16 term).drop start).take (stop - start) := by
  rw [encodeUtf16] at hstop hstart hend
  obtain ⟨most, after, hchars, hmost⟩ := exists_chars hstop hend
  -- the start splits what stands in front of the end
  have hstart' : ¬ InsidePair (most.flatMap charUtf16) start := by
    rintro ⟨before, high, low, later, hunits, hi, hpair⟩
    refine hstart ⟨before, high, low, later ++ after.flatMap charUtf16, ?_, hi, hpair⟩
    rw [hchars, List.flatMap_append, hunits]
    simp
  obtain ⟨before, middle, rfl, hbefore⟩ := exists_chars (hmost ▸ hle) hstart'
  have hslice : ((encodeUtf16 term).drop start).take (stop - start) =
      middle.flatMap charUtf16 := by
    rw [length_flatMap_append] at hmost
    rw [encodeUtf16, hchars, List.flatMap_append, List.flatMap_append, List.append_assoc,
      List.drop_append_of_le_length hbefore.ge, List.drop_of_length_le hbefore.le,
      List.nil_append, List.take_append_of_le_length (by omega),
      List.take_of_length_le (by omega)]
  rw [hslice, decodeUtf16_chars, encodeUtf16, String.toList_ofList]

/-! ## The parts -/

/-- The units of a range. -/
def rangeUnits (text : List UInt16) (range : Nat × Nat) : List UInt16 :=
  (text.drop range.1).take (range.2 - range.1)

/-- The offsets of a token span its term. -/
def Token.Spans (token : Token) : Prop :=
  token.startOffset.toNat + (encodeUtf16 token.term).length = token.endOffset.toNat

/-- A part has the text of a range, and its offsets where the token spans its term. -/
structure MadeOf (token : Token) (part : StagedToken) (range : Nat × Nat) : Prop where
  term : part.token.term =
    String.ofList (decodeUtf16 (rangeUnits (encodeUtf16 token.term) range))
  offsets : token.Spans → range.1 ≤ range.2 → range.2 ≤ (encodeUtf16 token.term).length →
    part.token.startOffset.toNat = token.startOffset.toNat + range.1 ∧
      part.token.endOffset.toNat = token.startOffset.toNat + range.2

theorem toNat_add_ofNat {start «end» : UInt32} {length : Nat}
    (h : start.toNat + length = «end».toNat) (hi : i ≤ length) :
    (start + UInt32.ofNat i).toNat = start.toNat + i := by
  have hlt := «end».toNat_lt
  rw [UInt32.toNat_add, UInt32.toNat_ofNat']
  omega

theorem partOffsets_spans {token : Token} (h : token.Spans) (words : Subwords)
    (hcurrent : words.current ≤ stop) (hstop : stop ≤ (encodeUtf16 token.term).length) :
    (partOffsets token (encodeUtf16 token.term).length words stop).1.toNat =
        token.startOffset.toNat + words.current ∧
      (partOffsets token (encodeUtf16 token.term).length words stop).2.toNat =
        token.startOffset.toNat + stop := by
  have hlength : ¬ (token.endOffset - token.startOffset).toNat ≠ (encodeUtf16 token.term).length := by
    have hlt := token.endOffset.toNat_lt
    have hstart := token.startOffset.toNat_lt
    rw [Token.Spans] at h
    rw [not_not, UInt32.toNat_sub]
    omega
  rw [partOffsets, if_neg hlength]
  exact ⟨toNat_add_ofNat h (Nat.le_trans hcurrent hstop), toNat_add_ofNat h hstop⟩

theorem splitParts_spec (token : Token) (stopState : EndState) {p : Nat}
    (h : words.Bounded table) (htext : words.text = encodeUtf16 token.term)
    (hadvanced : words.Advanced table p) (positions : Positions) :
    ∃ parts accumulated ranges,
      Token.splitParts table token stopState words positions = some (parts, accumulated) ∧
      Splits table words.text words.endBounds p ranges ∧
      List.Forall₂ (MadeOf token) parts ranges := by
  induction hn : words.endBounds - p using Nat.strong_induction_on
    generalizing words p positions with
  | _ n ih =>
    cases hadvanced with
    | done none rest =>
      refine ⟨[], positions.accumulated, [], ?_, .done rest, .nil⟩
      rw [Token.splitParts, none]
    | part stop some le lt inside before word behind next =>
      have hstop : stop ≤ words.text.length := Nat.le_trans inside h.inside
      have hplace : words.place stop ≤ words.endBounds ∧ stop ≤ words.place stop ∧
          (words.place stop = stop ∨
            words.place stop = stop + 2 ∧ PossessiveAt table words.text (words.place stop)) := by
        rw [Subwords.place]
        by_cases hskip : words.skipPossessive = true
        · rw [if_pos hskip]
          exact ⟨(next hskip).1, Nat.le_add_right _ _, .inr ⟨rfl, (next hskip).2⟩⟩
        · rw [if_neg hskip]
          exact ⟨inside, le_rfl, .inl rfl⟩
      obtain ⟨words', hnext, htext', -, hbounds, hadvanced'⟩ := Subwords.next_spec h some hplace.1
      have hbounded : words'.Bounded table := by
        constructor
        · rw [hbounds, htext']
          exact h.inside
        · rw [hbounds, htext']
          exact h.behind
      obtain ⟨parts, accumulated, ranges, hparts, hsplits, hmade⟩ :=
        ih (words'.endBounds - words.place stop) (by omega) hbounded (htext'.trans htext)
          hadvanced' positions.position.2 rfl
      rw [htext', hbounds] at hsplits
      refine ⟨⟨⟨String.ofList (decodeUtf16 (rangeUnits words.text (words.current, stop))),
          positions.position.1, (partOffsets token words.text.length words stop).1,
          (partOffsets token words.text.length words stop).2, token.tokenType⟩, stopState⟩ :: parts,
        accumulated, (words.current, stop) :: ranges, ?_,
        .part le lt inside before word behind hplace.2.2 hsplits, .cons ⟨?_, ?_⟩ hmade⟩
      · rw [Token.splitParts, some]
        dsimp only [bind_eq_bind]
        rw [sliceUnits, if_pos ⟨lt.le, hstop⟩, bind_some, hnext, bind_some, hparts]
        rfl
      · rw [htext]
      · intro hspans _ hinside
        rw [htext]
        exact partOffsets_spans hspans words lt.le hinside

/-- Ranges that lose no text: they ascend, are not empty, hold no delimiter, split no character
and cover every unit that is neither a delimiter nor of a possessive. -/
structure LosesNoText (table : ClassTable) (text : List UInt16) (ranges : List (Nat × Nat)) :
    Prop where
  ascending : ranges.Pairwise fun a b => a.2 ≤ b.1
  nonempty : ∀ range ∈ ranges, range.1 < range.2 ∧ range.2 ≤ text.length
  noDelimiter : ∀ range ∈ ranges, ∀ i, range.1 ≤ i → i < range.2 → ¬ DelimiterAt table text i
  wholePairs : ∀ range ∈ ranges, ¬ InsidePair text range.1 ∧ ¬ InsidePair text range.2
  covers : ∀ i < text.length, ¬ DelimiterAt table text i →
    (∃ range ∈ ranges, range.1 ≤ i ∧ i < range.2) ∨
      ∃ q, PossessiveAt table text q ∧ (i = q - 2 ∨ i = q - 1)

theorem Splits.losesNoText (h : words.Bounded table)
    {ranges : List (Nat × Nat)} (hsplits : Splits table words.text words.endBounds 0 ranges) :
    LosesNoText table words.text ranges := by
  have hparts := hsplits.parts h.inside h.end (.inl rfl)
  refine ⟨hsplits.ascending, fun range hmem => ⟨(hparts range hmem).lt, (hparts range hmem).inside⟩,
    fun range hmem i hi hlt => ((hparts range hmem).word i hi hlt).not_delimiterAt,
    fun range hmem => (hparts range hmem).not_insidePair, fun i hi hword => ?_⟩
  have hword' := (wordAt_or_delimiterAt hi).resolve_right hword
  rcases Nat.lt_or_ge i words.endBounds with hlt | hge
  · exact hsplits.covers (Nat.zero_le _) hlt hword'
  · exact absurd (h.behind i hge hi) hword

/-- A part is a slice of the term, and its offsets are those of the slice when the offsets of the
token span the term. -/
structure IsSlice (token : Token) (part : StagedToken) (range : Nat × Nat) : Prop where
  units : encodeUtf16 part.token.term = rangeUnits (encodeUtf16 token.term) range
  offsets : token.Spans →
    part.token.startOffset.toNat = token.startOffset.toNat + range.1 ∧
      part.token.endOffset.toNat = token.startOffset.toNat + range.2

theorem MadeOf.isSlice {token : Token} {parts : List StagedToken} {ranges : List (Nat × Nat)}
    (h : List.Forall₂ (MadeOf token) parts ranges)
    (hranges : LosesNoText table (encodeUtf16 token.term) ranges) :
    List.Forall₂ (IsSlice token) parts ranges := by
  have hpart : ∀ part range, range ∈ ranges → MadeOf token part range →
      IsSlice token part range := by
    intro part range hmem hmade
    obtain ⟨hlt, hinside⟩ := hranges.nonempty range hmem
    obtain ⟨hstart, hend⟩ := hranges.wholePairs range hmem
    refine ⟨?_, fun hspans => hmade.offsets hspans hlt.le hinside⟩
    rw [hmade.term]
    exact encode_decode_slice hlt.le hinside hstart hend
  clear hranges
  induction h with
  | nil => exact .nil
  | cons hmade hlater ih =>
    refine .cons (hpart _ _ (List.mem_cons_self ..) hmade) (ih fun part range hmem => ?_)
    exact hpart part range (List.mem_cons_of_mem _ hmem)

/-- The splitting of a token returns.  In front of the parts there is at most the original, and
the parts are slices of the term that lose no text. -/
theorem splitToken_losesNoText (table : ClassTable) (token : Token) (stopState : EndState)
    (preserveOriginal : Bool) (accumulated : Int) :
    ∃ originals parts accumulated' ranges,
      splitToken table token stopState preserveOriginal accumulated =
        some (originals ++ parts, accumulated') ∧
      originals.length ≤ 1 ∧
      (∀ original ∈ originals, preserveOriginal = true ∧ original.token.term = token.term) ∧
      LosesNoText table (encodeUtf16 token.term) ranges ∧
      List.Forall₂ (IsSlice token) parts ranges := by
  obtain ⟨fresh, hover, htext, hbounded, hstop, hplace⟩ :=
    Subwords.over_spec table (encodeUtf16 token.term)
  have hstart : fresh.place 0 ≤ fresh.endBounds := by
    rw [hplace]
    exact Nat.zero_le _
  obtain ⟨words, hnext, htext', -, hbounds, hadvanced⟩ :=
    Subwords.next_spec hbounded hstop hstart
  have hwords : words.text = encodeUtf16 token.term := htext'.trans htext
  have hbounded' : words.Bounded table := by
    constructor
    · rw [hbounds, htext']
      exact hbounded.inside
    · rw [hbounds, htext']
      exact hbounded.behind
  rw [hplace] at hadvanced
  have hloses : ∀ {ranges}, Splits table words.text words.endBounds 0 ranges →
      LosesNoText table (encodeUtf16 token.term) ranges := by
    intro ranges hsplits
    rw [← hwords]
    exact hsplits.losesNoText hbounded'
  rw [splitToken]
  dsimp only [Option.bind_eq_bind]
  rw [hover, Option.bind_some, hnext, Option.bind_some]
  by_cases hwhole : words.current = 0 ∧ words.stop = some (encodeUtf16 token.term).length
  · -- a word of no delimiters
    rw [if_pos hwhole]
    cases hadvanced with
    | done none rest =>
      rw [none] at hwhole
      exact absurd hwhole.2 nofun
    | part stop some le lt inside before word behind next =>
      obtain rfl : stop = (encodeUtf16 token.term).length :=
        Option.some.inj (some.symm.trans hwhole.2)
      have hend : ∀ i, (encodeUtf16 token.term).length ≤ i → i < words.endBounds →
          DelimiterAt table words.text i := by
        intro i hi hlt
        have := hbounded'.inside
        rw [hwords] at this
        omega
      refine ⟨[], _, _, [(words.current, (encodeUtf16 token.term).length)], rfl, Nat.zero_le _,
        nofun, hloses (.part le lt inside before word behind (.inl rfl) (.done hend)),
        .cons ⟨?_, fun hspans => ?_⟩ .nil⟩
      · rw [rangeUnits, hwhole.1, List.drop_zero, Nat.sub_zero, List.take_length]
      · rw [hwhole.1]
        exact ⟨rfl, hspans.symm⟩
  · rw [if_neg hwhole]
    by_cases hnothing : words.stop = none ∧ ¬ preserveOriginal = true
    · rw [if_pos hnothing]
      cases hadvanced with
      | done none rest =>
        exact ⟨[], [], _, [], rfl, Nat.zero_le _, nofun, hloses (.done rest), .nil⟩
      | part stop some le lt inside before word behind next =>
        rw [some] at hnothing
        exact absurd hnothing.1 nofun
    · rw [if_neg hnothing]
      cases preserveOriginal with
      | true =>
        obtain ⟨parts, accumulated', ranges, hparts, hsplits, hmade⟩ :=
          splitParts_spec token stopState hbounded' hwords hadvanced ⟨0, false, false⟩
        rw [if_pos rfl, hparts]
        refine ⟨[_], parts, accumulated', ranges, rfl, le_rfl, ?_, hloses hsplits,
          MadeOf.isSlice hmade (hloses hsplits)⟩
        rintro original (_ | ⟨_, hmem⟩)
        · exact ⟨rfl, rfl⟩
        · cases hmem
      | false =>
        obtain ⟨parts, accumulated', ranges, hparts, hsplits, hmade⟩ :=
          splitParts_spec token stopState hbounded' hwords hadvanced
            ⟨accumulated + token.positionIncrement.toNat, false, true⟩
        rw [if_neg Bool.false_ne_true, hparts]
        exact ⟨[], parts, accumulated', ranges, rfl, Nat.zero_le _, nofun, hloses hsplits,
          MadeOf.isSlice hmade (hloses hsplits)⟩

end Froe.WordDelimiter
