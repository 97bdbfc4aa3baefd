import Froe.Lib.ContinuationMatcher

/-!
# Patterns of property names

A pattern is split at its last slash into a parent path, which is compared for equality, and
an expression for the name.  The expression is read by recursive descent and run by a
backtracking matcher with continuations.
-/

namespace Froe.NamePatterns

open ContinuationMatcher

/-! ## Expressions -/

/-- How often an atom may occur. -/
inductive Quantifier where
  | one
  | zeroOrMore
  | oneOrMore
  | zeroOrOne
deriving DecidableEq

/-- A character or a range of a class. -/
inductive ClassMember where
  | single (one : Char)
  | range (first last : Char)
deriving DecidableEq

/-- A class in brackets. -/
structure CharacterClass where
  negated : Bool
  members : List ClassMember
deriving DecidableEq

/-- Whether a member has a character. -/
def ClassMember.holds (character : Char) : ClassMember → Bool
  | .single one => one = character
  | .range first last => first ≤ character && character ≤ last

/-- Whether a class has a character. -/
def CharacterClass.contains (characterClass : CharacterClass) (character : Char) : Bool :=
  (characterClass.members.any fun member => member.holds character) != characterClass.negated

mutual

/-- What a quantifier stands behind. -/
inductive Atom where
  | literal (character : Char)
  | any
  | characterClass (characterClass : CharacterClass)
  | group (alternation : Alternation)

/-- A run of quantified atoms. -/
inductive Sequence where
  | nil
  | cons (atom : Atom) (quantifier : Quantifier) (rest : Sequence)

/-- One branch or several. -/
inductive Alternation where
  | one (branch : Sequence)
  | or (branch : Sequence) (rest : Alternation)

end

mutual

/-- Whether an atom holds a quantifier anywhere inside it. -/
def Atom.containsQuantifier : Atom → Bool
  | .group alternation => alternation.containsQuantifier
  | _ => false

/-- Whether a quantifier occurs in a sequence. -/
def Sequence.containsQuantifier : Sequence → Bool
  | .nil => false
  | .cons atom quantifier rest =>
    quantifier ≠ .one || atom.containsQuantifier || rest.containsQuantifier

/-- Whether a quantifier occurs in an alternation. -/
def Alternation.containsQuantifier : Alternation → Bool
  | .one branch => branch.containsQuantifier
  | .or branch rest => branch.containsQuantifier || rest.containsQuantifier

end

/-! ## The parser -/

/-- An escape, accepted only where it means the character itself. -/
def escape : List Char → Except String (Char × List Char)
  | [] => .error "a trailing `\\`"
  | character :: input =>
    if character.isAlphanum then .error s!"the escape `\\{character}`"
    else .ok (character, input)

/-- The end of a range, behind its `-`. -/
def rangeEnd : List Char → Except String (Char × List Char)
  | [] => .error "an unclosed `[`"
  | '\\' :: input => escape input
  | character :: input => .ok (character, input)

/-- One character of a class; a `]` closes the class unless it stands first. -/
def classCharacter (isFirst : Bool) : List Char → Except String (Option Char × List Char)
  | [] => .error "an unclosed `[`"
  | character :: input =>
    if character = ']' ∧ ¬ isFirst then .ok (none, input)
    else if character = '[' then .error "a nested character class"
    else if character = '&' then .error "a class intersection"
    else if character = '\\' then do
      let (character, input) ← escape input
      return (some character, input)
    else .ok (some character, input)

/-- Whether a `-` opens a range: unless it is the last character before the `]`. -/
def opensRange : List Char → Bool
  | '-' :: next :: _ => next ≠ ']'
  | _ => false

/-- The members of a class.  Every round reads a character. -/
def classMembers : Nat → Bool → List Char → Except String (List ClassMember × List Char)
  | 0, _, _ => .error "an unclosed `[`"
  | rounds + 1, isFirst, input => do
    let (character, input) ← classCharacter isFirst input
    match character with
    | none => return ([], input)
    | some character =>
      if opensRange input then do
        let (last, input) ← rangeEnd input.tail
        if last < character then .error "a range whose end precedes its start"
        else do
          let (members, input) ← classMembers rounds false input
          return (.range character last :: members, input)
      else do
        let (members, input) ← classMembers rounds false input
        return (.single character :: members, input)

/-- Parses a class behind its bracket. -/
def characterClass (input : List Char) : Except String (CharacterClass × List Char) :=
  let negated := input.head? = some '^'
  let input := if negated then input.tail else input
  do
    let (members, input) ← classMembers (input.length + 1) true input
    return (⟨negated, members⟩, input)

/-- The characters of quantifiers. -/
def isQuantifier (character : Char) : Bool :=
  character = '*' || character = '+' || character = '?'

/-- The quantifier of a character. -/
def quantifierOf : Char → Option Quantifier
  | '*' => some .zeroOrMore
  | '+' => some .oneOrMore
  | '?' => some .zeroOrOne
  | _ => none

/-- Parses a quantifier, of which only one may stand behind an atom. -/
def quantifier : List Char → Except String (Quantifier × List Char)
  | [] => .ok (.one, [])
  | character :: input =>
    match quantifierOf character with
    | some quantifier =>
      if input.head?.any isQuantifier then .error "a doubled quantifier" else .ok (quantifier, input)
    | none =>
      if character = '{' then .error "a counted quantifier `\x7b…\x7d`"
      else .ok (.one, character :: input)

mutual

/-- `branch ( '|' branch )*`.  The rounds bound the depth of the descent; `total` is the length of
the whole text. -/
def alternation (total : Nat) : Nat → Bool → List Char → Except String (Alternation × List Char)
  | 0, _, _ => .error "too deep"
  | rounds + 1, outermost, input => do
    let (branch, input) ← sequence total rounds outermost input
    match input with
    | '|' :: input =>
      let (rest, input) ← alternation total rounds outermost input
      return (.or branch rest, input)
    | input => return (.one branch, input)

/-- A run of quantified atoms.  An anchor is dropped at the ends of the whole text. -/
def sequence (total : Nat) : Nat → Bool → List Char → Except String (Sequence × List Char)
  | 0, _, _ => .error "too deep"
  | _ + 1, _, [] => .ok (.nil, [])
  | rounds + 1, outermost, character :: input => do
    if character = '|' ∨ character = ')' then return (.nil, character :: input)
    else if character = '^' ∧ outermost ∧ (character :: input).length = total then
      sequence total rounds outermost input
    else if character = '$' ∧ outermost ∧ input = [] then sequence total rounds outermost input
    else if character = '^' ∨ character = '$' then .error "an anchor anywhere but at the ends"
    else
      let (atom, input) ← atom total rounds (character :: input)
      let (quantifier, input) ← quantifier input
      if quantifier ≠ .one ∧ atom.containsQuantifier then
        .error "a quantifier over a quantified group"
      else
        let (rest, input) ← sequence total rounds outermost input
        return (.cons atom quantifier rest, input)

/-- Parses an atom. -/
def atom (total : Nat) : Nat → List Char → Except String (Atom × List Char)
  | 0, _ => .error "too deep"
  | _ + 1, [] => .error "an atom was expected"
  | rounds + 1, '(' :: input => do
    if input.head? = some '?' then
      .error "a group flag, a look-around or a non-capturing group"
    else
      let (inner, input) ← alternation total rounds false input
      match input with
      | ')' :: input => return (.group inner, input)
      | _ => .error "an unclosed `(`"
  | _ + 1, '[' :: input => do
    let (characterClass, input) ← characterClass input
    return (.characterClass characterClass, input)
  | _ + 1, '.' :: input => .ok (.any, input)
  | _ + 1, '\\' :: input => do
    let (character, input) ← escape input
    return (.literal character, input)
  | _ + 1, character :: input =>
    if character = ']' ∨ character = '\x7d' then .error "an unmatched `]` or `\x7d`"
    else .ok (.literal character, input)

end

/-- Reads a whole expression. -/
def parseExpression (units : List Char) : Except String Alternation := do
  let (parsed, input) ← alternation units.length (3 * units.length + 4) true units
  if input = [] then return parsed
  else .error s!"an unmatched `)` at {units.length - input.length}"

/-! ## The matcher -/

/-- Matches as often as a quantifier says. -/
def quantified (quantifier : Quantifier) (m : Matcher Char) : Matcher Char :=
  match quantifier with
  | .one => m
  | .zeroOrOne => orElse m empty
  | .zeroOrMore => star m
  | .oneOrMore => seq m (star m)

mutual

/-- Matches an atom. -/
def Atom.matchesFrom : Atom → Matcher Char
  | .literal expected => symbol (· = expected)
  | .any => symbol fun _ => true
  | .characterClass characterClass => symbol characterClass.contains
  | .group alternation => alternation.matchesFrom

/-- Matches a sequence. -/
def Sequence.matchesFrom : Sequence → Matcher Char
  | .nil => empty
  | .cons atom quantifier rest => seq (quantified quantifier atom.matchesFrom) rest.matchesFrom

/-- Matches an alternation. -/
def Alternation.matchesFrom : Alternation → Matcher Char
  | .one branch => branch.matchesFrom
  | .or branch rest => orElse branch.matchesFrom rest.matchesFrom

end

/-- Whether an alternation matches a whole name. -/
def Alternation.matchesWhole (alternation : Alternation) (input : List Char) : Bool :=
  alternation.matchesFrom input List.isEmpty

/-! ## Patterns -/

/-- The pattern that every name matches. -/
def allProperties : List Char := "^[^\\/]*$".toList

/-- Everything before the last slash. -/
def parentPathOf (path : List Char) : List Char :=
  if '/' ∈ path then
    let parent := (path.reverse.dropWhile (· ≠ '/')).tail.reverse
    if parent = [] then ['/'] else parent
  else []

/-- Everything after the last slash. -/
def nameOf (path : List Char) : List Char := (path.reverse.takeWhile (· ≠ '/')).reverse

/-- The error for a pattern outside the subset. -/
structure UnsupportedNamePattern where
  definitionPath : String
  pattern : String
  reason : String

/-- A parsed pattern. -/
structure NamePattern where
  text : String
  parentPath : List Char
  expression : Alternation

/-- The parent path and the expression of a pattern's text. -/
def patternParts (text : List Char) : List Char × List Char :=
  if text = allProperties then ([], text) else (parentPathOf text, nameOf text)

/-- Parses the pattern of a definition. -/
def NamePattern.parse (definitionPath text : String) :
    Except UnsupportedNamePattern NamePattern :=
  match parseExpression (patternParts text.toList).2 with
  | .ok expression => .ok ⟨text, (patternParts text.toList).1, expression⟩
  | .error reason => .error ⟨definitionPath, text, reason⟩

/-- Whether a pattern matches the path of a property. -/
def NamePattern.matches (pattern : NamePattern) (propertyPath : String) : Bool :=
  if pattern.parentPath ≠ parentPathOf propertyPath.toList then false
  else pattern.expression.matchesWhole (nameOf propertyPath.toList)

/-! ## The language of an expression -/

/-- The words of a quantified atom. -/
def quantifiedLanguage (quantifier : Quantifier) (l : Language Char) : Language Char :=
  match quantifier with
  | .one => l
  | .zeroOrOne => l + 1
  | .zeroOrMore => KStar.kstar l
  | .oneOrMore => l * KStar.kstar l

mutual

/-- The words of an atom. -/
def Atom.language : Atom → Language Char
  | .literal expected => {[expected]}
  | .any => {word | word.length = 1}
  | .characterClass characterClass => {word | ∃ a, word = [a] ∧ characterClass.contains a = true}
  | .group alternation => alternation.language

/-- The words of a sequence. -/
def Sequence.language : Sequence → Language Char
  | .nil => 1
  | .cons atom quantifier rest => quantifiedLanguage quantifier atom.language * rest.language

/-- The words of an alternation. -/
def Alternation.language : Alternation → Language Char
  | .one branch => branch.language
  | .or branch rest => branch.language + rest.language

end

/-- A quantified matcher decides the quantified words. -/
theorem decides_quantified {m : Matcher Char} {l : Language Char} (h : Decides m l)
    (quantifier : Quantifier) :
    Decides (quantified quantifier m) (quantifiedLanguage quantifier l) := by
  cases quantifier with
  | one => exact h
  | zeroOrOne => exact h.orElse decides_empty
  | zeroOrMore => exact h.star
  | oneOrMore => exact h.seq h.star

mutual

theorem Atom.decides (a : Atom) : Decides a.matchesFrom a.language := by
  cases a with
  | literal expected =>
    have heq : ({[expected]} : Language Char) = {word | ∃ a, word = [a] ∧ decide (a = expected) = true} := by
      ext word
      constructor
      · rintro rfl
        exact ⟨expected, rfl, decide_eq_true rfl⟩
      · rintro ⟨a, rfl, ha⟩
        rw [of_decide_eq_true ha]
        rfl
    rw [Atom.language, heq, Atom.matchesFrom]
    exact decides_symbol _
  | any =>
    have heq : ({word | word.length = 1} : Language Char) = {word | ∃ a, word = [a] ∧ true = true} := by
      ext word
      constructor
      · intro hlength
        obtain ⟨a, ha⟩ := List.length_eq_one_iff.mp hlength
        exact ⟨a, ha, rfl⟩
      · rintro ⟨a, rfl, -⟩
        rfl
    rw [Atom.language, heq, Atom.matchesFrom]
    exact decides_symbol _
  | characterClass c =>
    rw [Atom.language, Atom.matchesFrom]
    exact decides_symbol _
  | group alternation =>
    rw [Atom.language, Atom.matchesFrom]
    exact alternation.decides

theorem Sequence.decides (s : Sequence) : Decides s.matchesFrom s.language := by
  cases s with
  | nil =>
    rw [Sequence.language, Sequence.matchesFrom]
    exact decides_empty
  | cons atom quantifier rest =>
    rw [Sequence.language, Sequence.matchesFrom]
    exact (decides_quantified atom.decides quantifier).seq rest.decides

/-- The matcher of an alternation decides its words. -/
theorem Alternation.decides (a : Alternation) : Decides a.matchesFrom a.language := by
  cases a with
  | one branch =>
    rw [Alternation.language, Alternation.matchesFrom]
    exact branch.decides
  | or branch rest =>
    rw [Alternation.language, Alternation.matchesFrom]
    exact branch.decides.orElse rest.decides

end

/-- An expression matches exactly the words of its language. -/
theorem Alternation.matchesWhole_iff (a : Alternation) (input : List Char) :
    a.matchesWhole input = true ↔ input ∈ a.language := a.decides.whole input

end Froe.NamePatterns
