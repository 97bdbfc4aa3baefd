import Froe.Lib.Except
import Froe.Lucene.NamePattern

/-!
# The grammar of name patterns

The documented subset: literals, any character, groups, alternatives, quantified atoms,
classes, escapes, and the anchors at the ends.  The parser also takes what is loosely
spelled: a quantifier character as a literal where an atom is expected, and a bracket as the
end of a range.  It accepts exactly the loosely spelled texts (`parseExpression_ok_iff`).
-/

namespace Froe.NamePatterns

open List (append_assoc)
open Except (bind_ok_iff pure_ok_iff)

/-! ## The grammar -/

section

variable (loose : Bool)

/-- A character that stands for itself. -/
def plain (character : Char) : Bool :=
  character ∉ ['^', '$', '|', '(', ')', '[', ']', '\x7d', '.', '\\'] &&
    (loose || character ∉ ['*', '+', '?', '\x7b'])

/-- A character behind a backslash. -/
def escaped (character : Char) : List Char := ['\\', character]

/-- How a literal is written. -/
def LiteralSpelled (character : Char) (text : List Char) : Prop :=
  (text = [character] ∧ plain loose character = true) ∨
    (text = escaped character ∧ character.isAlphanum = false)

/-- A character of a class; a `]` may only stand first. -/
def MemberSpelled (isFirst : Bool) (character : Char) (text : List Char) : Prop :=
  (text = [character] ∧ character ≠ '[' ∧ character ≠ '&' ∧ character ≠ '\\' ∧
      (character = ']' → isFirst = true)) ∨
    (text = escaped character ∧ character.isAlphanum = false)

/-- How the end of a range is written. -/
def RangeEndSpelled (character : Char) (text : List Char) : Prop :=
  (text = [character] ∧ character ≠ ']' ∧ character ≠ '\\' ∧ (loose = true ∨ character ≠ '[')) ∨
    (text = escaped character ∧ character.isAlphanum = false)

/-- The members of a class up to its `]`, at least one. -/
def MembersSpelled : Bool → List ClassMember → List Char → Prop
  | isFirst, [], text => isFirst = false ∧ text = [']']
  | isFirst, .single character :: members, text =>
    ∃ own rest, text = own ++ rest ∧ MemberSpelled isFirst character own ∧
      opensRange rest = false ∧ MembersSpelled false members rest
  | isFirst, .range first last :: members, text =>
    ∃ own ownLast rest, text = own ++ '-' :: (ownLast ++ rest) ∧ MemberSpelled isFirst first own ∧
      RangeEndSpelled loose last ownLast ∧ ¬ last < first ∧ MembersSpelled false members rest

/-- How a class is written. -/
def ClassSpelled (characterClass : CharacterClass) (text : List Char) : Prop :=
  ∃ body, text = '[' :: ((if characterClass.negated then ['^'] else []) ++ body) ∧
    (characterClass.negated = false → body.head? ≠ some '^') ∧
    MembersSpelled loose true characterClass.members body

/-- How a quantifier is written. -/
def Quantifier.spelling : Quantifier → List Char
  | .one => []
  | .zeroOrMore => ['*']
  | .oneOrMore => ['+']
  | .zeroOrOne => ['?']

/-- What may follow an atom with its quantifier: no other quantifier. -/
def Follows (quantifier : Quantifier) (rest : List Char) : Prop :=
  ∀ character ∈ rest.head?, isQuantifier character = false ∧
    (quantifier = .one → character ≠ '\x7b')

mutual

/-- How an atom is written. -/
def Atom.Spelled : Atom → List Char → Prop
  | .literal character, text => LiteralSpelled loose character text
  | .any, text => text = ['.']
  | .characterClass characterClass, text => ClassSpelled loose characterClass text
  | .group alternation, text =>
    ∃ inner, text = '(' :: (inner ++ [')']) ∧ inner.head? ≠ some '?' ∧ alternation.Spelled inner

/-- How a sequence is written. -/
def Sequence.Spelled : Sequence → List Char → Prop
  | .nil, text => text = []
  | .cons atom quantifier rest, text =>
    ∃ own others, text = own ++ (quantifier.spelling ++ others) ∧ atom.Spelled own ∧
      Follows quantifier others ∧
      (quantifier ≠ .one → atom.containsQuantifier = false) ∧ rest.Spelled others

/-- How an alternation is written. -/
def Alternation.Spelled : Alternation → List Char → Prop
  | .one branch, text => branch.Spelled text
  | .or branch rest, text =>
    ∃ first others, text = first ++ '|' :: others ∧ branch.Spelled first ∧ rest.Spelled others

end

/-- A whole expression, with or without the anchors at its ends. -/
def ExpressionSpelled (expression : Alternation) (text : List Char) : Prop :=
  ∃ front body back, text = front ++ (body ++ back) ∧ (front = [] ∨ front = ['^']) ∧
    (back = [] ∨ back = ['$']) ∧ expression.Spelled loose body

end

/-! ## Characters -/

variable {input rest text : List Char} {character : Char} {isFirst : Bool}
  {members : List ClassMember}

theorem escape_ok_iff :
    escape input = .ok (character, rest) ↔
      input = character :: rest ∧ character.isAlphanum = false := by
  cases input with
  | nil =>
    constructor
    · nofun
    · nofun
  | cons c input =>
    rw [escape]
    cases hc : c.isAlphanum with
    | true =>
      rw [if_pos rfl]
      constructor
      · nofun
      · rintro ⟨heq, hnot⟩
        obtain ⟨rfl, rfl⟩ := List.cons.inj heq
        rw [hc] at hnot
        cases hnot
    | false =>
      rw [if_neg Bool.false_ne_true]
      constructor
      · intro h
        obtain ⟨rfl, rfl⟩ := Prod.mk.inj (Except.ok.inj h)
        exact ⟨rfl, hc⟩
      · rintro ⟨heq, -⟩
        obtain ⟨rfl, rfl⟩ := List.cons.inj heq
        rfl

theorem classCharacter_escaped (h : escape input = .ok (character, rest)) :
    classCharacter isFirst ('\\' :: input) = .ok (some character, rest) := by
  rw [classCharacter, if_neg (fun heq => absurd heq.1 (by decide)), if_neg (by decide),
    if_neg (by decide), if_pos rfl, h]
  rfl

theorem classCharacter_ok_iff {character : Option Char} :
    classCharacter isFirst input = .ok (character, rest) ↔
      (character = none ∧ isFirst = false ∧ input = ']' :: rest) ∨
        ∃ c own, character = some c ∧ input = own ++ rest ∧ MemberSpelled isFirst c own := by
  constructor
  · intro h
    cases input with
    | nil => cases h
    | cons c input =>
      rw [classCharacter] at h
      split at h
      · rename_i hclose
        obtain ⟨rfl, rfl⟩ := Prod.mk.inj (Except.ok.inj h)
        exact .inl ⟨rfl, Bool.eq_false_iff.mpr hclose.2, by rw [hclose.1]⟩
      rename_i hclose
      split at h
      · cases h
      rename_i hnested
      split at h
      · cases h
      rename_i hintersection
      split at h
      · rename_i hbackslash
        obtain ⟨⟨escaped, left⟩, hescape, h⟩ := bind_ok_iff.mp h
        obtain ⟨rfl, rfl⟩ := Prod.mk.inj (pure_ok_iff.mp h)
        obtain ⟨rfl, halnum⟩ := escape_ok_iff.mp hescape
        exact .inr ⟨escaped, ['\\', escaped], rfl, by rw [hbackslash]; rfl, .inr ⟨rfl, halnum⟩⟩
      · rename_i hbackslash
        obtain ⟨rfl, rfl⟩ := Prod.mk.inj (Except.ok.inj h)
        refine .inr ⟨c, [c], rfl, rfl, .inl ⟨rfl, hnested, hintersection, hbackslash, fun heq => ?_⟩⟩
        by_contra hfirst
        exact hclose ⟨heq, hfirst⟩
  · rintro (⟨rfl, rfl, rfl⟩ | ⟨c, own, rfl, rfl, ⟨rfl, hnested, hintersection, hbackslash, hclose⟩ |
      ⟨rfl, halnum⟩⟩)
    · rfl
    · rw [List.singleton_append, classCharacter,
        if_neg (fun hboth => hboth.2 (hclose hboth.1)), if_neg hnested, if_neg hintersection,
        if_neg hbackslash]
    · exact classCharacter_escaped (escape_ok_iff.mpr ⟨rfl, halnum⟩)

theorem rangeEnd_ok_iff (h : input.head? ≠ some ']') :
    rangeEnd input = .ok (character, rest) ↔
      ∃ own, input = own ++ rest ∧ RangeEndSpelled true character own := by
  cases input with
  | nil =>
    constructor
    · nofun
    · rintro ⟨own, hinput, ⟨rfl, -⟩ | ⟨rfl, -⟩⟩
      · cases hinput
      · cases hinput
  | cons c input =>
    have hclose : c ≠ ']' := fun heq => h (congrArg some heq)
    by_cases hbackslash : c = '\\'
    · subst hbackslash
      rw [rangeEnd, escape_ok_iff]
      constructor
      · rintro ⟨rfl, halnum⟩
        exact ⟨escaped character, rfl, .inr ⟨rfl, halnum⟩⟩
      · rintro ⟨own, hinput, ⟨rfl, -, hnot, -⟩ | ⟨rfl, halnum⟩⟩
        · exact absurd (List.cons.inj hinput).1.symm hnot
        · exact ⟨(List.cons.inj hinput).2, halnum⟩
    · have hplain : rangeEnd (c :: input) = .ok (c, input) := by
        unfold rangeEnd
        split
        · contradiction
        · rename_i heq
          exact absurd (List.cons.inj heq).1 hbackslash
        · rename_i heq
          obtain ⟨rfl, rfl⟩ := List.cons.inj heq
          rfl
      rw [hplain]
      constructor
      · intro hok
        obtain ⟨rfl, rfl⟩ := Prod.mk.inj (Except.ok.inj hok)
        exact ⟨[c], rfl, .inl ⟨rfl, hclose, hbackslash, .inl rfl⟩⟩
      · rintro ⟨own, hinput, ⟨rfl, -⟩ | ⟨rfl, -⟩⟩
        · obtain ⟨rfl, rfl⟩ := List.cons.inj hinput
          rfl
        · exact absurd (List.cons.inj hinput).1 hbackslash

theorem quantifierOf_eq_some_iff {q : Quantifier} :
    quantifierOf character = some q ↔ q ≠ .one ∧ q.spelling = [character] := by
  constructor
  · intro h
    unfold quantifierOf at h
    split at h
    · obtain rfl := Option.some.inj h
      exact ⟨nofun, rfl⟩
    · obtain rfl := Option.some.inj h
      exact ⟨nofun, rfl⟩
    · obtain rfl := Option.some.inj h
      exact ⟨nofun, rfl⟩
    · cases h
  · rintro ⟨hne, hspelling⟩
    cases q with
    | one => exact absurd rfl hne
    | zeroOrMore =>
      obtain ⟨rfl, -⟩ := List.cons.inj hspelling
      rfl
    | oneOrMore =>
      obtain ⟨rfl, -⟩ := List.cons.inj hspelling
      rfl
    | zeroOrOne =>
      obtain ⟨rfl, -⟩ := List.cons.inj hspelling
      rfl

theorem isQuantifier_eq_isSome (character : Char) :
    isQuantifier character = (quantifierOf character).isSome := by
  unfold quantifierOf isQuantifier
  split
  · rfl
  · rfl
  · rfl
  · rename_i hstar hplus hquestion
    rw [decide_eq_false hstar, decide_eq_false hplus, decide_eq_false hquestion]
    rfl

theorem quantifier_ok_iff {q : Quantifier} :
    quantifier input = .ok (q, rest) ↔ input = q.spelling ++ rest ∧ Follows q rest := by
  cases input with
  | nil =>
    constructor
    · intro h
      obtain ⟨rfl, rfl⟩ := Prod.mk.inj (Except.ok.inj h)
      exact ⟨rfl, nofun⟩
    · rintro ⟨hinput, -⟩
      cases q with
      | one =>
        obtain rfl : [] = rest := hinput
        rfl
      | zeroOrMore => cases hinput
      | oneOrMore => cases hinput
      | zeroOrOne => cases hinput
  | cons c input =>
    rw [quantifier]
    cases hquantifier : quantifierOf c with
    | some given =>
      obtain ⟨hne, hspelling⟩ := quantifierOf_eq_some_iff.mp hquantifier
      have hfollows : Follows given input ↔ input.head?.any isQuantifier = false := by
        constructor
        · intro h
          cases input with
          | nil => rfl
          | cons next input => exact (h next rfl).1
        · intro h next hnext
          obtain rfl | ⟨tail, rfl⟩ : input = [] ∨ ∃ tail, input = next :: tail := by
            cases input with
            | nil => exact .inl rfl
            | cons first tail => exact .inr ⟨tail, by rw [Option.some.inj hnext]⟩
          · cases hnext
          · exact ⟨h, fun hone => absurd hone hne⟩
      dsimp only
      constructor
      · intro h
        split at h
        · cases h
        · rename_i hany
          obtain ⟨rfl, rfl⟩ := Prod.mk.inj (Except.ok.inj h)
          exact ⟨by rw [hspelling]; rfl, hfollows.mpr (Bool.eq_false_iff.mpr hany)⟩
      · rintro ⟨hinput, hrest⟩
        have hgiven : q = given := by
          cases q with
          | one =>
            obtain rfl : c :: input = rest := hinput
            have hnot := (hrest c rfl).1
            rw [isQuantifier_eq_isSome, hquantifier] at hnot
            cases hnot
          | zeroOrMore =>
            obtain ⟨rfl, -⟩ := List.cons.inj hinput
            exact Option.some.inj hquantifier
          | oneOrMore =>
            obtain ⟨rfl, -⟩ := List.cons.inj hinput
            exact Option.some.inj hquantifier
          | zeroOrOne =>
            obtain ⟨rfl, -⟩ := List.cons.inj hinput
            exact Option.some.inj hquantifier
        subst hgiven
        rw [hspelling] at hinput
        obtain ⟨-, rfl⟩ := List.cons.inj hinput
        rw [if_neg (Bool.eq_false_iff.mp (hfollows.mp hrest))]
    | none =>
      have hnot : isQuantifier c = false := by rw [isQuantifier_eq_isSome, hquantifier]; rfl
      dsimp only
      constructor
      · intro h
        split at h
        · cases h
        · rename_i hbrace
          obtain ⟨rfl, rfl⟩ := Prod.mk.inj (Except.ok.inj h)
          refine ⟨rfl, fun next hnext => ?_⟩
          obtain rfl : c = next := Option.some.inj hnext
          exact ⟨hnot, fun _ => hbrace⟩
      · rintro ⟨hinput, hrest⟩
        cases q with
        | one =>
          obtain rfl : c :: input = rest := hinput
          rw [if_neg ((hrest c rfl).2 rfl)]
        | zeroOrMore =>
          obtain ⟨rfl, -⟩ := List.cons.inj hinput
          cases hquantifier
        | oneOrMore =>
          obtain ⟨rfl, -⟩ := List.cons.inj hinput
          cases hquantifier
        | zeroOrOne =>
          obtain ⟨rfl, -⟩ := List.cons.inj hinput
          cases hquantifier

/-! ## Classes -/

theorem MemberSpelled.ne_nil (h : MemberSpelled isFirst character text) : text ≠ [] := by
  rcases h with ⟨rfl, -⟩ | ⟨rfl, -⟩
  · exact List.cons_ne_nil _ _
  · exact List.cons_ne_nil _ _

/-- The members of a class end with its bracket. -/
theorem MembersSpelled.closes {loose : Bool} (h : MembersSpelled loose isFirst members text) :
    ∃ front, text = front ++ [']'] := by
  induction members generalizing isFirst text with
  | nil => exact ⟨[], h.2⟩
  | cons member members ih =>
    cases member with
    | single character =>
      obtain ⟨own, rest, rfl, -, -, hrest⟩ := h
      obtain ⟨front, rfl⟩ := ih hrest
      exact ⟨own ++ front, (append_assoc ..).symm⟩
    | range first last =>
      obtain ⟨own, ownLast, rest, rfl, -, -, -, hrest⟩ := h
      obtain ⟨front, rfl⟩ := ih hrest
      refine ⟨own ++ '-' :: (ownLast ++ front), ?_⟩
      rw [append_assoc, List.cons_append, append_assoc]

/-- Whether a range opens is seen before the bracket. -/
theorem opensRange_append (front rest : List Char) :
    opensRange (front ++ [']'] ++ rest) = opensRange (front ++ [']']) := by
  cases front with
  | nil => rfl
  | cons first front =>
    by_cases hdash : first = '-'
    · subst hdash
      cases front with
      | nil => rfl
      | cons second front => rfl
    · have hnone : ∀ tail, opensRange (first :: tail) = false := by
        intro tail
        unfold opensRange
        split
        · rename_i heq
          exact absurd (List.cons.inj heq).1 hdash
        · rfl
      exact (hnone _).trans (hnone _).symm

theorem exists_of_opensRange (h : opensRange input = true) :
    ∃ tail, input = '-' :: tail ∧ tail.head? ≠ some ']' := by
  unfold opensRange at h
  split at h
  · rename_i next tail
    exact ⟨next :: tail, rfl, fun heq => of_decide_eq_true h (Option.some.inj heq)⟩
  · cases h

theorem classMembers_spelled {rounds : Nat} (h : classMembers rounds isFirst input = .ok (members, rest)) :
    ∃ text, input = text ++ rest ∧ MembersSpelled true isFirst members text := by
  induction rounds generalizing isFirst input members with
  | zero => cases h
  | succ rounds ih =>
    obtain ⟨⟨character, input₁⟩, hcharacter, hread⟩ := bind_ok_iff.mp h
    clear h
    rcases classCharacter_ok_iff.mp hcharacter with ⟨rfl, rfl, rfl⟩ | ⟨c, own, rfl, rfl, hown⟩
    · obtain ⟨rfl, rfl⟩ := Prod.mk.inj (pure_ok_iff.mp hread)
      exact ⟨[']'], rfl, rfl, rfl⟩
    · dsimp only at hread
      split at hread
      · rename_i hopens
        obtain ⟨tail, rfl, hhead⟩ := exists_of_opensRange hopens
        obtain ⟨⟨last, input₂⟩, hlast, hafter⟩ := bind_ok_iff.mp hread
        obtain ⟨ownLast, heq, hownLast⟩ := (rangeEnd_ok_iff hhead).mp hlast
        obtain rfl : tail = ownLast ++ input₂ := heq
        dsimp only at hafter
        split at hafter
        · cases hafter
        · rename_i horder
          obtain ⟨⟨others, input₃⟩, hothers, hend⟩ := bind_ok_iff.mp hafter
          obtain ⟨rfl, rfl⟩ := Prod.mk.inj (pure_ok_iff.mp hend)
          obtain ⟨text, rfl, htext⟩ := ih hothers
          refine ⟨own ++ '-' :: (ownLast ++ text), ?_, own, ownLast, text, rfl, hown, hownLast,
            horder, htext⟩
          rw [append_assoc, List.cons_append, append_assoc]
      · rename_i hopens
        obtain ⟨⟨others, input₃⟩, hothers, hread⟩ := bind_ok_iff.mp hread
        obtain ⟨rfl, rfl⟩ := Prod.mk.inj (pure_ok_iff.mp hread)
        obtain ⟨text, rfl, htext⟩ := ih hothers
        refine ⟨own ++ text, (append_assoc ..).symm, own, text, rfl, hown, ?_, htext⟩
        obtain ⟨front, rfl⟩ := htext.closes
        rw [opensRange_append] at hopens
        exact Bool.eq_false_iff.mpr hopens

theorem MembersSpelled.classMembers (h : MembersSpelled true isFirst members text) (rest : List Char)
    {rounds : Nat} (hrounds : text.length ≤ rounds) :
    NamePatterns.classMembers rounds isFirst (text ++ rest) = .ok (members, rest) := by
  induction members generalizing isFirst text rounds with
  | nil =>
    obtain ⟨rfl, rfl⟩ := h
    cases rounds with
    | zero => cases hrounds
    | succ rounds => rfl
  | cons member members ih =>
    cases member with
    | single character =>
      obtain ⟨own, others, rfl, hown, hopens, hothers⟩ := h
      have hpos := List.length_pos_of_ne_nil hown.ne_nil
      rw [List.length_append] at hrounds
      cases rounds with
      | zero => omega
      | succ rounds =>
        rw [append_assoc]
        refine bind_ok_iff.mpr ⟨_, classCharacter_ok_iff.mpr
          (.inr ⟨character, own, rfl, rfl, hown⟩), ?_⟩
        obtain ⟨front, rfl⟩ := hothers.closes
        dsimp only
        rw [opensRange_append, hopens, if_neg Bool.false_ne_true, ih hothers (by omega)]
        rfl
    | range first last =>
      obtain ⟨own, ownLast, others, rfl, hown, hownLast, horder, hothers⟩ := h
      have hpos := List.length_pos_of_ne_nil hown.ne_nil
      rw [List.length_append, List.length_cons, List.length_append] at hrounds
      have hhead : (ownLast ++ (others ++ rest)).head? ≠ some ']' := by
        rcases hownLast with ⟨rfl, hne, -⟩ | ⟨rfl, -⟩
        · exact fun heq => hne (Option.some.inj heq)
        · exact fun heq => absurd (Option.some.inj heq) (by decide)
      have hopens : opensRange ('-' :: (ownLast ++ (others ++ rest))) = true := by
        rcases hownLast with ⟨rfl, hne, -⟩ | ⟨rfl, -⟩
        · exact decide_eq_true hne
        · rfl
      cases rounds with
      | zero => omega
      | succ rounds =>
        rw [append_assoc, List.cons_append, append_assoc]
        refine bind_ok_iff.mpr ⟨_, classCharacter_ok_iff.mpr
          (.inr ⟨first, own, rfl, rfl, hown⟩), ?_⟩
        dsimp only
        rw [hopens, if_pos rfl, List.tail_cons,
          (rangeEnd_ok_iff hhead).mpr ⟨ownLast, rfl, hownLast⟩, Except.ok_bind_eq]
        dsimp only
        rw [if_neg horder, ih hothers (by omega)]
        rfl

theorem characterClass_negated (input : List Char) : characterClass ('^' :: input) = (do
    let (members, input) ← classMembers (input.length + 1) true input
    return (⟨true, members⟩, input)) := rfl

theorem characterClass_positive (h : input.head? ≠ some '^') :
    characterClass input = (do
      let (members, input) ← classMembers (input.length + 1) true input
      return (⟨false, members⟩, input)) := by
  rw [characterClass]
  dsimp only
  rw [if_neg h, decide_eq_false h]

/-- A class, behind its opening bracket, is read exactly as it is spelled. -/
theorem characterClass_ok_iff {c : CharacterClass} :
    characterClass input = .ok (c, rest) ↔
      ∃ text, '[' :: input = text ++ rest ∧ ClassSpelled true c text := by
  obtain ⟨negated, members⟩ := c
  constructor
  · intro h
    by_cases hhat : input.head? = some '^'
    · obtain ⟨tail, rfl⟩ : ∃ tail, input = '^' :: tail := by
        cases input with
        | nil => cases hhat
        | cons first tail => exact ⟨tail, by rw [Option.some.inj hhat]⟩
      rw [characterClass_negated] at h
      obtain ⟨⟨found, left⟩, hmembers, h⟩ := bind_ok_iff.mp h
      obtain ⟨hclass, rfl⟩ := Prod.mk.inj (pure_ok_iff.mp h)
      obtain ⟨rfl, rfl⟩ := CharacterClass.mk.inj hclass
      obtain ⟨body, rfl, hspelled⟩ := classMembers_spelled hmembers
      exact ⟨'[' :: (['^'] ++ body), rfl, body, rfl, nofun, hspelled⟩
    · rw [characterClass_positive hhat] at h
      obtain ⟨⟨found, left⟩, hmembers, h⟩ := bind_ok_iff.mp h
      obtain ⟨hclass, rfl⟩ := Prod.mk.inj (pure_ok_iff.mp h)
      obtain ⟨rfl, rfl⟩ := CharacterClass.mk.inj hclass
      obtain ⟨body, rfl, hspelled⟩ := classMembers_spelled hmembers
      refine ⟨'[' :: ([] ++ body), rfl, body, rfl, fun _ hhead => hhat ?_, hspelled⟩
      rw [List.head?_append, hhead]
      rfl
  · rintro ⟨text, hinput, body, rfl, hhat, hspelled⟩
    obtain ⟨-, rfl⟩ := List.cons.inj hinput
    dsimp only at hhat hspelled ⊢
    have hread : classMembers ((body ++ rest).length + 1) true (body ++ rest) =
        .ok (members, rest) := by
      refine hspelled.classMembers rest ?_
      rw [List.length_append]
      omega
    cases negated with
    | true =>
      rw [if_pos rfl, List.append_eq, append_assoc, List.singleton_append,
        characterClass_negated, hread]
      rfl
    | false =>
      have hnot : (body ++ rest).head? ≠ some '^' := by
        obtain ⟨front, hfront⟩ := hspelled.closes
        cases body with
        | nil => simp at hfront
        | cons first body => exact hhat rfl
      rw [if_neg Bool.false_ne_true, List.append_eq, List.nil_append,
        characterClass_positive hnot, hread]
      rfl

end Froe.NamePatterns
