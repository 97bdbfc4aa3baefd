import Froe.Lucene.NamePatternParser

/-!
# When name patterns are exact

The parser takes a quantifier character as a literal where an atom is expected, and a
bracket as the end of a range.  Every other text is accepted just when it is documented,
and the pattern then matches the language it denotes (`namePattern_exact_iff`).
-/

namespace Froe.NamePatterns

open ContinuationMatcher

/-! ## Misplaced characters -/

/-- A class of which a range ends at a bare bracket. -/
def MembersMisplaced : Bool → List ClassMember → List Char → Prop
  | _, [], _ => False
  | isFirst, .single character :: members, text =>
    ∃ own rest, text = own ++ rest ∧ MemberSpelled isFirst character own ∧
      MembersMisplaced false members rest
  | isFirst, .range first last :: members, text =>
    ∃ own ownLast rest, text = own ++ '-' :: (ownLast ++ rest) ∧ MemberSpelled isFirst first own ∧
      RangeEndSpelled true last ownLast ∧
      (ownLast = ['['] ∨ MembersMisplaced false members rest)

mutual

/-- A bare quantifier character where an atom is expected, or a bare bracket at the end of a
range. -/
def Atom.Misplaced : Atom → List Char → Prop
  | .literal character, text => text = [character] ∧ character ∈ ['*', '+', '?', '\x7b']
  | .any, _ => False
  | .characterClass characterClass, text =>
    ∃ body, text = '[' :: ((if characterClass.negated then ['^'] else []) ++ body) ∧
      MembersMisplaced true characterClass.members body
  | .group alternation, text => ∃ inner, text = '(' :: (inner ++ [')']) ∧ alternation.Misplaced inner

def Sequence.Misplaced : Sequence → List Char → Prop
  | .nil, _ => False
  | .cons atom quantifier rest, text =>
    ∃ own others, text = own ++ (quantifier.spelling ++ others) ∧ atom.Spelled true own ∧
      (atom.Misplaced own ∨ rest.Misplaced others)

def Alternation.Misplaced : Alternation → List Char → Prop
  | .one branch, text => branch.Misplaced text
  | .or branch rest, text =>
    ∃ first others, text = first ++ '|' :: others ∧ branch.Spelled true first ∧
      (branch.Misplaced first ∨ rest.Misplaced others)

end

/-! ## Loose spellings without misplaced characters are strict -/

variable {character : Char} {members : List ClassMember} {text : List Char}

theorem plain_of_not_mem (h : plain true character = true)
    (hnot : character ∉ ['*', '+', '?', '\x7b']) : plain false character = true :=
  Bool.and_eq_true_iff.mpr ⟨(Bool.and_eq_true_iff.mp h).1, decide_eq_true hnot⟩

theorem MembersSpelled.tighten {isFirst : Bool}
    (h : MembersSpelled true isFirst members text) (hnot : ¬ MembersMisplaced isFirst members text) :
    MembersSpelled false isFirst members text := by
  induction members generalizing isFirst text with
  | nil => exact h
  | cons member members ih =>
    cases member with
    | single character =>
      obtain ⟨own, rest, htext, hown, hopens, hrest⟩ := h
      exact ⟨own, rest, htext, hown, hopens,
        ih hrest fun hmisplaced => hnot ⟨own, rest, htext, hown, hmisplaced⟩⟩
    | range first last =>
      obtain ⟨own, ownLast, rest, htext, hown, hlast, horder, hrest⟩ := h
      have hbracket : ownLast ≠ ['['] := fun heq =>
        hnot ⟨own, ownLast, rest, htext, hown, hlast, .inl heq⟩
      refine ⟨own, ownLast, rest, htext, hown, ?_, horder,
        ih hrest fun hmisplaced => hnot ⟨own, ownLast, rest, htext, hown, hlast, .inr hmisplaced⟩⟩
      rcases hlast with ⟨rfl, hclose, hbackslash, -⟩ | hescaped
      · exact .inl ⟨rfl, hclose, hbackslash, .inr fun heq => hbracket (congrArg (fun c => [c]) heq)⟩
      · exact .inr hescaped

mutual

theorem Atom.Spelled.tighten (a : Atom) {text : List Char} (h : a.Spelled true text)
    (hnot : ¬ a.Misplaced text) : a.Spelled false text := by
  cases a with
  | literal character =>
    rw [Atom.Spelled] at h ⊢
    rw [Atom.Misplaced] at hnot
    rcases h with ⟨htext, hplain⟩ | hescaped
    · exact .inl ⟨htext, plain_of_not_mem hplain fun hmem => hnot ⟨htext, hmem⟩⟩
    · exact .inr hescaped
  | any =>
    rw [Atom.Spelled] at h ⊢
    exact h
  | characterClass c =>
    rw [Atom.Spelled] at h ⊢
    rw [Atom.Misplaced] at hnot
    obtain ⟨body, htext, hhat, hmembers⟩ := h
    exact ⟨body, htext, hhat, hmembers.tighten fun hmisplaced => hnot ⟨body, htext, hmisplaced⟩⟩
  | group alternation =>
    rw [Atom.Spelled] at h ⊢
    rw [Atom.Misplaced] at hnot
    obtain ⟨inner, htext, hhead, hinner⟩ := h
    exact ⟨inner, htext, hhead, Alternation.Spelled.tighten alternation hinner fun hmisplaced =>
      hnot ⟨inner, htext, hmisplaced⟩⟩

theorem Sequence.Spelled.tighten (s : Sequence) {text : List Char} (h : s.Spelled true text)
    (hnot : ¬ s.Misplaced text) : s.Spelled false text := by
  cases s with
  | nil =>
    rw [Sequence.Spelled] at h ⊢
    exact h
  | cons atom quantifier rest =>
    rw [Sequence.Spelled] at h ⊢
    rw [Sequence.Misplaced] at hnot
    obtain ⟨own, others, htext, hown, hfollows, hcontains, hrest⟩ := h
    refine ⟨own, others, htext, ?_, hfollows, hcontains, ?_⟩
    · exact Atom.Spelled.tighten atom hown fun hmisplaced =>
        hnot ⟨own, others, htext, hown, .inl hmisplaced⟩
    · exact Sequence.Spelled.tighten rest hrest fun hmisplaced =>
        hnot ⟨own, others, htext, hown, .inr hmisplaced⟩

theorem Alternation.Spelled.tighten (a : Alternation) {text : List Char} (h : a.Spelled true text)
    (hnot : ¬ a.Misplaced text) : a.Spelled false text := by
  cases a with
  | one branch =>
    rw [Alternation.Spelled] at h ⊢
    rw [Alternation.Misplaced] at hnot
    exact Sequence.Spelled.tighten branch h hnot
  | or branch rest =>
    rw [Alternation.Spelled] at h ⊢
    rw [Alternation.Misplaced] at hnot
    obtain ⟨first, others, htext, hfirst, hothers⟩ := h
    refine ⟨first, others, htext, ?_, ?_⟩
    · exact Sequence.Spelled.tighten branch hfirst fun hmisplaced =>
        hnot ⟨first, others, htext, hfirst, .inl hmisplaced⟩
    · exact Alternation.Spelled.tighten rest hothers fun hmisplaced =>
        hnot ⟨first, others, htext, hfirst, .inr hmisplaced⟩

end

/-! ## Strict spellings have no misplaced characters -/

/-- A text parts at the end of an atom in one way. -/
theorem Atom.Spelled.unique {a : Atom} {own own' rest rest' : List Char} (h : a.Spelled true own)
    (h' : a.Spelled true own') (heq : own ++ rest = own' ++ rest') : own = own' ∧ rest = rest' := by
  have hread := h.reads a 0 rest (Nat.le_add_right (3 * own.length) (3 * own'.length))
  have hread' := h'.reads a 0 rest' (Nat.le_add_left (3 * own'.length) (3 * own.length))
  rw [heq, hread'] at hread
  obtain rfl : rest' = rest := (Prod.mk.inj (Except.ok.inj hread)).2
  exact ⟨List.append_cancel_right heq, rfl⟩

/-- A text parts at the end of a branch in one way. -/
theorem Sequence.Spelled.unique {s : Sequence} {own own' rest rest' : List Char}
    (h : s.Spelled true own) (h' : s.Spelled true own') (hends : EndsBranch rest)
    (hends' : EndsBranch rest') (heq : own ++ rest = own' ++ rest') : own = own' ∧ rest = rest' := by
  have hread := h.reads s 0 false [] rest (.inl rfl) hends
    (Nat.le_add_right (3 * own.length + 2) (3 * own'.length + 2))
  have hread' := h'.reads s 0 false [] rest' (.inl rfl) hends'
    (Nat.le_add_left (3 * own'.length + 2) (3 * own.length + 2))
  rw [List.nil_append] at hread hread'
  rw [heq, hread'] at hread
  obtain rfl : rest' = rest := (Prod.mk.inj (Except.ok.inj hread)).2
  exact ⟨List.append_cancel_right heq, rfl⟩

theorem MemberSpelled.unique {isFirst : Bool} {character : Char} {own own' rest rest' : List Char}
    (h : MemberSpelled isFirst character own) (h' : MemberSpelled isFirst character own')
    (heq : own ++ rest = own' ++ rest') : own = own' ∧ rest = rest' := by
  have hread := classCharacter_ok_iff.mpr (.inr ⟨character, own, rfl, (rfl : own ++ rest = _), h⟩)
  have hread' := classCharacter_ok_iff.mpr
    (.inr ⟨character, own', rfl, (rfl : own' ++ rest' = _), h'⟩)
  rw [heq, hread'] at hread
  obtain rfl : rest' = rest := (Prod.mk.inj (Except.ok.inj hread)).2
  exact ⟨List.append_cancel_right heq, rfl⟩

theorem RangeEndSpelled.head_ne {loose : Bool} {own : List Char}
    (h : RangeEndSpelled loose character own) (rest : List Char) :
    (own ++ rest).head? ≠ some ']' := by
  rcases h with ⟨rfl, hclose, -⟩ | ⟨rfl, -⟩
  · exact fun heq => hclose (Option.some.inj heq)
  · exact fun heq => absurd (Option.some.inj heq) (by decide)

theorem RangeEndSpelled.unique {character : Char} {own own' rest rest' : List Char}
    (h : RangeEndSpelled true character own) (h' : RangeEndSpelled true character own')
    (heq : own ++ rest = own' ++ rest') : own = own' ∧ rest = rest' := by
  have hread := (rangeEnd_ok_iff (h.head_ne rest)).mpr ⟨own, rfl, h⟩
  have hread' := (rangeEnd_ok_iff (h'.head_ne rest')).mpr ⟨own', rfl, h'⟩
  rw [heq, hread'] at hread
  obtain rfl : rest' = rest := (Prod.mk.inj (Except.ok.inj hread)).2
  exact ⟨List.append_cancel_right heq, rfl⟩

theorem RangeEndSpelled.loosen {own : List Char}
    (h : RangeEndSpelled false character own) : RangeEndSpelled true character own := by
  rcases h with ⟨htext, hclose, hbackslash, -⟩ | hescaped
  · exact .inl ⟨htext, hclose, hbackslash, .inl rfl⟩
  · exact .inr hescaped

theorem MembersSpelled.not_misplaced {isFirst : Bool} (h : MembersSpelled false isFirst members text) :
    ¬ MembersMisplaced isFirst members text := by
  induction members generalizing isFirst text with
  | nil => exact id
  | cons member members ih =>
    cases member with
    | single character =>
      obtain ⟨own, rest, rfl, hown, hopens, hrest⟩ := h
      rintro ⟨own', rest', heq, hown', hmisplaced⟩
      obtain ⟨-, rfl⟩ := hown.unique hown' heq
      exact ih hrest hmisplaced
    | range first last =>
      obtain ⟨own, ownLast, rest, rfl, hown, hlast, horder, hrest⟩ := h
      rintro ⟨own', ownLast', rest', heq, hown', hlast', hmisplaced⟩
      obtain ⟨-, hbehind⟩ := hown.unique hown' heq
      obtain ⟨rfl, rfl⟩ := hlast.loosen.unique hlast' (List.cons.inj hbehind).2
      rcases hmisplaced with rfl | hmisplaced
      · rcases hlast with ⟨hbracket, -, -, hloose | hne⟩ | ⟨hbracket, -⟩
        · cases hloose
        · exact hne (List.cons.inj hbracket).1.symm
        · cases hbracket
      · exact ih hrest hmisplaced

mutual

theorem Atom.Spelled.not_misplaced (a : Atom) {text : List Char} (h : a.Spelled false text) :
    ¬ a.Misplaced text := by
  intro hmisplaced
  cases a with
  | literal character =>
    rw [Atom.Spelled] at h
    rw [Atom.Misplaced] at hmisplaced
    obtain ⟨htext, hmem⟩ := hmisplaced
    rcases h with ⟨-, hplain⟩ | ⟨hescaped, -⟩
    · exact of_decide_eq_true (Bool.and_eq_true_iff.mp hplain).2 hmem
    · rw [htext] at hescaped
      cases hescaped
  | any =>
    rw [Atom.Misplaced] at hmisplaced
    exact hmisplaced
  | characterClass c =>
    rw [Atom.Spelled] at h
    rw [Atom.Misplaced] at hmisplaced
    obtain ⟨body, htext, -, hmembers⟩ := h
    obtain ⟨body', htext', hmembers'⟩ := hmisplaced
    rw [htext] at htext'
    obtain rfl := List.append_cancel_left (List.cons.inj htext').2
    exact hmembers.not_misplaced hmembers'
  | group alternation =>
    rw [Atom.Spelled] at h
    rw [Atom.Misplaced] at hmisplaced
    obtain ⟨inner, htext, -, hinner⟩ := h
    obtain ⟨inner', htext', hinner'⟩ := hmisplaced
    rw [htext] at htext'
    obtain rfl := List.append_cancel_right (List.cons.inj htext').2
    exact Alternation.Spelled.not_misplaced alternation hinner hinner'

theorem Sequence.Spelled.not_misplaced (s : Sequence) {text : List Char} (h : s.Spelled false text) :
    ¬ s.Misplaced text := by
  intro hmisplaced
  cases s with
  | nil =>
    rw [Sequence.Misplaced] at hmisplaced
    exact hmisplaced
  | cons atom quantifier rest =>
    rw [Sequence.Spelled] at h
    rw [Sequence.Misplaced] at hmisplaced
    obtain ⟨own, others, htext, hown, -, -, hrest⟩ := h
    obtain ⟨own', others', htext', hown', hinside⟩ := hmisplaced
    rw [htext] at htext'
    obtain ⟨rfl, hbehind⟩ := (Atom.Spelled.loosen atom hown).unique hown' htext'
    obtain rfl := List.append_cancel_left hbehind
    rcases hinside with hinside | hinside
    · exact Atom.Spelled.not_misplaced atom hown hinside
    · exact Sequence.Spelled.not_misplaced rest hrest hinside

theorem Alternation.Spelled.not_misplaced (a : Alternation) {text : List Char}
    (h : a.Spelled false text) : ¬ a.Misplaced text := by
  intro hmisplaced
  cases a with
  | one branch =>
    rw [Alternation.Spelled] at h
    rw [Alternation.Misplaced] at hmisplaced
    exact Sequence.Spelled.not_misplaced branch h hmisplaced
  | or branch rest =>
    rw [Alternation.Spelled] at h
    rw [Alternation.Misplaced] at hmisplaced
    obtain ⟨first, others, htext, hfirst, hothers⟩ := h
    obtain ⟨first', others', htext', hfirst', hinside⟩ := hmisplaced
    rw [htext] at htext'
    have hbar : ∀ tail : List Char, EndsBranch ('|' :: tail) := fun _ character hmem =>
      .inl (Option.some.inj hmem).symm
    obtain ⟨rfl, hbehind⟩ := (Sequence.Spelled.loosen branch hfirst).unique hfirst' (hbar _) (hbar _)
      htext'
    obtain rfl := (List.cons.inj hbehind).2
    rcases hinside with hinside | hinside
    · exact Sequence.Spelled.not_misplaced branch hfirst hinside
    · exact Alternation.Spelled.not_misplaced rest hothers hinside

end

/-! ## Exactness -/

/-- A reading of a text: an expression, and its spelling between the anchors. -/
def ReadsAs (text : List Char) (expression : Alternation) (body : List Char) : Prop :=
  ∃ front back, text = front ++ (body ++ back) ∧ (front = [] ∨ front = ['^']) ∧
    (back = [] ∨ back = ['$']) ∧ expression.Spelled true body

/-- A text that is read, but only by taking a quantifier character where an atom is expected, or
the bare bracket at the end of a range, for itself. -/
def Misread (text : List Char) : Prop :=
  (∃ expression body, ReadsAs text expression body) ∧
    ∀ expression body, ReadsAs text expression body → expression.Misplaced body

theorem expressionSpelled_iff_not_misread {expression : Alternation}
    (h : ExpressionSpelled true expression text) :
    (∃ strict, ExpressionSpelled false strict text) ↔ ¬ Misread text := by
  constructor
  · rintro ⟨strict, front, body, back, htext, hfront, hback, hspelled⟩ hmisread
    exact Alternation.Spelled.not_misplaced strict hspelled (hmisread.2 strict body
      ⟨front, back, htext, hfront, hback, Alternation.Spelled.loosen strict hspelled⟩)
  · intro hnot
    obtain ⟨front, body, back, htext, hfront, hback, hspelled⟩ := h
    have hread : ReadsAs text expression body := ⟨front, back, htext, hfront, hback, hspelled⟩
    by_contra hdocumented
    refine hnot ⟨⟨expression, body, hread⟩, ?_⟩
    rintro other body' ⟨front', back', htext', hfront', hback', hspelled'⟩
    by_contra hmisplaced
    exact hdocumented ⟨other, front', body', back', htext', hfront', hback',
      Alternation.Spelled.tighten other hspelled' hmisplaced⟩

def Documented (text : String) : Prop :=
  ∃ expression, ExpressionSpelled false expression (patternParts text.toList).2

/-- The documented texts are accepted and no others, and what is accepted matches the paths with
the text's parent and a name of the language the text denotes. -/
structure Exact (definitionPath text : String) : Prop where
  accepts : (∃ pattern, NamePattern.parse definitionPath text = .ok pattern) ↔ Documented text
  matched : ∀ pattern, NamePattern.parse definitionPath text = .ok pattern →
    ∃ expression, ExpressionSpelled false expression (patternParts text.toList).2 ∧
      ∀ propertyPath : String, pattern.matches propertyPath = true ↔
        (patternParts text.toList).1 = parentPathOf propertyPath.toList ∧
          nameOf propertyPath.toList ∈ expression.language

theorem parse_ok_iff {definitionPath text : String} {pattern : NamePattern} :
    NamePattern.parse definitionPath text = .ok pattern ↔
      ∃ expression, ExpressionSpelled true expression (patternParts text.toList).2 ∧
        pattern = ⟨text, (patternParts text.toList).1, expression⟩ := by
  rw [NamePattern.parse]
  constructor
  · intro h
    split at h
    · rename_i expression hread
      exact ⟨expression, parseExpression_ok_iff.mp hread, (Except.ok.inj h).symm⟩
    · cases h
  · rintro ⟨expression, hspelled, rfl⟩
    rw [parseExpression_ok_iff.mpr hspelled]

theorem NamePattern.matches_iff (pattern : NamePattern) (propertyPath : String) :
    pattern.matches propertyPath = true ↔
      pattern.parentPath = parentPathOf propertyPath.toList ∧
        nameOf propertyPath.toList ∈ pattern.expression.language := by
  rw [NamePattern.matches]
  split
  · rename_i hparent
    exact ⟨nofun, fun h => absurd h.1 hparent⟩
  · rename_i hparent
    rw [Alternation.matchesWhole_iff]
    exact ⟨fun h => ⟨not_not.mp hparent, h⟩, fun h => h.2⟩

/-- A pattern is exact unless its text is misread. -/
theorem namePattern_exact_iff (definitionPath text : String) :
    Exact definitionPath text ↔ ¬ Misread (patternParts text.toList).2 := by
  constructor
  · intro h hmisread
    obtain ⟨expression, body, front, back, htext, hfront, hback, hspelled⟩ := hmisread.1
    have hloose : ExpressionSpelled true expression (patternParts text.toList).2 :=
      ⟨front, body, back, htext, hfront, hback, hspelled⟩
    have hdocumented := h.accepts.mp ⟨_, parse_ok_iff.mpr ⟨expression, hloose, rfl⟩⟩
    exact (expressionSpelled_iff_not_misread hloose).mp hdocumented hmisread
  · intro hnot
    constructor
    · constructor
      · rintro ⟨pattern, hparse⟩
        obtain ⟨expression, hloose, -⟩ := parse_ok_iff.mp hparse
        exact (expressionSpelled_iff_not_misread hloose).mpr hnot
      · rintro ⟨expression, hstrict⟩
        exact ⟨_, parse_ok_iff.mpr ⟨expression, hstrict.loosen, rfl⟩⟩
    · intro pattern hparse
      obtain ⟨expression, hloose, rfl⟩ := parse_ok_iff.mp hparse
      obtain ⟨strict, hstrict⟩ := (expressionSpelled_iff_not_misread hloose).mpr hnot
      -- The parser reads a text in one way.
      have hread := parseExpression_ok_iff.mpr hstrict.loosen
      rw [parseExpression_ok_iff.mpr hloose] at hread
      obtain rfl := Except.ok.inj hread
      exact ⟨expression, hstrict, fun propertyPath => NamePattern.matches_iff _ propertyPath⟩

/-- The pattern `*a` is accepted and not documented. -/
theorem star_first_not_exact : ¬ Exact "/oak:index/text" "*a" := by
  intro h
  have hparts : (patternParts "*a".toList).2 = ['*', 'a'] := by decide
  have hread : parseExpression ['*', 'a'] =
      .ok (.one (.cons (.literal '*') .one (.cons (.literal 'a') .one .nil))) := rfl
  have hloose := parseExpression_ok_iff.mp hread
  rw [← hparts] at hloose
  obtain ⟨strict, hstrict⟩ := h.accepts.mp ⟨_, parse_ok_iff.mpr ⟨_, hloose, rfl⟩⟩
  rw [hparts] at hstrict
  have hsame := parseExpression_ok_iff.mpr hstrict.loosen
  rw [hread] at hsame
  obtain rfl := Except.ok.inj hsame
  obtain ⟨front, body, back, htext, hfront, -, hspelled⟩ := hstrict
  obtain rfl : front = [] := by
    rcases hfront with rfl | rfl
    · rfl
    · cases htext
  simp only [Alternation.Spelled, Sequence.Spelled, Atom.Spelled] at hspelled
  obtain ⟨own, others, rfl, ⟨rfl, hplain⟩ | ⟨rfl, -⟩, -⟩ := hspelled
  · cases hplain
  · cases htext

end Froe.NamePatterns
