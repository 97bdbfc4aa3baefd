import Froe.Lucene.NamePatternGrammar

/-!
# The parser of name patterns

The parser accepts exactly the loosely spelled expressions, so that it is right about a text
unless that text is loosely spelled and not strictly (`nameParse_iff`).
-/

namespace Froe.NamePatterns

open Except (bind_ok_iff pure_ok_iff)
open List (append_assoc length_append length_cons mem_cons nil_append)

/-! ## Loose and strict spellings -/

variable {character : Char} {text front rest input back : List Char} {expression : Alternation}
  {total rounds : Nat} {outermost : Bool}

theorem plain_mono (h : plain false character = true) :
    plain true character = true := by
  rw [plain, Bool.and_eq_true] at h ⊢
  exact ⟨h.1, rfl⟩

theorem MembersSpelled.loosen {isFirst : Bool} {members : List ClassMember}
    (h : MembersSpelled false isFirst members text) : MembersSpelled true isFirst members text := by
  induction members generalizing isFirst text with
  | nil => exact h
  | cons member members ih =>
    cases member with
    | single character =>
      obtain ⟨own, rest, htext, hown, hopens, hrest⟩ := h
      exact ⟨own, rest, htext, hown, hopens, ih hrest⟩
    | range first last =>
      obtain ⟨own, ownLast, rest, htext, hown, hlast, horder, hrest⟩ := h
      refine ⟨own, ownLast, rest, htext, hown, ?_, horder, ih hrest⟩
      rcases hlast with ⟨hplain, hclose, hbackslash, -⟩ | hescaped
      · exact .inl ⟨hplain, hclose, hbackslash, .inl rfl⟩
      · exact .inr hescaped

mutual

theorem Atom.Spelled.loosen (a : Atom) {text : List Char} (h : a.Spelled false text) :
    a.Spelled true text := by
  cases a with
  | literal character =>
    rw [Atom.Spelled] at h ⊢
    rcases h with ⟨htext, hplain⟩ | hescaped
    · exact .inl ⟨htext, plain_mono hplain⟩
    · exact .inr hescaped
  | any =>
    rw [Atom.Spelled] at h ⊢
    exact h
  | characterClass c =>
    rw [Atom.Spelled] at h ⊢
    obtain ⟨body, htext, hhat, hmembers⟩ := h
    exact ⟨body, htext, hhat, hmembers.loosen⟩
  | group alternation =>
    rw [Atom.Spelled] at h ⊢
    obtain ⟨inner, htext, hhead, hinner⟩ := h
    exact ⟨inner, htext, hhead, Alternation.Spelled.loosen alternation hinner⟩

theorem Sequence.Spelled.loosen (s : Sequence) {text : List Char} (h : s.Spelled false text) :
    s.Spelled true text := by
  cases s with
  | nil =>
    rw [Sequence.Spelled] at h ⊢
    exact h
  | cons atom quantifier rest =>
    rw [Sequence.Spelled] at h ⊢
    obtain ⟨own, others, htext, hown, hfollows, hcontains, hrest⟩ := h
    exact ⟨own, others, htext, Atom.Spelled.loosen atom hown, hfollows, hcontains,
      Sequence.Spelled.loosen rest hrest⟩

theorem Alternation.Spelled.loosen (a : Alternation) {text : List Char} (h : a.Spelled false text) :
    a.Spelled true text := by
  cases a with
  | one branch =>
    rw [Alternation.Spelled] at h ⊢
    exact Sequence.Spelled.loosen branch h
  | or branch rest =>
    rw [Alternation.Spelled] at h ⊢
    obtain ⟨first, others, htext, hfirst, hothers⟩ := h
    exact ⟨first, others, htext, Sequence.Spelled.loosen branch hfirst,
      Alternation.Spelled.loosen rest hothers⟩

end

theorem ExpressionSpelled.loosen
    (h : ExpressionSpelled false expression text) : ExpressionSpelled true expression text := by
  obtain ⟨front, body, back, htext, hfront, hback, hbody⟩ := h
  exact ⟨front, body, back, htext, hfront, hback, Alternation.Spelled.loosen expression hbody⟩

/-! ## Where an atom begins -/

/-- A character at which the parser looks for an atom. -/
def startsAtom (character : Char) : Bool := character ∉ ['|', ')', '^', '$']

theorem Atom.Spelled.starts {a : Atom} (h : a.Spelled true text) :
    ∃ character rest, text = character :: rest ∧ startsAtom character = true := by
  cases a with
  | literal character =>
    rw [Atom.Spelled] at h
    rcases h with ⟨rfl, hplain⟩ | ⟨rfl, -⟩
    · refine ⟨character, [], rfl, ?_⟩
      rw [plain, Bool.and_eq_true] at hplain
      have hnot := of_decide_eq_true hplain.1
      refine decide_eq_true fun hmem => hnot ?_
      rcases mem_cons.mp hmem with rfl | hmem
      · decide
      rcases mem_cons.mp hmem with rfl | hmem
      · decide
      rcases mem_cons.mp hmem with rfl | hmem
      · decide
      · rw [List.mem_singleton.mp hmem]
        decide
    · exact ⟨'\\', _, rfl, by decide⟩
  | any =>
    rw [Atom.Spelled] at h
    exact ⟨'.', [], h, by decide⟩
  | characterClass c =>
    rw [Atom.Spelled] at h
    obtain ⟨body, htext, -⟩ := h
    exact ⟨'[', _, htext, by decide⟩
  | group alternation =>
    rw [Atom.Spelled] at h
    obtain ⟨inner, htext, -⟩ := h
    exact ⟨'(', _, htext, by decide⟩

theorem Follows.of_append {q : Quantifier} (h : Follows q (front ++ rest)) :
    Follows q front := by
  intro character hmem
  refine h character ?_
  rw [List.head?_append, hmem]
  rfl

/-- What ends a run of atoms is no quantifier. -/
theorem Follows.append {q : Quantifier} (h : Follows q front)
    (hrest : ∀ character ∈ rest.head?, startsAtom character = false) : Follows q (front ++ rest) := by
  cases front with
  | nil =>
    intro character hmem
    have hends := of_decide_eq_false (hrest character hmem)
    rw [not_not] at hends
    rcases mem_cons.mp hends with rfl | hends
    · exact ⟨by decide, fun _ => by decide⟩
    rcases mem_cons.mp hends with rfl | hends
    · exact ⟨by decide, fun _ => by decide⟩
    rcases mem_cons.mp hends with rfl | hends
    · exact ⟨by decide, fun _ => by decide⟩
    · rw [List.mem_singleton.mp hends]
      exact ⟨by decide, fun _ => by decide⟩
  | cons first front => exact h

/-! ## What is read is spelled so -/

/-- A part of a text that is read up to a rest; the anchors at the ends of the whole text are read
with the outermost part. -/
structure Read (total : Nat) (outermost : Bool) (input front body back rest : List Char) : Prop where
  parts : input = front ++ (body ++ (back ++ rest))
  front : front = [] ∨ (outermost = true ∧ front = ['^'] ∧ input.length = total)
  back : back = [] ∨ (outermost = true ∧ back = ['$'] ∧ rest = [])

def EndsBranch (rest : List Char) : Prop := ∀ character ∈ rest.head?, character = '|' ∨ character = ')'

theorem EndsBranch.not_startsAtom (h : EndsBranch rest) :
    ∀ character ∈ rest.head?, startsAtom character = false := by
  intro character hmem
  rcases h character hmem with rfl | rfl
  · rfl
  · rfl

theorem Read.later {body : List Char}
    (h : Read total outermost input front body back rest) (hlength : input.length < total) :
    front = [] := by
  rcases h.front with hfront | ⟨-, -, hequal⟩
  · exact hfront
  · omega

/-- Reading an outermost part behind the front anchor. -/
theorem Read.anchored {body : List Char}
    (h : Read total true input [] body back rest) (hlength : ('^' :: input).length = total) :
    Read total true ('^' :: input) ['^'] body back rest :=
  ⟨congrArg _ h.parts, .inr ⟨rfl, rfl, hlength⟩, h.back⟩

/-- What the three readers find within some rounds. -/
structure ReadsSpelled (total rounds : Nat) : Prop where
  alternation : ∀ {outermost : Bool} {input rest : List Char} {found : Alternation},
    alternation total rounds outermost input = .ok (found, rest) → input.length ≤ total →
      ∃ front body back, Read total outermost input front body back rest ∧
        found.Spelled true body ∧ ∀ character ∈ rest.head?, character = ')'
  sequence : ∀ {outermost : Bool} {input rest : List Char} {found : Sequence},
    sequence total rounds outermost input = .ok (found, rest) → input.length ≤ total →
      ∃ front body back, Read total outermost input front body back rest ∧
        found.Spelled true body ∧ EndsBranch rest
  atom : ∀ {input rest : List Char} {found : Atom},
    atom total rounds input = .ok (found, rest) → input.length ≤ total →
      (∀ character ∈ input.head?, startsAtom character = true) →
      ∃ text, input = text ++ rest ∧ found.Spelled true text

theorem alternation_spelled (ih : ReadsSpelled total rounds) {found : Alternation}
    (h : alternation total (rounds + 1) outermost input = .ok (found, rest))
    (hlength : input.length ≤ total) :
    ∃ front body back, Read total outermost input front body back rest ∧
      found.Spelled true body ∧ ∀ character ∈ rest.head?, character = ')' := by
  rw [alternation] at h
  obtain ⟨⟨branch, left⟩, hbranch, hread⟩ := bind_ok_iff.mp h
  obtain ⟨front, body, back, hparts, hspelled, hends⟩ := ih.sequence hbranch hlength
  dsimp only at hread
  split at hread
  · rename_i tail
    obtain ⟨⟨others, left⟩, hothers, hlast⟩ := bind_ok_iff.mp hread
    obtain ⟨rfl, rfl⟩ := Prod.mk.inj (pure_ok_iff.mp hlast)
    -- A bar stands behind the branch, so that no anchor at the end was read with it.
    obtain rfl : back = [] := by
      rcases hparts.back with hback | ⟨-, -, hnil⟩
      · exact hback
      · cases hnil
    have hinput := hparts.parts
    have htail : tail.length < total := by
      have hlengths := congrArg List.length hinput
      rw [length_append, length_append, length_append, length_cons] at hlengths
      omega
    obtain ⟨frontTail, bodyTail, backTail, hpartsTail, hspelledTail, hendsTail⟩ :=
      ih.alternation hothers (Nat.le_of_lt htail)
    obtain rfl := hpartsTail.later htail
    refine ⟨front, body ++ '|' :: bodyTail, backTail, ⟨?_, hparts.front, hpartsTail.back⟩, ?_,
      hendsTail⟩
    · rw [hinput, hpartsTail.parts]
      simp only [nil_append, append_assoc, List.cons_append]
    · rw [Alternation.Spelled]
      exact ⟨body, bodyTail, rfl, hspelled, hspelledTail⟩
  · rename_i hbar
    obtain ⟨rfl, rfl⟩ := Prod.mk.inj (pure_ok_iff.mp hread)
    refine ⟨front, body, back, hparts, ?_, fun character hmem => ?_⟩
    · rw [Alternation.Spelled]
      exact hspelled
    · rcases hends character hmem with rfl | hclose
      · cases left with
        | nil => cases hmem
        | cons first left => exact absurd (by rw [Option.some.inj hmem]) (hbar left)
      · exact hclose

theorem sequence_spelled (ih : ReadsSpelled total rounds) {found : Sequence}
    (h : sequence total (rounds + 1) outermost input = .ok (found, rest))
    (hlength : input.length ≤ total) :
    ∃ front body back, Read total outermost input front body back rest ∧
      found.Spelled true body ∧ EndsBranch rest := by
  cases input with
  | nil =>
    obtain ⟨rfl, rfl⟩ := Prod.mk.inj (Except.ok.inj h)
    refine ⟨[], [], [], ⟨rfl, .inl rfl, .inl rfl⟩, ?_, nofun⟩
    rw [Sequence.Spelled]
  | cons character input =>
    rw [sequence] at h
    rw [length_cons] at hlength
    split at h
    · rename_i hends
      obtain ⟨rfl, rfl⟩ := Prod.mk.inj (pure_ok_iff.mp h)
      refine ⟨[], [], [], ⟨rfl, .inl rfl, .inl rfl⟩, ?_, fun next hnext => ?_⟩
      · rw [Sequence.Spelled]
      · rw [← Option.some.inj hnext]
        exact hends
    rename_i hnotEnd
    split at h
    · rename_i hfront
      obtain ⟨rfl, houter, htotal⟩ := hfront
      obtain rfl : outermost = true := houter
      obtain ⟨front, body, back, hparts, hspelled, hends⟩ := ih.sequence h (by omega)
      obtain rfl := hparts.later (by rw [← htotal]; exact Nat.lt_succ_self _)
      exact ⟨['^'], body, back, hparts.anchored htotal, hspelled, hends⟩
    rename_i hnotFront
    split at h
    · rename_i hback
      obtain ⟨rfl, houter, rfl⟩ := hback
      obtain rfl : outermost = true := houter
      cases rounds with
      | zero => cases h
      | succ rounds =>
        obtain ⟨rfl, rfl⟩ := Prod.mk.inj (Except.ok.inj h)
        refine ⟨[], [], ['$'], ⟨rfl, .inl rfl, .inr ⟨rfl, rfl, rfl⟩⟩, ?_, nofun⟩
        rw [Sequence.Spelled]
    rename_i hnotBack
    split at h
    · cases h
    rename_i hnotAnchor
    have hstarts : startsAtom character = true := by
      refine decide_eq_true fun hmem => ?_
      rcases mem_cons.mp hmem with rfl | hmem
      · exact hnotEnd (.inl rfl)
      rcases mem_cons.mp hmem with rfl | hmem
      · exact hnotEnd (.inr rfl)
      rcases mem_cons.mp hmem with rfl | hmem
      · exact hnotAnchor (.inl rfl)
      · exact hnotAnchor (.inr (List.mem_singleton.mp hmem))
    obtain ⟨⟨a, left₁⟩, hatom, hread⟩ := bind_ok_iff.mp h
    obtain ⟨text, hinput, htext⟩ := ih.atom hatom hlength fun next hnext => by
      rw [← Option.some.inj hnext]
      exact hstarts
    obtain ⟨⟨q, left₂⟩, hquantifier, hafter⟩ := bind_ok_iff.mp hread
    obtain ⟨hleft, hfollows⟩ := quantifier_ok_iff.mp hquantifier
    obtain rfl : left₁ = q.spelling ++ left₂ := hleft
    dsimp only at hafter
    split at hafter
    · cases hafter
    rename_i hcontains
    obtain ⟨⟨others, left₃⟩, hothers, hlast⟩ := bind_ok_iff.mp hafter
    obtain ⟨rfl, rfl⟩ := Prod.mk.inj (pure_ok_iff.mp hlast)
    have hshorter : left₂.length < total := by
      obtain ⟨first, tail, rfl, -⟩ := htext.starts
      have hlengths := congrArg List.length hinput
      rw [length_append, length_append, length_cons, length_cons] at hlengths
      omega
    obtain ⟨front, body, back, hparts, hspelled, hends⟩ := ih.sequence hothers (Nat.le_of_lt hshorter)
    obtain rfl := hparts.later hshorter
    have hparted := hparts.parts
    refine ⟨[], text ++ (q.spelling ++ body), back, ⟨?_, .inl rfl, hparts.back⟩, ?_, hends⟩
    · rw [hinput, hparted]
      simp only [nil_append, append_assoc]
    · rw [Sequence.Spelled]
      refine ⟨text, body, rfl, htext, ?_, fun hne => ?_, hspelled⟩
      · rw [hparted, nil_append] at hfollows
        exact hfollows.of_append
      · exact Bool.eq_false_iff.mpr fun htrue => hcontains ⟨hne, htrue⟩

theorem atom_spelled (ih : ReadsSpelled total rounds)
    {found : Atom} (h : atom total (rounds + 1) input = .ok (found, rest))
    (hlength : input.length ≤ total)
    (hstarts : ∀ character ∈ input.head?, startsAtom character = true) :
    ∃ text, input = text ++ rest ∧ found.Spelled true text := by
  unfold atom at h
  split at h
  · cases h
  · cases h
  · rename_i hrounds
    obtain rfl := Nat.succ.inj hrounds
    split at h
    · cases h
    rename_i hflag
    obtain ⟨⟨inner, left⟩, hinner, hread⟩ := bind_ok_iff.mp h
    rw [length_cons] at hlength
    obtain ⟨front, body, back, hparts, hspelled, -⟩ := ih.alternation hinner (by omega)
    obtain rfl : front = [] := by
      rcases hparts.front with hfront | ⟨houter, -⟩
      · exact hfront
      · cases houter
    obtain rfl : back = [] := by
      rcases hparts.back with hback | ⟨houter, -⟩
      · exact hback
      · cases houter
    dsimp only at hread
    split at hread
    · obtain ⟨rfl, rfl⟩ := Prod.mk.inj (pure_ok_iff.mp hread)
      have hinput := hparts.parts
      refine ⟨'(' :: (body ++ [')']), ?_, ?_⟩
      · rw [hinput, nil_append, nil_append, List.cons_append, append_assoc]
        rfl
      · rw [Atom.Spelled]
        refine ⟨body, rfl, fun hhead => hflag ?_, hspelled⟩
        rw [hinput, nil_append, List.head?_append, hhead]
        rfl
    · cases hread
  · obtain ⟨⟨c, left⟩, hclass, hread⟩ := bind_ok_iff.mp h
    obtain ⟨rfl, rfl⟩ := Prod.mk.inj (pure_ok_iff.mp hread)
    obtain ⟨text, hinput, htext⟩ := characterClass_ok_iff.mp hclass
    refine ⟨text, hinput, ?_⟩
    rw [Atom.Spelled]
    exact htext
  · obtain ⟨rfl, rfl⟩ := Prod.mk.inj (Except.ok.inj h)
    refine ⟨['.'], rfl, ?_⟩
    rw [Atom.Spelled]
  · obtain ⟨⟨character, left⟩, hescape, hread⟩ := bind_ok_iff.mp h
    obtain ⟨rfl, rfl⟩ := Prod.mk.inj (pure_ok_iff.mp hread)
    obtain ⟨rfl, halnum⟩ := escape_ok_iff.mp hescape
    refine ⟨escaped character, rfl, ?_⟩
    rw [Atom.Spelled]
    exact .inr ⟨rfl, halnum⟩
  · rename_i character tail hgroup hclass hany hescape hrounds
    split at h
    · cases h
    rename_i hclose
    obtain ⟨rfl, rfl⟩ := Prod.mk.inj (Except.ok.inj h)
    refine ⟨[character], rfl, ?_⟩
    rw [Atom.Spelled]
    refine .inl ⟨rfl, Bool.and_eq_true_iff.mpr ⟨decide_eq_true fun hmem => ?_, rfl⟩⟩
    have hnot := of_decide_eq_true (hstarts character rfl)
    simp only [mem_cons, List.not_mem_nil, or_false] at hmem hnot
    rcases hmem with rfl | rfl | rfl | rfl | rfl | rfl | rfl | rfl | rfl | rfl
    all_goals first
      | exact hnot (by decide)
      | exact hclose (by decide)
      | exact hgroup rfl
      | exact hclass rfl
      | exact hany rfl
      | exact hescape rfl

/-- What the parser reads is spelled so, to any depth. -/
theorem readsSpelled (total rounds : Nat) : ReadsSpelled total rounds := by
  induction rounds with
  | zero =>
    constructor
    · nofun
    · nofun
    · nofun
  | succ rounds ih =>
    exact ⟨alternation_spelled ih, sequence_spelled ih, atom_spelled ih⟩

/-! ## What is spelled is read -/

theorem atom_plain (h : plain true character = true) :
    atom total (rounds + 1) (character :: rest) = .ok (.literal character, rest) := by
  have hplain := of_decide_eq_true (Bool.and_eq_true_iff.mp h).1
  simp only [mem_cons, List.not_mem_nil, or_false, not_or] at hplain
  obtain ⟨-, -, -, hopen, -, hbracket, hclose, hbrace, hdot, hbackslash⟩ := hplain
  unfold atom
  split
  · contradiction
  · rename_i heq
    cases heq
  · rename_i heq
    exact absurd (List.cons.inj heq).1 hopen
  · rename_i heq
    exact absurd (List.cons.inj heq).1 hbracket
  · rename_i heq
    exact absurd (List.cons.inj heq).1 hdot
  · rename_i heq
    exact absurd (List.cons.inj heq).1 hbackslash
  · rename_i heq
    obtain ⟨rfl, rfl⟩ := List.cons.inj heq
    rw [if_neg (not_or.mpr ⟨hclose, hbrace⟩)]

theorem sequence_of_startsAtom (h : startsAtom character = true) :
    sequence total (rounds + 1) outermost (character :: input) = (do
      let (atom, input) ← atom total rounds (character :: input)
      let (quantifier, input) ← quantifier input
      if quantifier ≠ .one ∧ atom.containsQuantifier then
        .error "a quantifier over a quantified group"
      else
        let (rest, input) ← sequence total rounds outermost input
        return (.cons atom quantifier rest, input)) := by
  have hnot := of_decide_eq_true h
  simp only [mem_cons, List.not_mem_nil, or_false, not_or] at hnot
  obtain ⟨hbar, hclose, hfront, hback⟩ := hnot
  rw [sequence, if_neg (not_or.mpr ⟨hbar, hclose⟩), if_neg (fun hall => hfront hall.1),
    if_neg (fun hall => hback hall.1), if_neg (not_or.mpr ⟨hfront, hback⟩)]

theorem sequence_nil
    (hback : back = [] ∨ (outermost = true ∧ back = ['$'] ∧ rest = [])) (hends : EndsBranch rest) :
    sequence total (rounds + 2) outermost (back ++ rest) = .ok (.nil, rest) := by
  rcases hback with rfl | ⟨rfl, rfl, rfl⟩
  · cases rest with
    | nil => rfl
    | cons character rest =>
      rw [nil_append, sequence, if_pos (hends character rfl)]
      rfl
  · rw [List.append_nil, sequence, if_neg (by decide), if_neg (fun hall => absurd hall.1 (by decide)),
      if_pos ⟨rfl, rfl, rfl⟩]
    rfl

/-- The front anchor is read in a round of its own. -/
theorem sequence_front {found : Sequence × List Char}
    (hfront : front = [] ∨ (outermost = true ∧ front = ['^'] ∧ (front ++ input).length = total))
    (h : sequence total rounds outermost input = .ok found) :
    sequence total (rounds + front.length) outermost (front ++ input) = .ok found := by
  rcases hfront with rfl | ⟨rfl, rfl, htotal⟩
  · exact h
  · rw [List.singleton_append] at htotal ⊢
    rw [List.length_singleton, sequence, if_neg (by decide), if_pos ⟨rfl, rfl, htotal⟩]
    exact h

theorem startsAtom_back
    (hback : back = [] ∨ (outermost = true ∧ back = ['$'] ∧ rest = [])) (hends : EndsBranch rest) :
    ∀ character ∈ (back ++ rest).head?, startsAtom character = false := by
  rcases hback with rfl | ⟨-, rfl, rfl⟩
  · exact hends.not_startsAtom
  · intro character hmem
    rw [← Option.some.inj hmem]
    rfl

mutual

theorem Atom.Spelled.reads (a : Atom) {text : List Char} (h : a.Spelled true text) (total : Nat)
    (rest : List Char) {rounds : Nat} (hrounds : 3 * text.length ≤ rounds) :
    atom total rounds (text ++ rest) = .ok (a, rest) := by
  have hpos : 0 < text.length := by
    obtain ⟨first, tail, rfl, -⟩ := h.starts
    exact Nat.succ_pos _
  obtain ⟨rounds, rfl⟩ : ∃ left, rounds = left + 1 := ⟨rounds - 1, by omega⟩
  cases a with
  | literal character =>
    rw [Atom.Spelled] at h
    rcases h with ⟨rfl, hplain⟩ | ⟨rfl, halnum⟩
    · exact atom_plain hplain
    · exact bind_ok_iff.mpr ⟨_, escape_ok_iff.mpr ⟨rfl, halnum⟩, rfl⟩
  | any =>
    rw [Atom.Spelled] at h
    subst h
    rfl
  | characterClass c =>
    rw [Atom.Spelled] at h
    obtain ⟨body, htext, hbody⟩ := h
    subst htext
    exact bind_ok_iff.mpr
      ⟨_, characterClass_ok_iff.mpr ⟨_, rfl, body, rfl, hbody⟩, rfl⟩
  | group alternation =>
    rw [Atom.Spelled] at h
    obtain ⟨inner, htext, hhead, hinner⟩ := h
    subst htext
    rw [length_cons, length_append, List.length_singleton] at hrounds
    have hread := Alternation.Spelled.reads alternation hinner total false [] [] (')' :: rest)
      (.inl rfl) (.inl rfl) (fun character hmem => (Option.some.inj hmem).symm)
      (show 3 * inner.length + 4 ≤ rounds by omega)
    have hflag : (inner ++ ')' :: rest).head? ≠ some '?' := by
      cases inner with
      | nil => exact fun heq => absurd (Option.some.inj heq) (by decide)
      | cons first inner => exact hhead
    rw [List.cons_append, append_assoc, List.singleton_append, atom, if_neg hflag]
    exact bind_ok_iff.mpr ⟨_, hread, rfl⟩

theorem Sequence.Spelled.reads (s : Sequence) {body : List Char} (h : s.Spelled true body)
    (total : Nat) (outermost : Bool) (back rest : List Char)
    (hback : back = [] ∨ (outermost = true ∧ back = ['$'] ∧ rest = [])) (hends : EndsBranch rest)
    {rounds : Nat} (hrounds : 3 * body.length + 2 ≤ rounds) :
    sequence total rounds outermost (body ++ (back ++ rest)) = .ok (s, rest) := by
  cases s with
  | nil =>
    rw [Sequence.Spelled] at h
    subst h
    obtain ⟨rounds, rfl⟩ : ∃ left, rounds = left + 2 := ⟨rounds - 2, by omega⟩
    exact sequence_nil hback hends
  | cons a q others =>
    rw [Sequence.Spelled] at h
    obtain ⟨own, tail, htext, hown, hfollows, hcontains, hothers⟩ := h
    subst htext
    obtain ⟨first, ownTail, hfirst, hstarts⟩ := hown.starts
    rw [length_append, length_append] at hrounds
    have hpos : 0 < own.length := by
      rw [hfirst]
      exact Nat.succ_pos _
    obtain ⟨rounds, rfl⟩ : ∃ left, rounds = left + 1 := ⟨rounds - 1, by omega⟩
    have hatom := Atom.Spelled.reads a hown total (q.spelling ++ (tail ++ (back ++ rest)))
      (show 3 * own.length ≤ rounds by omega)
    have hquantifier : quantifier (q.spelling ++ (tail ++ (back ++ rest))) =
        .ok (q, tail ++ (back ++ rest)) :=
      quantifier_ok_iff.mpr ⟨rfl, hfollows.append (startsAtom_back hback hends)⟩
    have hrest := Sequence.Spelled.reads others hothers total outermost back rest hback hends
      (show 3 * tail.length + 2 ≤ rounds by omega)
    rw [append_assoc, append_assoc, hfirst, List.cons_append,
      sequence_of_startsAtom hstarts, ← List.cons_append, ← hfirst]
    refine bind_ok_iff.mpr ⟨_, hatom, bind_ok_iff.mpr ⟨_, hquantifier, ?_⟩⟩
    dsimp only
    rw [if_neg (fun hall => by
      have hnot := hcontains hall.1
      rw [hall.2] at hnot
      cases hnot)]
    exact bind_ok_iff.mpr ⟨_, hrest, rfl⟩

theorem Alternation.Spelled.reads (a : Alternation) {body : List Char} (h : a.Spelled true body)
    (total : Nat) (outermost : Bool) (front back rest : List Char) (hfront : front = [] ∨
      (outermost = true ∧ front = ['^'] ∧ (front ++ (body ++ (back ++ rest))).length = total))
    (hback : back = [] ∨ (outermost = true ∧ back = ['$'] ∧ rest = []))
    (hends : ∀ character ∈ rest.head?, character = ')')
    {rounds : Nat} (hrounds : 3 * body.length + 4 ≤ rounds) :
    alternation total rounds outermost (front ++ (body ++ (back ++ rest))) = .ok (a, rest) := by
  have hfrontLength : front.length ≤ 1 := by
    rcases hfront with rfl | ⟨-, rfl, -⟩
    · exact Nat.zero_le _
    · exact Nat.le_refl _
  obtain ⟨rounds, rfl⟩ : ∃ left, rounds = left + front.length + 1 :=
    ⟨rounds - front.length - 1, by omega⟩
  cases a with
  | one branch =>
    rw [Alternation.Spelled] at h
    have hbranch := sequence_front hfront (Sequence.Spelled.reads branch h total outermost back rest
      hback (fun character hmem => .inr (hends character hmem))
      (show 3 * body.length + 2 ≤ rounds by omega))
    rw [alternation, hbranch, Except.ok_bind_eq]
    cases rest with
    | nil => rfl
    | cons character rest =>
      obtain rfl := hends character rfl
      rfl
  | or branch others =>
    rw [Alternation.Spelled] at h
    obtain ⟨first, tail, htext, hfirst, hothers⟩ := h
    subst htext
    rw [length_append, length_cons] at hrounds
    have hinput : first ++ '|' :: tail ++ (back ++ rest) =
        first ++ ([] ++ '|' :: (tail ++ (back ++ rest))) := by
      rw [append_assoc, nil_append, List.cons_append]
    rw [hinput] at hfront ⊢
    have hbranch := sequence_front hfront (Sequence.Spelled.reads branch hfirst total outermost []
      ('|' :: (tail ++ (back ++ rest))) (.inl rfl)
      (fun character hmem => .inl (Option.some.inj hmem).symm)
      (show 3 * first.length + 2 ≤ rounds by omega))
    have hrest := Alternation.Spelled.reads others hothers total outermost [] back rest (.inl rfl)
      hback hends (show 3 * tail.length + 4 ≤ rounds + front.length by omega)
    rw [alternation, hbranch, Except.ok_bind_eq]
    exact bind_ok_iff.mpr ⟨_, hrest, rfl⟩

end

/-- The parser accepts exactly the loosely spelled expressions. -/
theorem parseExpression_ok_iff {units : List Char} :
    parseExpression units = .ok expression ↔ ExpressionSpelled true expression units := by
  constructor
  · intro h
    obtain ⟨⟨found, rest⟩, hfound, hread⟩ := bind_ok_iff.mp h
    dsimp only at hread
    split at hread
    · rename_i hrest
      obtain rfl := pure_ok_iff.mp hread
      obtain rfl : rest = [] := hrest
      obtain ⟨front, body, back, hparts, hspelled, -⟩ :=
        (readsSpelled _ _).alternation hfound (Nat.le_refl _)
      refine ⟨front, body, back, ?_, ?_, ?_, hspelled⟩
      · rw [hparts.parts, List.append_nil]
      · exact hparts.front.imp id fun hall => hall.2.1
      · exact hparts.back.imp id fun hall => hall.2.1
    · cases hread
  · rintro ⟨front, body, back, rfl, hfront, hback, hspelled⟩
    have hread := Alternation.Spelled.reads expression hspelled (front ++ (body ++ back)).length true
      front back [] (hfront.imp id fun hone => ⟨rfl, hone, by rw [List.append_nil]⟩)
      (hback.imp id fun hone => ⟨rfl, hone, rfl⟩) nofun
      (show 3 * body.length + 4 ≤ 3 * (front ++ (body ++ back)).length + 4 by
        rw [length_append, length_append]
        omega)
    rw [List.append_nil] at hread
    exact bind_ok_iff.mpr ⟨_, hread, rfl⟩

end Froe.NamePatterns
