import Froe.Content.Hashing
import Froe.Lib.Except
import Froe.Lib.Related
import Froe.Segment.Identifier

/-!
# Java properties

A properties file is cut into physical lines at carriage returns and line feeds.
An odd number of backslashes at the end of a physical line continues it, and the
lines so joined are a *logical line*, a key and a value.  Leading blanks of every
physical line are dropped, and blank lines and comments are skipped, but only where
no logical line is open.  Keys and values hold escapes and are read as UTF-16 code
units.

The end of the file is special.  A logical line that is still empty when the file
ends after a continuation is a property with an empty key and an empty value, while
one that is empty when a later physical line ends it is dropped.  `LineState` says
which of the three states the lines so far leave behind.
-/

namespace Froe

open Utf16 (charUtf16)

/-! ## Physical lines -/

/-- Blank, tabulator and form feed. -/
def isJavaPropertyWhitespace (character : Char) : Bool :=
  character = ' ' ∨ character = '\t' ∨ character = '\x0c'

/-- The physical lines of a text, each with whether a terminator ends it.  A carriage
return takes a line feed behind it along. -/
def physicalLines : List Char → List (List Char × Bool)
  | [] => []
  | '\r' :: '\n' :: rest => ([], true) :: physicalLines rest
  | character :: rest =>
    if character = '\r' ∨ character = '\n' then ([], true) :: physicalLines rest
    else
      match physicalLines rest with
      | [] => [([character], false)]
      | (natural, terminated) :: lines => (character :: natural, terminated) :: lines

/-- A physical line without its leading blanks. -/
def naturalLine (line : List Char) : List Char := line.dropWhile isJavaPropertyWhitespace

/-- Whether nothing of a line is read where a logical line would begin. -/
def isBlankOrComment (natural : List Char) : Bool :=
  match natural with
  | [] => true
  | character :: _ => character = '#' ∨ character = '!'

/-- Whether a line ends in an odd number of backslashes. -/
def continues (natural : List Char) : Bool :=
  (natural.reverse.takeWhile (· = '\\')).length % 2 = 1

/-! ## Logical lines -/

/-- The logical lines that are complete, and the one that is open. -/
structure LogicalLines where
  lines : List (List Char)
  logical : List Char
  continuation : Bool
deriving DecidableEq

namespace LogicalLines

/-- No line has been read. -/
def empty : LogicalLines := ⟨[], [], false⟩

/-- Takes one natural line. -/
def take (state : LogicalLines) (line : List Char × Bool) : LogicalLines :=
  let natural := naturalLine line.1
  if state.continuation = false ∧ state.logical = [] ∧ isBlankOrComment natural = true then state
  else
    let appended := natural.take (natural.length - (continues natural).toNat)
    let logical := state.logical ++ appended
    if continues natural ∧ line.2 then ⟨state.lines, logical, true⟩
    else if logical ≠ [] then ⟨state.lines ++ [logical], [], false⟩
    -- a lone backslash at the end of the file is an empty property
    else if continues natural ∧ ¬ line.2 then ⟨state.lines ++ [[]], [], false⟩
    else ⟨state.lines, [], false⟩

/-- Takes the physical lines in order. -/
def run (state : LogicalLines) (lines : List (List Char × Bool)) : LogicalLines :=
  lines.foldl take state

/-- The lines at the end of the file. -/
def finish (state : LogicalLines) : List (List Char) :=
  if state.continuation ∨ state.logical ≠ [] then state.lines ++ [state.logical] else state.lines

end LogicalLines

/-- The logical lines of a text. -/
def javaPropertyLogicalLines (content : String) : List (List Char) :=
  (LogicalLines.empty.run (physicalLines content.toList)).finish

/-! ## Keys and values -/

/-- The key of a line, whether `=` or `:` ended it, and what comes after. -/
def scanKey (precedingBackslash : Bool) : List Char → List Char × Bool × List Char
  | [] => ([], false, [])
  | character :: rest =>
    if (character = '=' ∨ character = ':') ∧ ¬ precedingBackslash then ([], true, rest)
    else if isJavaPropertyWhitespace character ∧ ¬ precedingBackslash then ([], false, rest)
    else
      let (key, hasSeparator, after) := scanKey (character = '\\' ∧ ¬ precedingBackslash) rest
      (character :: key, hasSeparator, after)

/-- Drops the blanks before a value, with one separator among them if none was seen. -/
def dropSeparators (hasSeparator : Bool) : List Char → List Char
  | [] => []
  | character :: rest =>
    if isJavaPropertyWhitespace character then dropSeparators hasSeparator rest
    else if ¬ hasSeparator ∧ (character = '=' ∨ character = ':') then dropSeparators true rest
    else character :: rest

/-- Cuts a logical line into key and value. -/
def splitJavaProperty (line : List Char) : List Char × List Char :=
  let (key, hasSeparator, after) := scanKey false line
  (key, dropSeparators hasSeparator after)

/-- The value of a hexadecimal digit. -/
def javaHexDigit (character : Char) : Option Nat :=
  if '0' ≤ character ∧ character ≤ '9' then some (character.toNat - '0'.toNat)
  else if 'a' ≤ character ∧ character ≤ 'f' then some (character.toNat - 'a'.toNat + 10)
  else if 'A' ≤ character ∧ character ≤ 'F' then some (character.toNat - 'A'.toNat + 10)
  else none

/-- The error for a broken escape. -/
def malformedJavaUnicodeEscape : Error :=
  .invalidFormat "malformed \\uXXXX escape in manifest properties"

/-- The code unit of four hexadecimal digits. -/
def unicodeEscapeValue (first second third fourth : Char) : Option UInt16 := do
  let a ← javaHexDigit first
  let b ← javaHexDigit second
  let c ← javaHexDigit third
  let d ← javaHexDigit fourth
  return UInt16.ofNat (((a * 16 + b) * 16 + c) * 16 + d)

/-- The code units of an escaped character that is not `u`. -/
def escapedUnits (escaped : Char) : List UInt16 :=
  if escaped = 't' then charUtf16 '\t'
  else if escaped = 'n' then charUtf16 '\n'
  else if escaped = 'r' then charUtf16 '\r'
  else if escaped = 'f' then charUtf16 '\x0c'
  else charUtf16 escaped

/-- Resolves the escapes of a key or a value. -/
def decodeJavaPropertyComponent : List Char → Result (List UInt16)
  | [] => .ok []
  | '\\' :: [] => .error (.invalidFormat "malformed trailing escape in manifest properties")
  | '\\' :: 'u' :: first :: second :: third :: fourth :: rest =>
    match unicodeEscapeValue first second third fourth with
    | some unit => return unit :: (← decodeJavaPropertyComponent rest)
    | none => .error malformedJavaUnicodeEscape
  | '\\' :: 'u' :: _ => .error malformedJavaUnicodeEscape
  | '\\' :: escaped :: rest => return escapedUnits escaped ++ (← decodeJavaPropertyComponent rest)
  | character :: rest => return charUtf16 character ++ (← decodeJavaPropertyComponent rest)

/-- The key and the value of a logical line. -/
def decodeJavaProperty (line : List Char) : Result (List UInt16 × List UInt16) := do
  let key ← decodeJavaPropertyComponent (splitJavaProperty line).1
  let value ← decodeJavaPropertyComponent (splitJavaProperty line).2
  return (key, value)

/-- The properties of a text, in order. -/
def parseJavaProperties (content : String) : Result (List (List UInt16 × List UInt16)) :=
  (javaPropertyLogicalLines content).mapM decodeJavaProperty

/-- The units of an ASCII text. -/
def javaPropertyAscii (value : String) : List UInt16 := value.utf8.map UInt8.toUInt16
/-! ## Cutting a text -/

/-- Some lines, each with a terminator. -/
def terminated (lines : List (List Char × Bool)) : List (List Char × Bool) :=
  lines.map fun line => (line.1, true)

/-- A text that ends in a line feed. -/
def closed (text : List Char) : List Char :=
  if text.getLast? = some '\n' then text else text ++ ['\n']

theorem closed_cons (character : Char) {rest : List Char} (h : rest ≠ []) :
    closed (character :: rest) = character :: closed rest := by
  have hlast : (character :: rest).getLast? = rest.getLast? := by
    cases rest with
    | nil => exact absurd rfl h
    | cons next rest => exact List.getLast?_cons_cons
  rw [closed, closed, hlast]
  split
  · rfl
  · rfl

variable {text component : List Char}

theorem head?_closed (h : text ≠ []) : (closed text).head? = text.head? := by
  rw [closed]
  split
  · rfl
  · exact List.head?_append_of_ne_nil text h

theorem closed_ne_nil (h : text ≠ []) : closed text ≠ [] := by
  rw [closed]
  split
  · exact h
  · exact List.append_ne_nil_of_left_ne_nil h _

theorem physicalLines_cons {character : Char} {rest : List Char}
    (h : character = '\r' → rest.head? ≠ some '\n') :
    physicalLines (character :: rest) =
      if character = '\r' ∨ character = '\n' then ([], true) :: physicalLines rest
      else
        match physicalLines rest with
        | [] => [([character], false)]
        | (natural, terminated) :: lines => (character :: natural, terminated) :: lines := by
  rw [physicalLines.eq_3]
  rintro tail rfl rfl
  exact h rfl rfl

theorem physicalLines_ne_nil (h : text ≠ []) : physicalLines text ≠ [] := by
  fun_cases physicalLines text with
  | case1 => exact absurd rfl h
  | _ => simp

/-- A text that is closed is cut apart from what follows it. -/
theorem physicalLines_closed (h : text ≠ []) (tail : List Char) :
    physicalLines (closed text ++ tail) = terminated (physicalLines text) ++ physicalLines tail := by
  fun_induction physicalLines text with
  | case1 => exact absurd rfl h
  | case2 rest ih =>
    by_cases hrest : rest = []
    · subst hrest
      rfl
    · rw [closed_cons _ (List.cons_ne_nil _ _), closed_cons _ hrest, List.cons_append,
        List.cons_append, physicalLines.eq_2, ih hrest]
      rfl
  | case3 character rest hcr hterm ih =>
    by_cases hrest : rest = []
    · subst hrest
      rcases hterm with rfl | rfl
      · rfl
      · rfl
    · have hhead : character = '\r' → (closed rest ++ tail).head? ≠ some '\n' := by
        intro heq hhead
        rw [List.head?_append_of_ne_nil _ (closed_ne_nil hrest), head?_closed hrest] at hhead
        obtain ⟨more, rfl⟩ := List.head?_eq_some_iff.mp hhead
        exact hcr more heq rfl
      rw [closed_cons _ hrest, List.cons_append, physicalLines_cons hhead, if_pos hterm, ih hrest]
      rfl
  | case4 character rest hcr hterm hnil ih =>
    have hrest : rest = [] := by
      by_contra hne
      exact physicalLines_ne_nil hne hnil
    subst hrest
    have hne : character ≠ '\n' := fun heq => hterm (.inr heq)
    have hclosed : closed [character] = [character, '\n'] := by
      rw [closed, if_neg (by simpa using hne)]
      rfl
    have hhead : character = '\r' → ('\n' :: tail).head? ≠ some '\n' :=
      fun heq => absurd (.inl heq) hterm
    rw [hclosed, List.cons_append, List.cons_append, List.nil_append, physicalLines_cons hhead,
      if_neg hterm]
    rfl
  | case5 character rest hcr hterm natural terminated lines hlines ih =>
    have hrest : rest ≠ [] := by
      rintro rfl
      cases hlines
    have hhead : character = '\r' → (closed rest ++ tail).head? ≠ some '\n' :=
      fun heq => absurd (.inl heq) hterm
    rw [closed_cons _ hrest, List.cons_append, physicalLines_cons hhead, if_neg hterm, ih hrest,
      hlines]
    rfl

/-- Every line but the last has a terminator. -/
theorem physicalLines_eq (h : text ≠ []) :
    ∃ lines last, physicalLines text = terminated lines ++ [last] := by
  fun_induction physicalLines text with
  | case1 => exact absurd rfl h
  | case2 rest ih =>
    by_cases hrest : rest = []
    · subst hrest
      exact ⟨[], _, rfl⟩
    · obtain ⟨lines, last, hlines⟩ := ih hrest
      exact ⟨([], true) :: lines, last, congrArg (([], true) :: ·) hlines⟩
  | case3 character rest hcr hterm ih =>
    by_cases hrest : rest = []
    · subst hrest
      exact ⟨[], _, rfl⟩
    · obtain ⟨lines, last, hlines⟩ := ih hrest
      exact ⟨([], true) :: lines, last, congrArg (([], true) :: ·) hlines⟩
  | case4 character rest hcr hterm hnil ih => exact ⟨[], _, rfl⟩
  | case5 character rest hcr hterm natural complete lines hlines ih =>
    have hrest : rest ≠ [] := by
      rintro rfl
      cases hlines
    obtain ⟨before, last, hbefore⟩ := ih hrest
    rw [hlines] at hbefore
    cases before with
    | nil =>
      obtain ⟨rfl, rfl⟩ := List.cons.inj hbefore
      exact ⟨[], _, rfl⟩
    | cons first before =>
      obtain ⟨heq, rfl⟩ := List.cons.inj hbefore
      obtain ⟨rfl, rfl⟩ := Prod.mk.inj heq
      exact ⟨(character :: first.1, true) :: before, last, rfl⟩

/-! ## Where the lines leave off -/

/-- What a sequence of physical lines leaves open. -/
inductive LineState where
  /-- No logical line. -/
  | fresh
  /-- A logical line with nothing in it. -/
  | bare
  /-- A logical line with something in it. -/
  | within
deriving DecidableEq, Repr

/-- What is open after one more line. -/
def LineState.next (state : LineState) (line : List Char) : LineState :=
  let natural := naturalLine line
  if state = .fresh ∧ isBlankOrComment natural = true then .fresh
  else if continues natural = false then .fresh
  -- a lone backslash adds nothing
  else if state ≠ .within ∧ natural = ['\\'] then .bare
  else .within

/-- What some physical lines leave open. -/
def lineStateAfter (lines : List (List Char × Bool)) : LineState :=
  lines.foldl (fun (state : LineState) line => state.next line.1) .fresh

/-- Whether a text ends in a logical line with nothing in it: the lines from its start on are
lone backslashes. -/
def EndsBare (content : String) : Prop := lineStateAfter (physicalLines content.toList) = .bare

instance (content : String) : Decidable (EndsBare content) :=
  inferInstanceAs (Decidable (_ = _))

namespace LogicalLines

/-- Where a reader is after some lines. -/
def lineState (state : LogicalLines) : LineState :=
  if state.continuation = true then if state.logical = [] then .bare else .within else .fresh

/-- Nothing is open without a continuation. -/
def Tidy (state : LogicalLines) : Prop := state.continuation = false → state.logical = []

variable {natural : List Char} {state : LogicalLines} {line : List Char × Bool}

theorem length_continues (h : continues natural = true) :
    1 ≤ natural.length := by
  cases natural with
  | nil => cases h
  | cons character natural => exact Nat.succ_pos _

theorem appended_eq_nil (h : continues natural = true) :
    natural.take (natural.length - (continues natural).toNat) = [] ↔ natural = ['\\'] := by
  rw [h]
  constructor
  · intro hnil
    have hlength := congrArg List.length hnil
    rw [List.length_take, List.length_nil, Bool.toNat_true] at hlength
    have hone : natural.length = 1 := by
      have := length_continues h
      omega
    obtain ⟨character, rfl⟩ := List.length_eq_one_iff.mp hone
    by_cases heq : character = '\\'
    · rw [heq]
    · simp [continues, heq] at h
  · rintro rfl
    rfl

theorem tidy_take (h : state.Tidy) (line : List Char × Bool) :
    (state.take line).Tidy := by
  rw [take]
  dsimp only
  split
  · exact h
  · split
    · nofun
    · split
      · exact fun _ => rfl
      · split
        · exact fun _ => rfl
        · exact fun _ => rfl

/-- Without an open logical line, a blank line or a comment is skipped. -/
theorem take_skipped {lines : List (List Char)} (h : isBlankOrComment (naturalLine line.1) = true) :
    take ⟨lines, [], false⟩ line = ⟨lines, [], false⟩ := by
  rw [take]
  dsimp only
  rw [if_pos ⟨rfl, rfl, h⟩]

/-- Where a line is read, it is appended and the logical line goes on or ends. -/
theorem take_read (h : state.lineState = .fresh → isBlankOrComment (naturalLine line.1) = false) :
    state.take line =
      let natural := naturalLine line.1
      let logical := state.logical ++ natural.take (natural.length - (continues natural).toNat)
      if continues natural ∧ line.2 then ⟨state.lines, logical, true⟩
      else if logical ≠ [] then ⟨state.lines ++ [logical], [], false⟩
      else if continues natural ∧ ¬ line.2 then ⟨state.lines ++ [[]], [], false⟩
      else ⟨state.lines, [], false⟩ := by
  rw [take]
  dsimp only
  rw [if_neg]
  rintro ⟨hcontinuation, -, hblank⟩
  have hfresh : state.lineState = .fresh := by
    rw [lineState, hcontinuation]
    rfl
  rw [h hfresh] at hblank
  cases hblank

theorem eq_of_fresh (h : state.Tidy) (hfresh : state.lineState = .fresh) :
    state = ⟨state.lines, [], false⟩ := by
  obtain ⟨lines, logical, continuation⟩ := state
  cases continuation with
  | false =>
    obtain rfl : logical = [] := h rfl
    rfl
  | true =>
    rw [lineState, if_pos rfl] at hfresh
    split at hfresh
    · cases hfresh
    · cases hfresh

theorem logical_eq_nil_iff (h : state.Tidy) :
    state.logical = [] ↔ state.lineState ≠ .within := by
  obtain ⟨lines, logical, continuation⟩ := state
  cases continuation with
  | false =>
    obtain rfl : logical = [] := h rfl
    exact ⟨nofun, fun _ => rfl⟩
  | true =>
    cases logical with
    | nil => exact ⟨nofun, fun _ => rfl⟩
    | cons character logical => exact ⟨nofun, fun h => absurd rfl h⟩

theorem lineState_take (h : state.Tidy) (line : List Char) :
    (state.take (line, true)).lineState = state.lineState.next line := by
  by_cases hskip : state.lineState = .fresh ∧ isBlankOrComment (naturalLine line) = true
  · obtain ⟨hfresh, hblank⟩ := hskip
    rw [LineState.next, if_pos ⟨hfresh, hblank⟩, eq_of_fresh h hfresh, take_skipped hblank]
    rfl
  · rw [take_read fun hfresh => Bool.eq_false_iff.mpr fun hblank => hskip ⟨hfresh, hblank⟩,
      LineState.next, if_neg hskip]
    dsimp only
    by_cases hcontinues : continues (naturalLine line) = true
    · rw [if_pos ⟨hcontinues, rfl⟩, if_neg (by rw [hcontinues]; nofun), lineState, if_pos rfl]
      dsimp only
      refine if_congr ?_ rfl rfl
      rw [List.append_eq_nil_iff, logical_eq_nil_iff h, appended_eq_nil hcontinues]
    · rw [if_neg fun hand => hcontinues hand.1, if_pos (Bool.eq_false_iff.mpr hcontinues)]
      split
      · rfl
      · rw [if_neg fun hand => hcontinues hand.1]
        rfl

/-- At the end of the file it does not matter whether the last line is terminated. -/
theorem finish_take (h : state.Tidy) (line : List Char × Bool) :
    (state.take (line.1, true)).finish = (state.take line).finish := by
  obtain ⟨line, terminated⟩ := line
  by_cases hskip : state.lineState = .fresh ∧ isBlankOrComment (naturalLine line) = true
  · rw [eq_of_fresh h hskip.1, take_skipped hskip.2, take_skipped hskip.2]
  · have hread : state.lineState = .fresh → isBlankOrComment (naturalLine line) = false :=
      fun hfresh => Bool.eq_false_iff.mpr fun hblank => hskip ⟨hfresh, hblank⟩
    rw [take_read hread, take_read hread]
    cases terminated with
    | true => rfl
    | false =>
      dsimp only
      cases hcontinues : continues (naturalLine line) with
      | false => rfl
      | true =>
        rw [if_pos ⟨rfl, rfl⟩, if_neg nofun, finish, if_pos (.inl rfl)]
        dsimp only
        split
        · rfl
        · rename_i hempty
          rw [not_not.mp hempty]
          rfl

theorem run_append (state : LogicalLines) (lines more : List (List Char × Bool)) :
    state.run (lines ++ more) = (state.run lines).run more :=
  List.foldl_append

theorem run_terminated (h : state.Tidy) (lines : List (List Char × Bool)) :
    (state.run (terminated lines)).Tidy ∧
      (state.run (terminated lines)).lineState =
        lines.foldl (fun (state : LineState) line => state.next line.1) state.lineState := by
  induction lines generalizing state with
  | nil => exact ⟨h, rfl⟩
  | cons line lines ih =>
    obtain ⟨htidy, hstate⟩ := ih (tidy_take h (line.1, true))
    rw [lineState_take h] at hstate
    exact ⟨htidy, hstate⟩

/-- An empty line ends what is open, and an open line with nothing in it is dropped. -/
theorem take_empty (h : state.Tidy) :
    (state.lineState = .bare ∧ state.finish = state.lines ++ [[]] ∧
        state.take ([], true) = ⟨state.lines, [], false⟩) ∨
      state.lineState ≠ .bare ∧ state.take ([], true) = ⟨state.finish, [], false⟩ := by
  obtain ⟨lines, logical, continuation⟩ := state
  cases continuation with
  | false =>
    obtain rfl : logical = [] := h rfl
    exact .inr ⟨nofun, rfl⟩
  | true =>
    cases logical with
    | nil => exact .inl ⟨rfl, rfl, rfl⟩
    | cons character logical =>
      refine .inr ⟨nofun, ?_⟩
      have hopen : lineState ⟨lines, character :: logical, true⟩ ≠ .fresh := nofun
      rw [take_read fun hfresh => absurd hfresh hopen]
      dsimp only
      rw [show naturalLine [] = [] from rfl, List.take_nil, List.append_nil]
      rfl

/-- Giving the last line of a text a terminator changes no logical line. -/
theorem finish_run_terminated (text : List Char) :
    (empty.run (terminated (physicalLines text))).finish =
      (empty.run (physicalLines text)).finish := by
  by_cases hne : text = []
  · rw [hne]
    rfl
  · obtain ⟨before, last, hlines⟩ := physicalLines_eq hne
    have htwice : terminated (terminated before ++ [last]) =
        terminated before ++ [(last.1, true)] := by
      rw [terminated, List.map_append, terminated, List.map_map]
      rfl
    rw [hlines, htwice, run_append, run_append]
    exact finish_take (run_terminated (fun _ => rfl) before).1 last

end LogicalLines

theorem logicalLines_closed (h : text ≠ []) (tail : List Char) :
    ∃ lines,
      LogicalLines.empty.run (physicalLines (closed text ++ '\n' :: tail)) =
        LogicalLines.run ⟨lines, [], false⟩ (physicalLines tail) ∧
      (LogicalLines.empty.run (physicalLines text)).finish =
        lines ++ if lineStateAfter (physicalLines text) = .bare then [[]] else [] := by
  have hempty : LogicalLines.empty.Tidy := fun _ => rfl
  obtain ⟨htidy, hstate⟩ := LogicalLines.run_terminated hempty (physicalLines text)
  change _ = lineStateAfter (physicalLines text) at hstate
  have hlines : physicalLines ('\n' :: tail) = ([], true) :: physicalLines tail := rfl
  have hrun : LogicalLines.empty.run (physicalLines (closed text ++ '\n' :: tail)) =
      ((LogicalLines.empty.run (terminated (physicalLines text))).take ([], true)).run
        (physicalLines tail) := by
    rw [physicalLines_closed h, hlines, LogicalLines.run_append]
    rfl
  rw [hrun, ← LogicalLines.finish_run_terminated]
  rcases LogicalLines.take_empty htidy with ⟨hbare, hend, htake⟩ | ⟨hbare, htake⟩
  · refine ⟨_, by rw [htake], ?_⟩
    rw [hend, if_pos (hstate.symm.trans hbare)]
  · refine ⟨_, by rw [htake], ?_⟩
    rw [if_neg fun heq => hbare (hstate.trans heq), List.append_nil]

/-! ## Escapes -/

/-- The characters that escapes are made of. -/
def IsHexDigit (character : Char) : Prop :=
  '0' ≤ character ∧ character ≤ '9' ∨ 'a' ≤ character ∧ character ≤ 'f' ∨
    'A' ≤ character ∧ character ≤ 'F'

/-- Every backslash begins an escape: a character that is not `u`, or `u` and four hexadecimal
digits. -/
inductive WellEscaped : List Char → Prop where
  | nil : WellEscaped []
  | plain {character : Char} {rest : List Char} (hplain : character ≠ '\\')
      (hrest : WellEscaped rest) : WellEscaped (character :: rest)
  | escaped {character : Char} {rest : List Char} (hcharacter : character ≠ 'u')
      (hrest : WellEscaped rest) : WellEscaped ('\\' :: character :: rest)
  | unicode {first second third fourth : Char} {rest : List Char} (hfirst : IsHexDigit first)
      (hsecond : IsHexDigit second) (hthird : IsHexDigit third) (hfourth : IsHexDigit fourth)
      (hrest : WellEscaped rest) :
      WellEscaped ('\\' :: 'u' :: first :: second :: third :: fourth :: rest)

theorem javaHexDigit_isSome_iff {character : Char} :
    (∃ digit, javaHexDigit character = some digit) ↔ IsHexDigit character := by
  rw [javaHexDigit, IsHexDigit]
  split
  · exact ⟨fun _ => .inl ‹_›, fun _ => ⟨_, rfl⟩⟩
  · split
    · exact ⟨fun _ => .inr (.inl ‹_›), fun _ => ⟨_, rfl⟩⟩
    · split
      · exact ⟨fun _ => .inr (.inr ‹_›), fun _ => ⟨_, rfl⟩⟩
      · refine ⟨nofun, ?_⟩
        rintro (h | h | h)
        · contradiction
        · contradiction
        · contradiction

theorem unicodeEscapeValue_isSome_iff {first second third fourth : Char} :
    (∃ unit, unicodeEscapeValue first second third fourth = some unit) ↔
      IsHexDigit first ∧ IsHexDigit second ∧ IsHexDigit third ∧ IsHexDigit fourth := by
  simp only [unicodeEscapeValue, ← javaHexDigit_isSome_iff]
  constructor
  · rintro ⟨unit, h⟩
    obtain ⟨a, ha, h⟩ := Option.bind_eq_some_iff.mp h
    obtain ⟨b, hb, h⟩ := Option.bind_eq_some_iff.mp h
    obtain ⟨c, hc, h⟩ := Option.bind_eq_some_iff.mp h
    obtain ⟨d, hd, h⟩ := Option.bind_eq_some_iff.mp h
    exact ⟨⟨a, ha⟩, ⟨b, hb⟩, ⟨c, hc⟩, ⟨d, hd⟩⟩
  · rintro ⟨⟨a, ha⟩, ⟨b, hb⟩, ⟨c, hc⟩, ⟨d, hd⟩⟩
    rw [ha, hb, hc, hd]
    exact ⟨_, rfl⟩

theorem wellEscaped_of_decode {units : List UInt16}
    (h : decodeJavaPropertyComponent component = .ok units) : WellEscaped component := by
  fun_induction decodeJavaPropertyComponent component generalizing units with
  | case1 => exact .nil
  | case2 => cases h
  | case3 first second third fourth rest unit hunit ih =>
    obtain ⟨more, hmore, -⟩ := Except.bind_ok_iff.mp h
    obtain ⟨hfirst, hsecond, hthird, hfourth⟩ := unicodeEscapeValue_isSome_iff.mp ⟨unit, hunit⟩
    exact .unicode hfirst hsecond hthird hfourth (ih hmore)
  | case4 => cases h
  | case5 => cases h
  | case6 escaped rest hlong hu ih =>
    obtain ⟨more, hmore, -⟩ := Except.bind_ok_iff.mp h
    exact .escaped (fun heq => hu heq) (ih hmore)
  | case7 character rest hlone hlong hu hescaped ih =>
    obtain ⟨more, hmore, -⟩ := Except.bind_ok_iff.mp h
    refine .plain ?_ (ih hmore)
    rintro rfl
    cases rest with
    | nil => exact hlone rfl rfl
    | cons next rest => exact hescaped next rest rfl rfl

theorem decode_of_wellEscaped (h : WellEscaped component) :
    ∃ units, decodeJavaPropertyComponent component = .ok units := by
  induction h with
  | nil => exact ⟨[], rfl⟩
  | @plain character rest hplain hrest ih =>
    obtain ⟨units, hunits⟩ := ih
    refine ⟨charUtf16 character ++ units, ?_⟩
    rw [decodeJavaPropertyComponent.eq_6, hunits]
    · rfl
    · exact fun heq => absurd heq hplain
    · exact fun _ _ _ _ _ heq => absurd heq hplain
    · exact fun _ heq => absurd heq hplain
    · exact fun _ _ heq => absurd heq hplain
  | @escaped character rest hcharacter hrest ih =>
    obtain ⟨units, hunits⟩ := ih
    refine ⟨escapedUnits character ++ units, ?_⟩
    rw [decodeJavaPropertyComponent.eq_5, hunits]
    · rfl
    · exact fun _ _ _ _ _ heq => absurd heq hcharacter
    · exact fun heq => absurd heq hcharacter
  | @unicode first second third fourth rest hfirst hsecond hthird hfourth hrest ih =>
    obtain ⟨units, hunits⟩ := ih
    obtain ⟨unit, hunit⟩ := unicodeEscapeValue_isSome_iff.mpr ⟨hfirst, hsecond, hthird, hfourth⟩
    refine ⟨unit :: units, ?_⟩
    rw [decodeJavaPropertyComponent.eq_3, hunit, hunits]
    rfl

/-- A logical line whose key or value holds a malformed escape. -/
def Malformed (line : List Char) : Prop :=
  ¬ (WellEscaped (splitJavaProperty line).1 ∧ WellEscaped (splitJavaProperty line).2)

theorem decodeJavaProperty_ok_iff {line : List Char} :
    (∃ property, decodeJavaProperty line = .ok property) ↔ ¬ Malformed line := by
  rw [Malformed, not_not]
  constructor
  · rintro ⟨property, h⟩
    obtain ⟨key, hkey, h⟩ := Except.bind_ok_iff.mp h
    obtain ⟨value, hvalue, -⟩ := Except.bind_ok_iff.mp h
    exact ⟨wellEscaped_of_decode hkey, wellEscaped_of_decode hvalue⟩
  · rintro ⟨hkey, hvalue⟩
    obtain ⟨key, hkey⟩ := decode_of_wellEscaped hkey
    obtain ⟨value, hvalue⟩ := decode_of_wellEscaped hvalue
    rw [decodeJavaProperty, hkey, hvalue]
    exact ⟨_, rfl⟩

/-- A file is read exactly when none of its logical lines is malformed. -/
theorem parseJavaProperties_ok_iff {content : String} :
    (∃ properties, parseJavaProperties content = .ok properties) ↔
      ∀ line ∈ javaPropertyLogicalLines content, ¬ Malformed line := by
  constructor
  · rintro ⟨properties, h⟩ line hline
    have hforall := Except.mapM_ok_iff.mp h
    obtain ⟨property, -, hproperty⟩ := Related.exists_of_mem hforall hline
    exact decodeJavaProperty_ok_iff.mp ⟨property, hproperty⟩
  · intro h
    exact Except.exists_mapM fun line hline => decodeJavaProperty_ok_iff.mpr (h line hline)

end Froe
