import Froe.Journal.Log
import Mathlib.Data.Bool.AllAny
import Mathlib.Data.UInt

/-!
# The journal across crashes

Every history of flushes, each of which may be torn by a crash after any number
of its bytes.  A revision counts once the space behind it is in the file: until
then the reader skips the line, and afterwards the revision is complete.  So a
journal yields the heads of exactly the appends that got that far, in the order
in which they were made.
-/

namespace Froe

open List (mem_append mem_cons nil_append take_nil)
open Digits (padded)
open SegmentIdentifier (fromStr_display length_displayBytes)

/-! ## Histories -/

/-- What a store does to its journal. -/
inductive JournalEvent where
  | flush (head : RecordIdentifier) (timestamp : Nat)
  | tornFlush (head : RecordIdentifier) (timestamp written : Nat)
      (resumed : Option RecordIdentifier)

/-- One event of a history. -/
def JournalEvent.step (s : JournalState) : JournalEvent → JournalState
  | .flush head timestamp => s.flush head timestamp
  | .tornFlush head timestamp written resumed => s.tornFlush head timestamp written resumed

/-- The state after a history. -/
def JournalState.run (s : JournalState) (events : List JournalEvent) : JournalState :=
  events.foldl JournalEvent.step s

/-- One append: the head and how many bytes of its line are in the file. -/
structure Append where
  head : RecordIdentifier
  timestamp : Nat
  kept : Nat

/-- What an event appends. -/
def JournalEvent.append? (s : JournalState) : JournalEvent → Option Append
  | .flush head timestamp =>
    if s.persistedHead = some head then none
    else some ⟨head, timestamp, (journalLine head timestamp).length⟩
  | .tornFlush head timestamp written _ =>
    if s.persistedHead = some head then none
    else some ⟨head, timestamp, written - (separatorBytes s.journal).length⟩

/-- The appends of a history, oldest first. -/
def JournalState.appends : JournalState → List JournalEvent → List Append
  | _, [] => []
  | s, event :: events => (event.append? s).toList ++ appends (event.step s) events

/-- The line is in the file with its line break. -/
def Append.IsComplete (a : Append) : Prop := (journalLine a.head a.timestamp).length ≤ a.kept

/-- The revision is in the file with the space behind it. -/
def Append.HasRevision (a : Append) : Prop := (revisionBytes a.head).length < a.kept

def Append.IsSigned (a : Append) : Prop := a.head.recordNumber.toNat ≤ 2 ^ 31 - 1

instance (a : Append) : Decidable a.IsComplete := inferInstanceAs (Decidable (_ ≤ _))

instance (a : Append) : Decidable a.HasRevision := inferInstanceAs (Decidable (_ < _))

instance (a : Append) : Decidable a.IsSigned := inferInstanceAs (Decidable (_ ≤ _))

/-! ## Revisions -/

theorem digits_of_padded {n : Nat} : ∀ x ∈ padded 10 1 n, 48 ≤ x.toNat ∧ x.toNat < 58 := by
  intro x hx
  obtain ⟨d, hd, rfl⟩ := Digits.fixed_mem (by omega) hx
  rw [Digits.toNat_digitByte (by omega), if_pos hd]
  omega

theorem padded_ne_nil (n : Nat) : padded 10 1 n ≠ [] := by
  intro h
  have := congrArg List.length h
  rw [padded, Digits.length_fixed] at this
  simp at this

theorem toInt_toInt32 (number : UInt32) : number.toInt32.toInt =
    if number.toNat ≤ 2 ^ 31 - 1 then (number.toNat : Int) else (number.toNat : Int) - 2 ^ 32 := by
  have hcond := BitVec.toInt_eq_toNat_cond number.toBitVec
  have hbits : number.toInt32.toInt = number.toBitVec.toInt := rfl
  have hnat : number.toBitVec.toNat = number.toNat := rfl
  rw [hbits, hcond, hnat]
  split <;> split <;> first | rfl | omega

/-- The number of a head is read back when the format has it, and rejected otherwise. -/
theorem parseRecordNumber_decimal (number : UInt32) :
    parseRecordNumber (58 :: decimalBytes number.toInt32.toInt) =
      if number.toNat ≤ 2 ^ 31 - 1 then some number.toNat else none := by
  have hrange := number.toNat_lt
  rw [toInt_toInt32, parseRecordNumber]
  by_cases hsigned : number.toNat ≤ 2 ^ 31 - 1
  · have hdecimal : decimalBytes (number.toNat : Int) = padded 10 1 number.toNat := by
      rw [decimalBytes, if_neg (by omega), Int.natAbs_natCast]
    rw [if_pos hsigned, if_pos hsigned, hdecimal, if_neg,
      Digits.parse_padded (by decide) (by decide)]
    rintro (hnil | ⟨hlong, hzero⟩)
    · exact padded_ne_nil _ hnil
    · exact Digits.padded_head (by decide) (by decide) (by decide) hlong hzero
  · -- the number is written with a minus sign
    have hdecimal : decimalBytes ((number.toNat : Int) - 2 ^ 32) =
        45 :: padded 10 1 ((number.toNat : Int) - 2 ^ 32).natAbs := by
      rw [decimalBytes, if_pos (by omega)]
    have hminus : ∀ digits, Digits.parse 10 (45 :: digits) = none := fun _ => rfl
    rw [if_neg hsigned, if_neg hsigned, hdecimal, hminus, ite_self]

theorem decimalBytes_chars (n : Int) : ∀ x ∈ decimalBytes n, 45 ≤ x.toNat ∧ x.toNat < 58 := by
  intro x hx
  rw [decimalBytes] at hx
  split at hx
  · rcases mem_cons.mp hx with rfl | hx
    · decide
    · have := digits_of_padded x hx
      omega
  · have := digits_of_padded x hx
    omega

variable (head : RecordIdentifier) (timestamp : Nat)

theorem revisionBytes_chars :
    ∀ x ∈ revisionBytes head, 45 ≤ x.toNat ∧ x.toNat < 128 := by
  intro x hx
  rw [revisionBytes] at hx
  rcases mem_append.mp hx with hx | hx
  · obtain ⟨i, hi⟩ := List.mem_iff_getElem?.mp hx
    have hlt := (List.getElem?_eq_some_iff.mp hi).1
    rw [length_displayBytes] at hlt
    obtain ⟨y, hy, hlow, hhigh⟩ :=
      SegmentIdentifier.fromStr_chars (fromStr_display head.segment) hlt
    rw [hi] at hy
    cases hy
    exact ⟨hlow, hhigh⟩
  · rcases mem_cons.mp hx with rfl | hx
    · decide
    · have := decimalBytes_chars _ x hx
      omega

/-- A revision reads back its head when the format has the record number. -/
theorem parseRecordIdentifierText_revision :
    parseRecordIdentifierText (revisionBytes head) =
      if head.recordNumber.toNat ≤ 2 ^ 31 - 1 then some head else none := by
  have hsegment : head.segment.displayBytes.length = 36 := length_displayBytes _
  have htake : (revisionBytes head).take 36 = head.segment.displayBytes := by
    rw [revisionBytes, List.take_append_of_le_length (by omega),
      List.take_of_length_le (by omega)]
  have hdrop : (revisionBytes head).drop 36 =
      58 :: decimalBytes head.recordNumber.toInt32.toInt := by
    rw [revisionBytes, List.drop_append_of_le_length (by omega), List.drop_of_length_le (by omega),
      nil_append]
  have hlength : ¬ (revisionBytes head).length < 38 := by
    have hne : 0 < (decimalBytes head.recordNumber.toInt32.toInt).length := by
      rw [decimalBytes]
      split
      · simp
      · exact List.length_pos_iff.mpr (padded_ne_nil _)
    rw [revisionBytes, List.length_append, List.length_cons]
    omega
  have hboundary : isCharBoundary (revisionBytes head) 36 = true := by
    have hcolon : (revisionBytes head)[36]? = some 58 := by
      rw [← List.head?_drop, hdrop]
      rfl
    have hstart : Utf8.isContinuation 58 = false := by decide
    rw [isCharBoundary, hcolon, Option.map_some, Option.getD_some, hstart]
    simp
  rw [parseRecordIdentifierText, htake, hdrop, fromStr_display,
    parseRecordNumber_decimal, hboundary]
  simp only [hlength, decide_false, Bool.not_true, Bool.or_self, Bool.false_eq_true, if_false]
  split
  · rename_i hsigned
    simp only [Option.bind_eq_bind, Option.bind_some, if_pos hsigned, UInt32.ofNat_toNat]
  · rfl

/-! ## Lines -/

/-- The entries of the lines, newest first. -/
def lineEntries (content : Bytes) : List JournalEntry :=
  (content.splitOnP isLineBreak).reverse.filterMap parseJournalLine

/-- Behind a line break the reader starts anew. -/
theorem lineEntries_append {before after : Bytes} {c : UInt8} (hc : isLineBreak c = true) :
    lineEntries (before ++ c :: after) = lineEntries after ++ lineEntries before := by
  rw [lineEntries, List.splitOnP_append_cons before after hc, List.reverse_append,
    List.filterMap_append, lineEntries, lineEntries]

theorem lineEntries_nil : lineEntries [] = [] := rfl

theorem lineEntries_of_noBreak {line : Bytes} (h : ∀ x ∈ line, isLineBreak x = false) :
    lineEntries line = (parseJournalLine line).toList := by
  rw [lineEntries, List.splitOnP_eq_singleton h, List.reverse_singleton]
  cases hline : parseJournalLine line <;> simp [hline]

theorem isLineBreak_of_le {x : UInt8} (h : 32 ≤ x.toNat) : isLineBreak x = false := by
  rw [isLineBreak, Bool.or_eq_false_iff, beq_eq_false_iff_ne, beq_eq_false_iff_ne]
  constructor <;> rintro rfl <;> exact absurd h (by decide)

/-- The line without its line break. -/
def lineText (head : RecordIdentifier) (timestamp : Nat) : Bytes :=
  revisionBytes head ++ 32 :: ("root ".utf8 ++ Digits.padded 10 1 timestamp)

theorem journalLine_eq :
    journalLine head timestamp = lineText head timestamp ++ [10] := by
  have htag : " root ".utf8 = 32 :: "root ".utf8 := by decide
  rw [journalLine, lineText, htag]
  simp only [List.append_assoc, List.cons_append]

theorem lineText_chars :
    ∀ x ∈ lineText head timestamp, 32 ≤ x.toNat ∧ x.toNat < 128 := by
  intro x hx
  rcases mem_append.mp hx with hx | hx
  · have := revisionBytes_chars head x hx
    omega
  rcases mem_cons.mp hx with rfl | hx
  · decide
  rcases mem_append.mp hx with hx | hx
  · have htag : ∀ y ∈ "root ".utf8, 32 ≤ y.toNat ∧ y.toNat < 128 :=
      List.all_iff_forall_prop.mp (by decide)
    exact htag x hx
  · have := digits_of_padded x hx
    omega

/-- A line with a space behind its first field yields that field. -/
theorem parseJournalLine_of_space {revision rest : Bytes} (h : (32 : UInt8) ∉ revision) :
    ∃ timestamp, parseJournalLine (revision ++ 32 :: rest) = some ⟨revision, timestamp⟩ := by
  have hfirst : (revision ++ 32 :: rest).splitOnP (· == 32) =
      revision :: rest.splitOnP (· == 32) := by
    refine List.splitOnP_append_cons_of_forall_mem ?_ 32 rfl rest
    intro x hx
    rw [beq_eq_false_iff_ne]
    rintro rfl
    exact h hx
  refine ⟨parseTimestamp (revision :: rest.splitOnP (· == 32)), ?_⟩
  rw [parseJournalLine, if_pos (by simp), hfirst]
  rfl

theorem space_not_mem_revision : (32 : UInt8) ∉ revisionBytes head := by
  intro h
  exact absurd (revisionBytes_chars head _ h).1 (by decide)

/-- A torn line is skipped up to the space behind its revision, and from there on it
yields the complete revision. -/
theorem lineEntries_take (kept : Nat) :
    (lineEntries ((journalLine head timestamp).take kept)).map JournalEntry.revisionText =
      if (revisionBytes head).length < kept then [revisionBytes head] else [] := by
  have hbreaks : ∀ x ∈ (lineText head timestamp).take kept, isLineBreak x = false :=
    fun x hx => isLineBreak_of_le (lineText_chars head timestamp x (List.mem_of_mem_take hx)).1
  -- the line break itself starts a line that is empty
  have htext : lineEntries ((journalLine head timestamp).take kept) =
      (parseJournalLine ((lineText head timestamp).take kept)).toList := by
    rw [journalLine_eq, List.take_append]
    cases hmore : kept - (lineText head timestamp).length with
    | zero => rw [List.take_zero, List.append_nil, lineEntries_of_noBreak hbreaks]
    | succ m =>
      rw [List.take_succ_cons, take_nil, lineEntries_append rfl, lineEntries_nil,
        nil_append, lineEntries_of_noBreak hbreaks]
  rw [htext]
  by_cases hkept : (revisionBytes head).length < kept
  · obtain ⟨m, hm⟩ : ∃ m, kept - (revisionBytes head).length = m + 1 :=
      ⟨kept - (revisionBytes head).length - 1, by omega⟩
    have hspace : (lineText head timestamp).take kept = revisionBytes head ++
        32 :: ("root ".utf8 ++ padded 10 1 timestamp).take m := by
      rw [lineText, List.take_append, hm, List.take_of_length_le (le_of_lt hkept),
        List.take_succ_cons]
    obtain ⟨stamp, hparse⟩ := parseJournalLine_of_space (space_not_mem_revision head)
    rw [hspace, hparse, if_pos hkept]
    rfl
  · have hnone : parseJournalLine ((lineText head timestamp).take kept) = none := by
      rw [parseJournalLine, if_neg]
      rw [lineText, List.take_append_of_le_length (by omega)]
      exact fun h => space_not_mem_revision head (List.mem_of_mem_take h)
    rw [hnone, if_neg hkept]
    rfl

/-! ## Runs -/

/-- An append adds the entries of its own line, whatever the journal held: either the
journal ends in a line break, or the separator comes first. -/
theorem lineEntries_journalAppend (journal : Bytes) (head : RecordIdentifier)
    (timestamp written : Nat) :
    lineEntries (journal ++ (journalAppend journal head timestamp).take written) =
      lineEntries ((journalLine head timestamp).take
        (written - (separatorBytes journal).length)) ++ lineEntries journal := by
  rw [journalAppend, List.take_append]
  cases hseparator : journalNeedsSeparator journal with
  | true =>
    rw [separatorBytes, hseparator, if_pos rfl]
    cases written with
    | zero => simp [lineEntries_nil]
    | succ n =>
      rw [List.take_succ_cons, take_nil, List.singleton_append, lineEntries_append rfl]
  | false =>
    rw [separatorBytes, hseparator, if_neg (by simp), take_nil, nil_append]
    rcases List.eq_nil_or_concat journal with rfl | ⟨earlier, last, rfl⟩
    · rw [lineEntries_nil, List.append_nil, nil_append]
    · -- the journal ends in a line break
      rw [List.concat_eq_append] at hseparator ⊢
      have hbreak : isLineBreak last = true := by
        rw [journalNeedsSeparator, List.getLast?_append, List.getLast?_singleton] at hseparator
        simpa using hseparator
      have hlast : lineEntries (earlier ++ [last]) = lineEntries earlier := by
        rw [lineEntries_append hbreak, lineEntries_nil, nil_append]
      rw [List.append_assoc, List.singleton_append, lineEntries_append hbreak, hlast]

/-- Every byte of the journal is ASCII, so that it is read as it is. -/
def JournalState.Plain (s : JournalState) : Prop := ∀ x ∈ s.journal, x.toNat < 128

variable {s : JournalState}

theorem journalEntries_of_plain (h : s.Plain) :
    journalEntries s.journal = lineEntries s.journal := by
  rw [journalEntries, Utf8.decodeLossy_ascii h, Utf8.utf8_ascii h, lineEntries]

theorem journalAppend_plain (journal : Bytes) (head : RecordIdentifier) (timestamp : Nat) :
    ∀ x ∈ journalAppend journal head timestamp, x.toNat < 128 := by
  intro x hx
  rw [journalAppend, journalLine_eq] at hx
  rcases mem_append.mp hx with hx | hx
  · rw [separatorBytes] at hx
    split at hx
    · cases List.mem_singleton.mp hx
      decide
    · cases hx
  rcases mem_append.mp hx with hx | hx
  · exact (lineText_chars head timestamp x hx).2
  · cases List.mem_singleton.mp hx
    decide

/-- What an event does to the journal: nothing, or the kept part of one append. -/
theorem JournalEvent.step_journal (s : JournalState) (event : JournalEvent) :
    (event.append? s = none ∧ (event.step s).journal = s.journal) ∨
      ∃ head timestamp written, event.append? s =
          some ⟨head, timestamp, written - (separatorBytes s.journal).length⟩ ∧
        (event.step s).journal =
          s.journal ++ (journalAppend s.journal head timestamp).take written := by
  cases event with
  | flush head timestamp =>
    simp only [append?, step, JournalState.flush]
    split
    · exact Or.inl ⟨rfl, rfl⟩
    · refine Or.inr ⟨head, timestamp, (journalAppend s.journal head timestamp).length, ?_, ?_⟩
      · rw [journalAppend, List.length_append, Nat.add_sub_cancel_left]
      · rw [List.take_length]
  | tornFlush head timestamp written resumed =>
    simp only [append?, step, JournalState.tornFlush]
    split
    · exact Or.inl ⟨rfl, rfl⟩
    · exact Or.inr ⟨head, timestamp, written, rfl, rfl⟩

theorem JournalEvent.step_plain (h : s.Plain) (event : JournalEvent) :
    (event.step s).Plain := by
  intro x hx
  rcases event.step_journal s with ⟨-, hjournal⟩ | ⟨head, timestamp, written, -, hjournal⟩
  · rw [hjournal] at hx
    exact h x hx
  · rw [hjournal] at hx
    rcases mem_append.mp hx with hx | hx
    · exact h x hx
    · exact journalAppend_plain _ _ _ x (List.mem_of_mem_take hx)

/-- The head an append leaves in the journal. -/
def Append.read (a : Append) : Option RecordIdentifier :=
  if a.HasRevision ∧ a.IsSigned then some a.head else none

theorem filterMap_recordIdentifier (entries : List JournalEntry) :
    entries.filterMap JournalEntry.recordIdentifier =
      (entries.map JournalEntry.revisionText).filterMap parseRecordIdentifierText := by
  rw [List.filterMap_map]
  rfl

/-- One event adds the head of its append in front of what the journal yielded. -/
theorem JournalEvent.step_heads (h : s.Plain) (event : JournalEvent) :
    journalHeads (event.step s).journal =
      ((event.append? s).bind Append.read).toList ++ journalHeads s.journal := by
  rw [journalHeads, journalEntries_of_plain (event.step_plain h), journalHeads,
    journalEntries_of_plain h]
  rcases event.step_journal s with ⟨hnone, hjournal⟩ | ⟨head, timestamp, written, hsome, hjournal⟩
  · rw [hnone, hjournal]
    rfl
  · rw [hsome, hjournal, lineEntries_journalAppend, List.filterMap_append,
      filterMap_recordIdentifier (lineEntries (List.take _ _)), lineEntries_take]
    congr 1
    obtain ⟨a, ha⟩ : ∃ a : Append,
      a = ⟨head, timestamp, written - (separatorBytes s.journal).length⟩ := ⟨_, rfl⟩
    have hrevision : a.HasRevision ↔
        (revisionBytes head).length < written - (separatorBytes s.journal).length := by
      rw [ha, Append.HasRevision]
    have hnumber : a.IsSigned ↔ head.recordNumber.toNat ≤ 2 ^ 31 - 1 := by
      rw [ha, Append.IsSigned]
    rw [← ha, Option.bind_some, Append.read]
    by_cases hkept : a.HasRevision
    · rw [if_pos (hrevision.mp hkept), List.filterMap_cons, parseRecordIdentifierText_revision]
      by_cases hsigned : a.IsSigned
      · rw [if_pos (hnumber.mp hsigned), if_pos ⟨hkept, hsigned⟩, ha]
        rfl
      · rw [if_neg fun hle => hsigned (hnumber.mpr hle), if_neg fun hboth => hsigned hboth.2]
        rfl
    · rw [if_neg fun hlt => hkept (hrevision.mpr hlt), if_neg fun hboth => hkept hboth.1]
      rfl

/-- A journal yields what the appends of its history left, newest first. -/
theorem JournalState.run_heads (h : s.Plain) (events : List JournalEvent) :
    journalHeads (s.run events).journal =
      ((s.appends events).filterMap Append.read).reverse ++ journalHeads s.journal := by
  induction events generalizing s with
  | nil => rfl
  | cons event events ih =>
    have hrun : s.run (event :: events) = (event.step s).run events := rfl
    rw [hrun, ih (event.step_plain h), event.step_heads h, JournalState.appends,
      List.filterMap_append, List.reverse_append, List.append_assoc]
    congr 2
    cases event.append? s with
    | none => rfl
    | some a =>
      rw [Option.toList_some, List.filterMap_cons, List.filterMap_nil, Option.bind_some]
      cases a.read <;> rfl

theorem Append.IsComplete.hasRevision {a : Append} (h : a.IsComplete) : a.HasRevision := by
  rw [IsComplete, journalLine_eq, lineText] at h
  rw [HasRevision]
  simp only [List.length_append, List.length_cons] at h
  omega

theorem filterMap_read (as : List Append) :
    as.filterMap Append.read =
      (as.filter fun a => a.HasRevision ∧ a.IsSigned).map Append.head := by
  induction as with
  | nil => rfl
  | cons a as ih =>
    rw [List.filterMap_cons, List.filter_cons, Append.read]
    by_cases h : a.HasRevision ∧ a.IsSigned
    · simp [h, ih]
    · simp [h, ih]

/-- **Crash safety of the journal.**  After every history of flushes from an empty journal,
each torn after any number of its bytes, the journal yields exactly the heads of the
appends whose revision and the space behind it are in the file, newest first.  So every
record identifier it yields is the head of an append, the completed appends are all there
in their order, and the newest one is the head of the last append that got that far,
complete or torn.  Heads are those with a record number the format has. -/
theorem journal_of_history (persisted : Option RecordIdentifier) (events : List JournalEvent) :
    let s : JournalState := ⟨[], persisted⟩
    let reached := (s.appends events).filter fun a => a.HasRevision ∧ a.IsSigned
    let completed := (s.appends events).filter fun a => a.IsComplete ∧ a.IsSigned
    journalHeads (s.run events).journal = (reached.map Append.head).reverse ∧
      (∀ head ∈ journalHeads (s.run events).journal, ∃ a ∈ s.appends events, a.head = head) ∧
      (completed.map Append.head).reverse.Sublist (journalHeads (s.run events).journal) ∧
      (journalHeads (s.run events).journal).head? = reached.getLast?.map Append.head := by
  intro s reached completed
  have hplain : s.Plain := fun x hx => by cases hx
  have hheads : journalHeads (s.run events).journal = (reached.map Append.head).reverse := by
    have hempty : journalHeads s.journal = [] := by
      rw [journalHeads, journalEntries_of_plain hplain]
      rfl
    rw [JournalState.run_heads hplain, hempty, List.append_nil, filterMap_read]
  refine ⟨hheads, ?_, ?_, ?_⟩
  · intro head hhead
    rw [hheads, List.mem_reverse, List.mem_map] at hhead
    obtain ⟨a, ha, rfl⟩ := hhead
    exact ⟨a, (List.mem_filter.mp ha).1, rfl⟩
  · rw [hheads]
    refine (List.Sublist.map _ (List.monotone_filter_right _ ?_)).reverse
    intro a ha
    rw [decide_eq_true_eq] at ha ⊢
    exact ⟨ha.1.hasRevision, ha.2⟩
  · rw [hheads, List.head?_reverse, List.getLast?_map]

/-! ## Torn heads -/

def exampleHead (number : UInt32) : RecordIdentifier := ⟨⟨1, 0xA000000000000000⟩, number⟩

def emptyJournal : JournalState := ⟨[], none⟩

/-- One complete line, and one that is torn behind the space after its revision. -/
def tornHistory : List JournalEvent :=
  [.flush (exampleHead 1) 5, .tornFlush (exampleHead 2) 6 40 none]

/-- A second head torn behind the space after its revision is the newest entry, although
the first one is the last whose line is complete; and a completed head with a record
number past the signed range is not read at all. -/
theorem torn_head_is_newest :
    ((journalHeads (emptyJournal.run tornHistory).journal).head? = some (exampleHead 2) ∧
      ((emptyJournal.appends tornHistory).filter fun a => a.IsComplete).map Append.head =
        [exampleHead 1]) ∧
    journalHeads (emptyJournal.run [.flush (exampleHead (2 ^ 31)) 5]).journal = [] ∧
      (emptyJournal.appends [.flush (exampleHead (2 ^ 31)) 5]).all (fun a => a.IsComplete) := by
  have hplain : emptyJournal.Plain := fun x hx => by cases hx
  have hempty : journalHeads emptyJournal.journal = [] := by
    rw [journalHeads, journalEntries_of_plain hplain]
    rfl
  refine ⟨⟨?_, ?_⟩, ?_, ?_⟩
  · rw [JournalState.run_heads hplain, hempty]
    decide +kernel
  · decide +kernel
  · rw [JournalState.run_heads hplain, hempty]
    decide +kernel
  · decide +kernel

end Froe
