import Froe.Content.Property

/-!
# The journal

The sequence of head states, one line for each: the record identifier of the
head, the tag `root` and a timestamp in milliseconds.  Readers scan backwards
and skip lines they cannot parse.  A flush appends one line, in front of it a
separator when the file does not end in a line break.
-/

namespace Froe

/-! ## Reading -/

/-- One line of the journal. -/
structure JournalEntry where
  /-- The revision field as stored, not yet validated. -/
  revisionText : Bytes
  timestampMilliseconds : Int64
deriving DecidableEq, Repr

def isLineBreak (c : UInt8) : Bool := c == 10 || c == 13

/-- The timestamp in the third field of a line. -/
def parseTimestamp (fields : List Bytes) : Int64 :=
  match fields[2]? with
  | none => -1
  | some field =>
    ((parseDecimal field).bind fun n =>
      if -(2 ^ 63) ≤ n ∧ n < 2 ^ 63 then some (Int64.ofInt n) else none).getD (-1)

/-- One line; a line without a space is skipped. -/
def parseJournalLine (line : Bytes) : Option JournalEntry :=
  if (32 : UInt8) ∈ line then
    let fields := line.splitOnP (· == 32)
    some ⟨fields.headD [], parseTimestamp fields⟩
  else none

/-- The entries of a journal, newest first. -/
def journalEntries (content : Bytes) : List JournalEntry :=
  ((Utf8.decodeLossy content).utf8.splitOnP isLineBreak).reverse.filterMap parseJournalLine

def readJournal (journalPath : String) (file : Option Bytes) : Result (List JournalEntry) :=
  match file with
  | none => .error (.invalidFormat s!"journal file {journalPath} does not exist")
  | some content => .ok (journalEntries content)

/-- The number behind the segment: decimal digits without leading zeros behind a colon, or
exactly eight lower-case hexadecimal digits behind a dot. -/
def parseRecordNumber (rest : Bytes) : Option Nat :=
  match rest with
  | 58 :: decimal =>
    if decimal = [] ∨ (1 < decimal.length ∧ decimal.head? = some 48) then none
    else Digits.parse 10 decimal
  | 46 :: hexadecimal => if hexadecimal.length ≠ 8 then none else Digits.parse 16 hexadecimal
  | _ => none

/-- Parses a record identifier in the journal form or the diagnostic form. -/
def parseRecordIdentifierText (text : Bytes) : Option RecordIdentifier :=
  if text.length < 38 || !isCharBoundary text 36 then none
  else do
    let segment ← SegmentIdentifier.fromStr (text.take 36)
    let recordNumber ← parseRecordNumber (text.drop 36)
    -- record numbers are signed in the format, and a number past 32 bits fails before
    if recordNumber ≤ 2 ^ 31 - 1 then some ⟨segment, UInt32.ofNat recordNumber⟩ else none

def JournalEntry.recordIdentifier (entry : JournalEntry) : Option RecordIdentifier :=
  parseRecordIdentifierText entry.revisionText

/-- The record identifiers a journal yields, newest first. -/
def journalHeads (content : Bytes) : List RecordIdentifier :=
  (journalEntries content).filterMap JournalEntry.recordIdentifier

/-! ## Appending -/

/-- The revision field of a line.  The record number is written as a signed number. -/
def revisionBytes (head : RecordIdentifier) : Bytes :=
  head.segment.displayBytes ++ 58 :: decimalBytes head.recordNumber.toInt32.toInt

def journalLine (head : RecordIdentifier) (timestamp : Nat) : Bytes :=
  revisionBytes head ++ " root ".utf8 ++ Digits.padded 10 1 timestamp ++ [10]

/-- Whether an append first needs a line separator. -/
def journalNeedsSeparator (journal : Bytes) : Bool :=
  match journal.getLast? with
  | none => false
  | some last => !isLineBreak last

/-- The separator an append writes first. -/
def separatorBytes (journal : Bytes) : Bytes := if journalNeedsSeparator journal then [10] else []

/-- What a flush of a moved head writes. -/
def journalAppend (journal : Bytes) (head : RecordIdentifier) (timestamp : Nat) : Bytes :=
  separatorBytes journal ++ journalLine head timestamp

/-- The journal as a writable store sees it. -/
structure JournalState where
  journal : Bytes
  persistedHead : Option RecordIdentifier

/-- Flushes the head: one line when it moved since the last flush. -/
def JournalState.flush (s : JournalState) (head : RecordIdentifier) (timestamp : Nat) :
    JournalState :=
  if s.persistedHead = some head then s
  else ⟨s.journal ++ journalAppend s.journal head timestamp, some head⟩

/-- A crash during a flush, after `written` bytes of the append.  The store is opened again
with the persisted head `resumed`. -/
def JournalState.tornFlush (s : JournalState) (head : RecordIdentifier) (timestamp written : Nat)
    (resumed : Option RecordIdentifier) : JournalState :=
  if s.persistedHead = some head then ⟨s.journal, resumed⟩
  else ⟨s.journal ++ (journalAppend s.journal head timestamp).take written, resumed⟩

end Froe
