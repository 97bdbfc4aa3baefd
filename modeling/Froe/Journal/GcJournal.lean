import Froe.Journal.Log
import Froe.Lib.LossyText

/-!
# The garbage-collection journal

`gc.log` has one comma-separated line for each compaction.  Its reader is
tolerant: it takes the layout of a line from the number of its fields and puts a
sentinel in the place of a field it cannot parse.  The file is read in chunks of
any size, with limits on its length, its lines and their number.
-/

namespace Froe

open Utf16 (charUtf16)

/-! ## Java's fields and numbers -/

/-- The zeroes of the digit blocks that Java's `Character.digit` knows. -/
def javaBmpDecimalZeroes : List UInt16 :=
  [0x0030, 0x0660, 0x06f0, 0x07c0, 0x0966, 0x09e6, 0x0a66, 0x0ae6, 0x0b66, 0x0be6, 0x0c66, 0x0ce6,
    0x0d66, 0x0de6, 0x0e50, 0x0ed0, 0x0f20, 0x1040, 0x1090, 0x17e0, 0x1810, 0x1946, 0x19d0, 0x1a80,
    0x1a90, 0x1b50, 0x1bb0, 0x1c40, 0x1c50, 0xa620, 0xa8d0, 0xa900, 0xa9d0, 0xa9f0, 0xaa50, 0xabf0,
    0xff10]

/-- The value of a unit that Java takes for a digit. -/
def javaDecimalDigit (unit : UInt16) : Option UInt16 :=
  javaBmpDecimalZeroes.findSome? fun zero =>
    let digit := unit - zero
    if digit < 10 then some digit else none

/-- The loop over the digits, in checked 128-bit arithmetic. -/
def accumulateDecimal (magnitude : Int) : List UInt16 → Option Int
  | [] => some magnitude
  | unit :: units => do
    let digit ← javaDecimalDigit unit
    let next := magnitude * 10 + digit.toNat
    if next < 2 ^ 127 then accumulateDecimal next units else none

/-- The decimal subset of Java's `Long.parseLong` and `Integer.parseInt`. -/
def parseJavaSignedDecimal (value : List Char) (minimum maximum : Int) : Option Int :=
  match value.flatMap charUtf16 with
  | [] => none
  | first :: units => do
    let negative := first == 45
    let hasSign := negative || first == 43
    let start ← if hasSign then some 0 else (javaDecimalDigit first).map UInt16.toNat
    let magnitude ← accumulateDecimal start units
    -- a sign alone is no number
    if hasSign ∧ units = [] then none
    else
      let parsed := if negative then -magnitude else magnitude
      if minimum ≤ parsed ∧ parsed ≤ maximum then some parsed else none

/-- The fields of a line. -/
structure JavaSplitFields where
  firstFields : List (List Char)
  length : Nat

namespace JavaSplitFields

/-- The field at an index. -/
def get (fields : JavaSplitFields) (index : Nat) : Option (List Char) :=
  if index < fields.length then fields.firstFields[index]? else none

/-- A 64-bit field, or `-1`. -/
def parseI64 (fields : JavaSplitFields) (index : Nat) : Int64 :=
  match (fields.get index).bind fun field => parseJavaSignedDecimal field (-2 ^ 63) (2 ^ 63 - 1) with
  | some value => Int64.ofInt value
  | none => -1

/-- A 32-bit field, or `-1`. -/
def parseI32 (fields : JavaSplitFields) (index : Nat) : Int32 :=
  match (fields.get index).bind fun field => parseJavaSignedDecimal field (-2 ^ 31) (2 ^ 31 - 1) with
  | some value => Int32.ofInt value
  | none => -1

end JavaSplitFields

/-- The number of the last field that is not empty. -/
def lastNonemptyFieldCount : Nat → Nat → List (List Char) → Nat
  | _, last, [] => last
  | count, last, field :: fields =>
    lastNonemptyFieldCount (count + 1) (if field = [] then last else count + 1) fields

/-- Java's `String.split(",")`, which drops empty fields at the end of a line. -/
def splitLikeJava (line : List Char) : JavaSplitFields :=
  let fields := line.splitOn ','
  ⟨fields.take 7, if line = [] then 1 else lastNonemptyFieldCount 0 0 fields⟩

/-! ## Entries -/

/-- Stands for no record. -/
def nullRecordIdentifierText : String := "00000000-0000-0000-0000-000000000000:0"

/-- One parsed line. -/
structure GarbageCollectionJournalEntry where
  repositorySize : Int64
  reclaimedSize : Int64
  timestampMilliseconds : Int64
  generation : GarbageCollectionGeneration
  compactedNodes : Int64
  rootRecordIdentifierText : String
deriving DecidableEq, Repr

/-- What is read from a journal without lines. -/
def GarbageCollectionJournalEntry.empty : GarbageCollectionJournalEntry :=
  ⟨-1, -1, -1, .null, -1, nullRecordIdentifierText⟩

/-- The root of an entry, when it names one. -/
def GarbageCollectionJournalEntry.rootRecordIdentifier (entry : GarbageCollectionJournalEntry) :
    Option RecordIdentifier :=
  parseRecordIdentifierText entry.rootRecordIdentifierText.utf8

/-- Parses one line.  Only exactly seven fields have the newer layout. -/
def parseGcJournalEntry (line : String) : GarbageCollectionJournalEntry :=
  let fields := splitLikeJava line.toList
  let generationNumber := fields.parseI32 3
  let (fullGeneration, nextField) :=
    if fields.length = 7 then (fields.parseI32 4, 5) else (generationNumber, 4)
  { repositorySize := fields.parseI64 0
    reclaimedSize := fields.parseI64 1
    timestampMilliseconds := fields.parseI64 2
    generation := ⟨generationNumber, fullGeneration, false⟩
    compactedNodes := fields.parseI64 nextField
    rootRecordIdentifierText :=
      match fields.get (nextField + 1) with
      | none => nullRecordIdentifierText
      | some text => String.ofList text }

/-! ## Scanning lines -/

/-- The limits of a read. -/
structure GarbageCollectionJournalReadOptions where
  maximumFileBytes : Nat
  maximumLineBytes : Nat
  maximumEntries : Nat

/-- What a read can fail with. -/
inductive GarbageCollectionJournalReadError where
  | inputOutput (details : String)
  | fileByteLimitExceeded (maximumFileBytes observedFileBytes : Nat)
  | lineByteLimitExceeded (lineNumber maximumLineBytes attemptedLineBytes : Nat)
  | entryLimitExceeded (maximumEntries attemptedEntries : Nat)
  | invalidUtf8 (lineNumber invalidByteOffset : Nat) (errorLength : Option Nat)
deriving DecidableEq, Repr

/-- A read of the journal. -/
abbrev GcJournalResult := Except GarbageCollectionJournalReadError

/-- The length of the longest beginning that is a text. -/
def validUpTo (bytes : Bytes) : Nat :=
  ((List.range (bytes.length + 1)).reverse.find? fun k => Utf8.isValid (bytes.take k)).getD 0

/-- The length of the first invalid sequence, or `none` when it is cut off by the end. -/
def utf8ErrorLength (bytes : Bytes) : Option Nat :=
  match bytes.drop (validUpTo bytes) with
  | [] => none
  | first :: rest =>
    let left := (Utf8.decodeOne first rest).2
    if left = [] ∧ 0xC2 ≤ first ∧ first ≤ 0xF4 then none
    else some (1 + rest.length - left.length)

/-- Where a scan stands, and the lines it has consumed. -/
structure GcScan where
  lineBytes : Bytes
  fileBytesRead : Nat
  fileBytesProcessed : Nat
  lineStartByteOffset : Nat
  entriesRead : Nat
  precedingCarriageReturn : Bool
  lines : List String

/-- Nothing has been read. -/
def GcScan.start : GcScan := ⟨[], 0, 0, 0, 0, false, []⟩

section

variable (options : GarbageCollectionJournalReadOptions)

/-- Hands the line so far to the consumer. -/
def finishGcJournalLine (scan : GcScan) : GcJournalResult GcScan :=
  let attemptedEntries := scan.entriesRead + 1
  if scan.entriesRead ≥ options.maximumEntries then
    .error (.entryLimitExceeded options.maximumEntries attemptedEntries)
  else if Utf8.isValid scan.lineBytes = true then
    .ok { scan with
      entriesRead := attemptedEntries
      lines := scan.lines ++ [Utf8.decodeLossy scan.lineBytes] }
  else
    .error (.invalidUtf8 attemptedEntries (scan.lineStartByteOffset + validUpTo scan.lineBytes)
      (utf8ErrorLength scan.lineBytes))

/-- Processes one byte. -/
def scanGcJournalByte (scan : GcScan) (byte : UInt8) : GcJournalResult GcScan := do
  let processed := scan.fileBytesProcessed + 1
  if scan.precedingCarriageReturn ∧ byte = 10 then
    return { scan with
      fileBytesProcessed := processed
      precedingCarriageReturn := false
      lineStartByteOffset := processed }
  else if byte = 13 ∨ byte = 10 then
    let scan ← finishGcJournalLine options
      { scan with
        fileBytesProcessed := processed
        precedingCarriageReturn := false }
    return { scan with
      lineBytes := []
      lineStartByteOffset := processed
      precedingCarriageReturn := byte = 13 }
  else if scan.lineBytes.length ≥ options.maximumLineBytes then
    .error (.lineByteLimitExceeded (scan.entriesRead + 1) options.maximumLineBytes
      (scan.lineBytes.length + 1))
  else
    return { scan with
      fileBytesProcessed := processed
      precedingCarriageReturn := false
      lineBytes := scan.lineBytes ++ [byte] }

/-- Processes the bytes of one read. -/
def scanGcJournalChunk (scan : GcScan) (chunk : Bytes) : GcJournalResult GcScan :=
  let observedFileBytes := scan.fileBytesRead + chunk.length
  if chunk.length > options.maximumFileBytes - scan.fileBytesRead then
    .error (.fileByteLimitExceeded options.maximumFileBytes observedFileBytes)
  else
    chunk.foldlM (scanGcJournalByte options) { scan with fileBytesRead := observedFileBytes }

/-- Scans a file that the reads deliver in some chunks. -/
def scanGcJournalLines (metadataFileBytes : Nat) (chunks : List Bytes) :
    GcJournalResult (List String) :=
  if metadataFileBytes > options.maximumFileBytes then
    .error (.fileByteLimitExceeded options.maximumFileBytes metadataFileBytes)
  else do
    let scan ← chunks.foldlM (scanGcJournalChunk options) GcScan.start
    if scan.lineBytes = [] then return scan.lines
    else return (← finishGcJournalLine options scan).lines

/-- Reads the last entry. -/
def readGcJournalWithOptions (metadataFileBytes : Nat) (chunks : List Bytes) :
    GcJournalResult GarbageCollectionJournalEntry := do
  let lines ← scanGcJournalLines options metadataFileBytes chunks
  return ((lines.map parseGcJournalEntry).getLast?).getD .empty

/-- Reads all entries. -/
def readAllGcJournalWithOptions (metadataFileBytes : Nat) (chunks : List Bytes) :
    GcJournalResult (List GarbageCollectionJournalEntry) := do
  let lines ← scanGcJournalLines options metadataFileBytes chunks
  return lines.map parseGcJournalEntry

end

/-! ## Appending -/

/-- What a compaction reports. -/
structure GarbageCollectionReport where
  repositorySize : Nat
  reclaimedSize : Nat
  timestamp : Nat
  generation : GarbageCollectionGeneration
  compactedNodes : Nat
  root : RecordIdentifier

/-- The fields of a line. -/
def GarbageCollectionReport.fields (report : GarbageCollectionReport) : List Bytes :=
  [Digits.padded 10 1 report.repositorySize, Digits.padded 10 1 report.reclaimedSize,
    Digits.padded 10 1 report.timestamp, decimalBytes report.generation.generation.toInt,
    decimalBytes report.generation.fullGeneration.toInt, Digits.padded 10 1 report.compactedNodes,
    revisionBytes report.root]

/-- The line of a report. -/
def garbageCollectionLogEntry (report : GarbageCollectionReport) : Bytes :=
  [44].intercalate report.fields ++ [10]

/-- An append to `gc.log`. -/
inductive GcLogEvent where
  /-- An append that returned. -/
  | append (report : GarbageCollectionReport)
  /-- An append that a crash cut after some bytes. -/
  | torn (report : GarbageCollectionReport) (written : Nat)

/-- What an append leaves in the file. -/
def GcLogEvent.step (file : Bytes) : GcLogEvent → Bytes
  | .append report => file ++ garbageCollectionLogEntry report
  | .torn report written => file ++ (garbageCollectionLogEntry report).take written

/-- The file after some appends, from no file on. -/
def gcLogAfter (events : List GcLogEvent) : Bytes := events.foldl GcLogEvent.step []

/-- The report of an event. -/
def GcLogEvent.report : GcLogEvent → GarbageCollectionReport
  | .append report => report
  | .torn report _ => report

/-- The report of an append that is completely in the file. -/
def GcLogEvent.complete : GcLogEvent → Option GarbageCollectionReport
  | .append report => some report
  | .torn report written =>
    if (garbageCollectionLogEntry report).length ≤ written then some report else none

end Froe
