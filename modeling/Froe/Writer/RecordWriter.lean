import Froe.Content.Value
import Froe.Store.Cache
import Froe.Writer.SegmentBuilder

/-!
# The record writer

Records go into the segment under construction; when one does not fit, the
segment is finished, handed to the sink, and the record is allocated in a fresh
one.  The sink is the list of the segments it has taken, in write order.

Fresh identifiers, the clock and the sink's failures come from the environment.
-/

namespace Froe

/-- What a writer draws from outside. -/
structure Environment where
  /-- The identifiers of new data segments, in the order they are drawn. -/
  dataSegmentIdentifier : Nat → SegmentIdentifier
  /-- The identifiers of new bulk segments. -/
  bulkSegmentIdentifier : Nat → SegmentIdentifier
  /-- The clock when a segment is started, in milliseconds. -/
  milliseconds : Nat → Nat
  /-- Whether the sink takes one more segment. -/
  takesSegment : List BuiltSegment → BuiltSegment → Result Unit

/-- Everything that decides the serialized form of a template. -/
structure TemplateKey where
  primaryType : Option String
  mixinTypes : List String
  childArity : UInt8
  singleChildName : Option String
  properties : List (String × UInt8)
deriving DecidableEq

/-- The writer, its segment under construction and its dedup caches. -/
structure RecordWriter where
  sink : List BuiltSegment
  generation : GarbageCollectionGeneration
  writerIdentifier : String
  segmentSequence : UInt32
  current : SegmentBufferBuilder
  valueCache : Caches.BoundedCache Bytes RecordIdentifier
  templateCache : Caches.BoundedCache TemplateKey RecordIdentifier
  /-- How many data segments have been started. -/
  dataSegments : Nat
  /-- How many bulk segments have been written. -/
  bulkSegments : Nat

/-- A step of a writer. -/
abbrev Writing := StateT RecordWriter Result

def valueDedupBudgetBytes : UInt64 := 32 * 1024 * 1024

def templateDedupBudgetBytes : UInt64 := 32 * 1024 * 1024

/-- An identifier costs its size in memory. -/
instance : Caches.CacheWeight RecordIdentifier := ⟨fun _ => 24⟩

/-- A part of a record's content. -/
inductive Field where
  | raw (bytes : Bytes)
  | identifier (record : RecordIdentifier)
deriving DecidableEq

/-- An identifier takes six bytes. -/
def Field.length : Field → Nat
  | .raw bytes => bytes.length
  | .identifier _ => 6

/-- The size of a record with the given content. -/
def fieldsLength (fields : List Field) : Nat := (fields.map Field.length).sum

/-- Writes fields into a record, one behind the other. -/
def SegmentBufferBuilder.fill (b : SegmentBufferBuilder) (recordNumber offset : Nat) :
    List Field → SegmentBufferBuilder
  | [] => b
  | .raw bytes :: fields =>
    (b.copyInto recordNumber offset bytes).fill recordNumber (offset + bytes.length) fields
  | .identifier record :: fields =>
    (b.writeIdentifierAt recordNumber offset record).fill recordNumber (offset + 6) fields

/-- The length of a medium value past that of small ones, under the bits that mark it. -/
def mediumHeader (length : Nat) : Bytes :=
  Bytes.be 2 ((length - smallValueLimit) ||| 0x8000)

/-- The text of a segment-info record. -/
def segmentInfo (writerIdentifier : String) (segmentSequence : UInt32) (milliseconds : Nat) :
    String :=
  "\x7b\"wid\":\"" ++ writerIdentifier ++ "\",\"sno\":" ++ toString segmentSequence.toNat ++
    ",\"t\":" ++ toString milliseconds ++ "\x7d"

/-- The content of a segment-info record: a small string, or a medium one that is cut at the
limit. -/
def segmentInfoFields (info : Bytes) : List Field :=
  if info.length < smallValueLimit then [.raw [UInt8.ofNat info.length], .raw info]
  else
    let truncated := info.take (mediumValueLimit - 1)
    [.raw (mediumHeader truncated.length), .raw truncated]

namespace RecordWriter

variable (env : Environment)

/-- The first record of every segment. -/
def writeSegmentInfoRecord (w : RecordWriter) : RecordWriter :=
  let info := segmentInfo w.writerIdentifier w.segmentSequence (env.milliseconds w.dataSegments)
  let fields := segmentInfoFields info.utf8
  -- the record fits an empty segment
  match w.current.allocate .value (fieldsLength fields) [] with
  | some (record, current) =>
    { w with
      segmentSequence := w.segmentSequence + 1
      current := current.fill record 0 fields }
  | none => { w with segmentSequence := w.segmentSequence + 1 }

/-- Starts the next data segment. -/
def startSegment (w : RecordWriter) : RecordWriter :=
  writeSegmentInfoRecord env
    { w with
      current := .new (env.dataSegmentIdentifier w.dataSegments) w.generation
      dataSegments := w.dataSegments + 1 }

/-- A writer that stamps a generation on every segment. -/
def withWriterIdentifier (generation : GarbageCollectionGeneration) (writerIdentifier : String) :
    RecordWriter :=
  startSegment env
    { sink := []
      generation := generation
      writerIdentifier := writerIdentifier
      segmentSequence := 0
      current := .new (env.dataSegmentIdentifier 0) generation
      valueCache := .new valueDedupBudgetBytes
      templateCache := .new templateDedupBudgetBytes
      dataSegments := 0
      bulkSegments := 0 }

/-- Hands a segment to the sink. -/
def writeSegment (segment : BuiltSegment) : Writing Unit := do
  let w ← get
  env.takesSegment w.sink segment
  set { w with sink := w.sink ++ [segment] }

/-- Flushes the segment under construction when it holds more than the segment-info record. -/
def flushCurrentSegment : Writing Unit := do
  let w ← get
  if w.current.records.length ≤ 1 then return ()
  else
    set (startSegment env w)
    writeSegment env w.current.finish

/-- Allocates a record, in a fresh segment when the current one is full. -/
def allocate (recordType : RecordType) (size : Nat) (referenced : List RecordIdentifier) :
    Writing Nat := do
  let segments := referenced.map RecordIdentifier.segment
  let w ← get
  match w.current.allocate recordType size segments with
  | some (record, current) =>
    set { w with current := current }
    return record
  | none =>
    flushCurrentSegment env
    let w ← get
    match w.current.allocate recordType size segments with
    | some (record, current) =>
      set { w with current := current }
      return record
    | none => throw (.invalidFormat s!"record of {size} bytes cannot fit even an empty segment")

/-- Writes one record: allocates it for all it may reference and fills it.  The content may name
the record itself. -/
def writeRecord (recordType : RecordType) (size : Nat) (referenced : List RecordIdentifier)
    (fields : RecordIdentifier → List Field) : Writing RecordIdentifier := do
  let record ← allocate env recordType size referenced
  let w ← get
  let own : RecordIdentifier := ⟨w.current.identifier, UInt32.ofNat record⟩
  set { w with current := w.current.fill record 0 (fields own) }
  return own

end RecordWriter

end Froe
