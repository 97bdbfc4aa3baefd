import Froe.Content.Node
import Froe.Lib.OrderedMap
import Mathlib.Data.Finmap
import Mathlib.Data.Finset.Sort
import Mathlib.Data.String.Basic

/-!
# Digests

A digest renders every node of a tree as one line: its path, and its properties in the
order of their names, each with its type, its arity and its values.  Every child and
every property that is enumerated is looked up by name as well, and what the lookup does
not find is reported beside the digest.

Equality of property values is a parameter, as floating-point numbers are.
-/

namespace Froe

/-! ## Texts -/

/-- A character of a name or a value, without what the grammar of the lines reserves. -/
def escapeChar (c : Char) : List Char :=
  if c = '\\' then ['\\', '\\']
  else if c = '\t' then ['\\', 't']
  else if c = '\n' then ['\\', 'n']
  else if c = '\r' then ['\\', 'r']
  else if c = Char.ofNat 0x1F then ['\\', 'u', '0', '0', '1', 'f']
  else [c]

/-- Escapes what the grammar of the lines reserves. -/
def escape (text : String) : String :=
  if text.toList.any fun c => c = '\\' ∨ c = '\t' ∨ c = '\n' ∨ c = '\r' ∨ c = Char.ofNat 0x1F then
    String.ofList (text.toList.flatMap escapeChar)
  else text

/-- The rendered form of a path.  The root is a slash. -/
def displayPath (path : String) : String := if path = "" then "/" else path

/-- Whether a path is one of the prefixes or below one. -/
def excluded (path : String) (prefixes : List String) : Bool :=
  prefixes.any fun start =>
    start.toList.isPrefixOf path.toList &&
      (let rest := path.toList.drop start.toList.length
      rest.isEmpty || rest.head? = some '/')

/-! ## What a digest observes -/

/-- What a run observed beside the digest. -/
structure DigestSummary where
  nodes : Nat
  properties : Nat
  /-- The properties left out because their names begin as one of the excluded ones. -/
  excludedProperties : Nat
  binaries : Nat
  binaryBytes : Nat
  checkpoints : Nat
  /-- The first disagreements between enumeration and lookup. -/
  reportedLookupFailures : List String
  lookupFailures : Nat
  danglingAsyncCheckpoints : List String

/-- Nothing has been seen. -/
def DigestSummary.empty : DigestSummary := ⟨0, 0, 0, 0, 0, 0, [], 0, []⟩

/-- How many failures are told in detail. -/
def maximumReportedLookupFailures : Nat := 64

/-- Counts a failed lookup. -/
def DigestSummary.recordLookupFailure (summary : DigestSummary) (detail : String) :
    DigestSummary :=
  { summary with
    lookupFailures := summary.lookupFailures + 1
    reportedLookupFailures :=
      if summary.reportedLookupFailures.length < maximumReportedLookupFailures then
        summary.reportedLookupFailures ++ [detail]
      else summary.reportedLookupFailures }

/-- The digest so far, with what was observed. -/
structure Digesting where
  output : String
  summary : DigestSummary

/-- The walk, with its state and its errors. -/
abbrev DigestM := StateT Digesting (Except Error)

/-- Changes the summary. -/
def observe (change : DigestSummary → DigestSummary) : DigestM Unit :=
  modify fun state => { state with summary := change state.summary }

/-- Writes some text. -/
def writeOutput (text : String) : DigestM Unit :=
  modify fun state => { state with output := state.output ++ text }

/-! ## Values -/

/-- How many bytes of a binary are read at once. -/
def binaryBufferBytes : Nat := 64 * 1024

/-- Folds what is left of a stream into a running checksum, and counts it.  Every chunk but the
last has a byte, so that the length bounds the number of rounds. -/
def foldStream (provider : SegmentProvider) :
    Nat → BinaryStream → Nat × UInt32 → Result (Nat × UInt32)
  | 0, _, folded => .ok folded
  | rounds + 1, stream, (readBytes, state) => do
    let chunk ← stream.readChunk provider binaryBufferBytes
    if chunk.length = 0 then return (readBytes, state)
    else
      foldStream provider rounds { stream with position := stream.position + chunk.length }
        (readBytes + chunk.length, crc32Fold state chunk)

/-- How many bytes an inline binary yields, and their checksum. -/
def foldInlineBinary (provider : SegmentProvider) (recordIdentifier : RecordIdentifier) :
    Result (Nat × UInt32) := do
  let stream ← readBinaryStream provider recordIdentifier
  let (readBytes, state) ← foldStream provider (stream.length + 1) stream (0, 0xFFFFFFFF)
  return (readBytes, ~~~state)

/-- The text of an inline binary. -/
def inlineText (length readBytes : Nat) (checksum : UInt32) : String :=
  Utf8.ascii (Digits.padded 10 1 length) ++ "/" ++ Utf8.ascii (Digits.padded 10 1 readBytes) ++
    "@" ++ Utf8.ascii (Digits.padded 16 8 checksum.toNat)

section

variable (f : FloatingPoint) (provider : SegmentProvider)

/-- Renders a value. -/
def renderValue (value : PropertyValue f) : DigestM String :=
  match value with
  | .binary (.inline length recordIdentifier) => do
    let (readBytes, checksum) ← liftM (foldInlineBinary provider recordIdentifier)
    observe fun summary =>
      { summary with
        binaries := summary.binaries + 1
        binaryBytes := summary.binaryBytes + readBytes }
    return inlineText length readBytes checksum
  | .binary (.external blobIdentifier) => return "external:" ++ escape blobIdentifier
  | other => return escape (other.asText.getD "")

/-- Stands between the values of a property. -/
def valueSeparator : Char := Char.ofNat 0x1F

/-- One property, behind a tab. -/
def renderProperty (property : PropertyState f) : DigestM String := do
  observe fun summary => { summary with properties := summary.properties + 1 }
  let arity := match property.values with
    | .single _ => ""
    | .multiple _ => "[]"
  let values ← property.values.toList.mapM (renderValue f provider)
  return "\t" ++ escape property.name ++ "=" ++ property.propertyType.jcrName ++ arity ++ ":" ++
    String.ofList ([valueSeparator].intercalate (values.map String.toList))

variable (equalValues : PropertyValues f → PropertyValues f → Bool)
  (excludedPropertyPrefixes : List String)

/-- The properties that are rendered, in the order of their names. -/
def digestedProperties (properties : List (PropertyState f)) : List (PropertyState f) :=
  (properties.filter fun property =>
    !excludedPropertyPrefixes.any fun start =>
      start.toList.isPrefixOf property.name.toList).mergeSort fun a b => a.name ≤ b.name

/-- Looks up a property that was enumerated.  `quote` is `{:?}` up to characters that do not print. -/
def probeProperty (node : NodeState) (path : String) (property : PropertyState f) :
    DigestM Unit := do
  let found ← liftM (node.property f property.name)
  let agrees := found.any fun found =>
    found.propertyType = property.propertyType && equalValues found.values property.values
  if agrees then return
  else
    let name := property.name.quote
    let what := if found.isSome then "decodes differently" else "absent"
    observe fun summary => summary.recordLookupFailure
      s!"{displayPath path}: property {name} is present when enumerated but {what} when looked up by name"

/-- Writes the line of a node, and looks up its properties. -/
def emitNode (node : NodeState) (path : String) : DigestM Unit := do
  observe fun summary => { summary with nodes := summary.nodes + 1 }
  let properties ← liftM (node.properties f)
  let kept := digestedProperties f excludedPropertyPrefixes properties
  observe fun summary =>
    { summary with
      excludedProperties := summary.excludedProperties + (properties.length - kept.length) }
  let rendered ← kept.mapM (renderProperty f provider)
  writeOutput (displayPath path ++ String.join rendered ++ "\n")
  kept.forM (probeProperty f equalValues node path)

/-! ## The walk -/

/-- A step of the walk.  Leaving a node takes it from the ancestors. -/
inductive DigestStep where
  | visit (node : NodeState) (path : String)
  | leave (record : RecordIdentifier)

/-- Looks up a child that was enumerated. -/
def probeChild (node : NodeState) (path : String) (entry : String × RecordIdentifier) :
    DigestM Unit := do
  let found ← liftM (node.childNode entry.1)
  if found = some entry.2 then return
  else
    let name := entry.1.quote
    observe fun summary => summary.recordLookupFailure
      s!"{displayPath path}: child {name} is present when enumerated but not reachable by lookup, so an application resolving that path finds nothing"

/-- The children of a node in the order of their names. -/
def sortedEntries (entries : List (String × RecordIdentifier)) :
    List (String × RecordIdentifier) :=
  entries.mergeSort fun a b => a.1 ≤ b.1

/-- The path of a child. -/
def childPath (path name : String) : String := path ++ "/" ++ escape name

/-- The children to visit. -/
def childVisits (excludedPrefixes : List String) (node : NodeState) (path : String)
    (entries : List (String × RecordIdentifier)) : List DigestStep :=
  (entries.filter fun entry => !excluded (childPath path entry.1) excludedPrefixes).map fun entry =>
    .visit ⟨node.provider, entry.2⟩ (childPath path entry.1)

/-- Writes one node and looks up what it enumerates. -/
def visitNode (node : NodeState) (path : String) : DigestM (List (String × RecordIdentifier)) := do
  emitNode f provider equalValues excludedPropertyPrefixes node path
  let entries ← liftM node.childNodeEntries
  (sortedEntries entries).forM (probeChild node path)
  return sortedEntries entries

/-- Takes steps until none is left.  A node below itself is refused. -/
def Digesting.digestSteps (excludedPrefixes : List String) (stack : List DigestStep)
    (ancestors : Finset RecordIdentifier) (state : Digesting) :
    Option (Except Error Digesting) :=
  match stack with
  | [] => some (.ok state)
  | .leave record :: stack =>
    state |>.digestSteps excludedPrefixes stack (ancestors.erase record)
  | .visit node path :: stack =>
    if node.recordIdentifier ∈ ancestors then
      some (invalid
        s!"the node at {displayPath path} is its own ancestor, so the tree cannot be rendered; this is corruption, not deep content")
    else
      match (visitNode f provider equalValues excludedPropertyPrefixes node path).run state with
      | .error error => some (.error error)
      | .ok (entries, state) =>
        state |>.digestSteps excludedPrefixes
          (childVisits excludedPrefixes node path entries ++ .leave node.recordIdentifier :: stack)
          (insert node.recordIdentifier ancestors)
partial_fixpoint

/-- Renders the tree of a node under a path. -/
def walkExcluding (root : NodeState) (rootPath : String) (excludedPrefixes : List String)
    (state : Digesting) : Option (Except Error Digesting) :=
  Digesting.digestSteps f provider equalValues excludedPropertyPrefixes excludedPrefixes
    [.visit root rootPath] ∅ state

end

/-! ## Comparing digests -/

/-- The lines of a text, without their ends. -/
def textLines (text : List Char) : List (List Char) :=
  let pieces := text.splitOnP (· == '\n')
  let last := (pieces.getLast?).getD []
  (pieces.dropLast.map fun line => if line.getLast? = some '\r' then line.dropLast else line) ++
    if last = [] then [] else [last]

/-- A line cut at its first tab. -/
def digestEntry (line : List Char) : List Char × List Char :=
  match splitOnce '\t' line with
  | some (path, properties) => (path, properties)
  | none => (line, [])

/-- The rendered properties by path. -/
def parseDigest (digest : String) : Finmap fun _ : List Char => List Char :=
  (((textLines digest.toList).filter (· ≠ [])).map digestEntry).foldl
    (fun nodes entry => nodes.insert entry.1 entry.2) ∅

/-- How two digests differ. -/
structure DigestDifference where
  removed : List String
  added : List String
  changed : List String

/-- Whether two digests are the same. -/
def DigestDifference.isEmpty (difference : DigestDifference) : Bool :=
  difference.removed.isEmpty && difference.added.isEmpty && difference.changed.isEmpty

/-- Paths as texts in order. -/
def sortedPaths (paths : Finset (List Char)) : List String :=
  (paths.image String.ofList).sort (· ≤ ·)

/-- Compares two digests. -/
def compareDigests (baseline current : String) : DigestDifference :=
  let baseline := parseDigest baseline
  let current := parseDigest current
  { removed := sortedPaths (baseline.keys.filter (· ∉ current))
    added := sortedPaths (current.keys.filter (· ∉ baseline))
    changed := sortedPaths (baseline.keys.filter fun path =>
      path ∈ current ∧ current.lookup path ≠ baseline.lookup path) }

end Froe
