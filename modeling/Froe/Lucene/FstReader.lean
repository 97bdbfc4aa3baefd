import Froe.Lucene.Fst

/-!
# Reading a transducer

Lucene's rules for an unpacked transducer of linear arcs: the reader seeks to a node's
address and reads down the store.  This is the contract that the writer's bytes are held
against, not code of the repository.
-/

namespace Froe

open CodecInput

namespace Fst

/-- The first byte of a node whose arcs have fixed width. -/
def arcsAsFixedArray : UInt8 := 32

/-- An arc as a reader meets it. -/
structure Arc where
  label : UInt8 := 0
  output : Bytes := []
  isFinal : Bool := false
  nextFinalOutput : Bytes := []
  target : Int := 0
deriving DecidableEq, Repr

/-- `ByteSequenceOutputs.read`. -/
def readOutput (bytes : Bytes) : Option (Bytes × Bytes) :=
  (readVint bytes).bind fun x => readBytes x.1 x.2

/-- An output that is there only under a flag. -/
def readOutputIf (there : Bool) (bytes : Bytes) : Option (Bytes × Bytes) :=
  if there then readOutput bytes else some ([], bytes)

/-- The fields of an arc before its target. -/
structure ArcFields where
  flags : UInt8
  label : UInt8
  output : Bytes
  nextFinalOutput : Bytes
deriving DecidableEq, Repr

namespace ArcFields

def has (fields : ArcFields) (bit : UInt8) : Bool := fields.flags &&& bit ≠ 0

def toArc (fields : ArcFields) (target : Int) : Arc :=
  { label := fields.label, output := fields.output, isFinal := fields.has bitFinalArc,
    nextFinalOutput := fields.nextFinalOutput, target := target }

end ArcFields

def readArcFields : Bytes → Option (ArcFields × Bytes)
  | flags :: label :: bytes => do
    let (output, bytes) ← readOutputIf (flags &&& bitArcHasOutput ≠ 0) bytes
    let (finalOutput, bytes) ← readOutputIf (flags &&& bitArcHasFinalOutput ≠ 0) bytes
    return (⟨flags, label, output, finalOutput⟩, bytes)
  | _ => none

/-- Passes over the target that follows the fields of an arc, when one does. -/
def skipTarget (fields : ArcFields) (bytes : Bytes) : Option Bytes :=
  if fields.has bitStopNode ∨ fields.has bitTargetNext then some bytes
  else (readVlong bytes).map fun x => x.2

/-- `FST.seekToNextNode`: what is below the node whose arcs come next. -/
def seekToNextNode : Nat → Bytes → Option Bytes
  | 0, _ => none
  | fuel + 1, bytes => do
    let (fields, bytes) ← readArcFields bytes
    let bytes ← skipTarget fields bytes
    if fields.has bitLastArc then some bytes else seekToNextNode fuel bytes

/-- What is below the node of the arc just read. -/
def belowNode (isLast : Bool) (bytes : Bytes) : Option Bytes :=
  if isLast then some bytes else seekToNextNode bytes.length bytes

/-- `FST.readNextRealArc`: the arc, whether it is its node's last, and what follows it. -/
def readNextRealArc (bytes : Bytes) : Option (Arc × Bool × Bytes) := do
  let (fields, bytes) ← readArcFields bytes
  let isLast := fields.has bitLastArc
  if fields.has bitStopNode then
    return (fields.toArc (if fields.has bitFinalArc then finalEndNode else nonFinalEndNode),
      isLast, bytes)
  else if fields.has bitTargetNext then
    let below ← belowNode isLast bytes
    return (fields.toArc (below.length - 1), isLast, bytes)
  else
    let (target, bytes) ← readVlong bytes
    return (fields.toArc target, isLast, bytes)

/-- The linear scan of `FST.findTargetArc`. -/
def scanArcs (label : UInt8) : Nat → Bytes → Option Arc
  | 0, _ => none
  | fuel + 1, bytes => do
    let (arc, isLast, bytes) ← readNextRealArc bytes
    if arc.label = label then some arc
    else if label < arc.label then none
    else if isLast then none
    else scanArcs label fuel bytes

/-- What a reader meets from a position of the store downwards. -/
def seek (store : Bytes) (position : Nat) : Option Bytes :=
  if store.length ≤ position then none else some (store.take (position + 1)).reverse

/-- `FST.findTargetArc`: the arc of a label out of a node. -/
def findTargetArc (store : Bytes) (node : Int) (label : UInt8) : Option Arc :=
  if node ≤ 0 then none
  else
    (seek store node.toNat).bind fun bytes =>
      if bytes.head? = some arcsAsFixedArray then none else scanArcs label bytes.length bytes

/-- The output of a key below an arc. -/
def walk (store : Bytes) : Arc → Bytes → Option Bytes
  | arc, [] => if arc.isFinal then some arc.nextFinalOutput else none
  | arc, label :: key =>
    (findTargetArc store arc.target label).bind fun next =>
      (walk store next key).map fun output => next.output ++ output

end Fst

/-- A transducer as it is read. -/
structure Fst where
  emptyOutput : Option Bytes
  startNode : Nat
  nodeCount : Nat
  arcCount : Nat
  arcWithOutputCount : Nat
  store : Bytes
deriving DecidableEq, Repr

namespace Fst

/-- The output of the empty key: reversed behind its length, and read backwards. -/
def readEmptyOutput : Bytes → Option (Option Bytes × Bytes)
  | [] => none
  | accepts :: bytes =>
    if accepts = 1 then do
      let (length, bytes) ← readVint bytes
      let (inner, bytes) ← readBytes length bytes
      let (output, _) ← readOutput inner.reverse
      return (some output, bytes)
    else some (none, bytes)

/-- One byte that must have a given value. -/
def expectByte (value : UInt8) : Bytes → Option Bytes
  | [] => none
  | b :: bytes => if b = value then some bytes else none

/-- The constructor that reads a transducer, and what follows it. -/
def read (bytes : Bytes) : Option (Fst × Bytes) := do
  let bytes ← checkHeader fileFormatName versionCurrent bytes
  let bytes ← expectByte 0 bytes
  let (emptyOutput, bytes) ← readEmptyOutput bytes
  let bytes ← expectByte 0 bytes
  let (startNode, bytes) ← readVlong bytes
  let (nodeCount, bytes) ← readVlong bytes
  let (arcCount, bytes) ← readVlong bytes
  let (arcWithOutputCount, bytes) ← readVlong bytes
  let (length, bytes) ← readVlong bytes
  let (store, bytes) ← readBytes length bytes
  return (⟨emptyOutput, startNode, nodeCount, arcCount, arcWithOutputCount, store⟩, bytes)

/-- `FST.getFirstArc`. -/
def firstArc (fst : Fst) : Arc :=
  { isFinal := fst.emptyOutput.isSome, nextFinalOutput := fst.emptyOutput.getD [],
    target := fst.startNode }

/-- `Util.get`: the output of a key, when the transducer accepts it. -/
def get (fst : Fst) (key : Bytes) : Option Bytes := walk fst.store fst.firstArc key

end Fst

end Froe
