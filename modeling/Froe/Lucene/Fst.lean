import Froe.Lib.Prefixes
import Froe.Lucene.DataOutput

/-!
# The transducer of a terms index

A map from sorted byte-string keys to byte-string outputs, built key by key.  The
frontier has one node for every depth of the last key; the nodes below the prefix that
the next key shares are frozen, deepest first, and written to the store.  Each node is
written forwards and then reversed in place, and its address is the index of its last
byte, so that a reader starts there and reads down.
-/

namespace Froe

open CodecOutput

namespace Fst

/-- `FST.FILE_FORMAT_NAME`. -/
def fileFormatName : String := "FST"

/-- `FST.VERSION_CURRENT`. -/
def versionCurrent : Int := 4

def bitFinalArc : UInt8 := 1
def bitLastArc : UInt8 := 2
def bitTargetNext : UInt8 := 4
def bitStopNode : UInt8 := 8
def bitArcHasOutput : UInt8 := 16
def bitArcHasFinalOutput : UInt8 := 32

/-- `FST.FINAL_END_NODE`. -/
def finalEndNode : Int := -1

/-- `FST.NON_FINAL_END_NODE`. -/
def nonFinalEndNode : Int := 0

end Fst

open Fst

/-- An arc under construction. -/
structure BuilderArc where
  label : UInt8
  /-- The compiled target, once the node below has been frozen. -/
  target : Int := 0
  output : Bytes := []
  nextFinalOutput : Bytes := []
  isFinal : Bool := false
deriving DecidableEq, Repr

/-- A node on the frontier, one per depth of the last key added. -/
structure UnCompiledNode where
  arcs : List BuilderArc := []
  isFinal : Bool := false
  /-- The output that belongs to ending here. -/
  output : Bytes := []
deriving DecidableEq, Repr

/-- Builds a transducer from sorted keys. -/
structure FstBuilder where
  frontier : List UnCompiledNode := [{}]
  lastInput : Bytes := []
  /-- The node store, which one zero byte opens: no node gets address 0. -/
  bytes : Bytes := [0]
  /-- Structural key to address, for the single-arc tails that are shared. -/
  dedup : List (Bytes × Int) := []
  lastFrozenNode : Int := 0
  nodeCount : Nat := 0
  arcCount : Nat := 0
  arcWithOutputCount : Nat := 0
  emptyOutput : Option Bytes := none
  finished : Bool := false
deriving DecidableEq, Repr

namespace Fst

/-! ## Outputs -/

/-- How many bytes two keys share at their start. -/
def sharedLength (left right : Bytes) : Nat :=
  ((left.zip right).takeWhile fun x => x.1 == x.2).length

/-- `ByteSequenceOutputs.common`. -/
def commonPrefix (left right : Bytes) : Bytes := left.take (sharedLength left right)

/-- `ByteSequenceOutputs.write`: a length, then the bytes. -/
def writeOutput (value : Bytes) : Bytes := writeVint (lengthOrMaximum value.length) ++ value

/-- Every arc out of the node, and the node's own final output, gain the prefix that the
parent gave up. -/
def prependOutput (node : UnCompiledNode) (pfx : Bytes) : UnCompiledNode :=
  if pfx.isEmpty then node
  else
    { node with
      arcs := node.arcs.map fun arc => { arc with output := pfx ++ arc.output }
      output := if node.isFinal then pfx ++ node.output else node.output }

/-- The bytes of one arc in a node's sharing key. -/
def dedupArc (arc : BuilderArc) : Bytes :=
  [arc.label] ++ Bytes.be 8 (arc.target % 2 ^ 64).toNat ++ [if arc.isFinal then 1 else 0]
    ++ Bytes.be 4 arc.output.length ++ arc.output
    ++ Bytes.be 4 arc.nextFinalOutput.length ++ arc.nextFinalOutput

/-- A node's identity for sharing: its arcs, resolved to addresses. -/
def dedupKey (node : UnCompiledNode) : Bytes := node.arcs.flatMap dedupArc

/-! ## Nodes in the store -/

/-- The flag byte of an arc. -/
def arcFlags (lastFrozenNode : Int) (isLast : Bool) (arc : BuilderArc) : UInt8 :=
  (if isLast then bitLastArc else 0)
    ||| (if lastFrozenNode = arc.target then bitTargetNext else 0)
    ||| (if arc.isFinal then
          bitFinalArc ||| (if arc.nextFinalOutput.isEmpty then 0 else bitArcHasFinalOutput)
        else 0)
    ||| (if 0 < arc.target then 0 else bitStopNode)
    ||| (if arc.output.isEmpty then 0 else bitArcHasOutput)

/-- The address of the target, where the flags do not tell it. -/
def writeTarget (flags : UInt8) (target : Int) : Except Error Bytes :=
  if 0 < target ∧ flags &&& bitTargetNext = 0 then writeVlong target else .ok []

/-- An arc as it is written, before its node is reversed. -/
def writeArc (lastFrozenNode : Int) (isLast : Bool) (arc : BuilderArc) : Except Error Bytes := do
  let flags := arcFlags lastFrozenNode isLast arc
  let output := if arc.output.isEmpty then [] else writeOutput arc.output
  let finalOutput := if arc.nextFinalOutput.isEmpty then [] else writeOutput arc.nextFinalOutput
  let target ← writeTarget flags arc.target
  return [flags, arc.label] ++ output ++ finalOutput ++ target

/-- The arcs of a node as they are written. -/
def writeArcs (lastFrozenNode : Int) : List BuilderArc → Except Error Bytes
  | [] => .ok []
  | arc :: arcs => do
    let first ← writeArc lastFrozenNode arcs.isEmpty arc
    let rest ← writeArcs lastFrozenNode arcs
    return first ++ rest

/-- Changes the last element of a list, when there is one. -/
def modifyLast {α : Type} (f : α → α) (l : List α) : List α :=
  match l.getLast? with
  | some a => l.dropLast ++ [f a]
  | none => l

end Fst

namespace FstBuilder

/-- A node of the frontier. -/
def node (b : FstBuilder) (index : Nat) : UnCompiledNode := b.frontier.getD index {}

/-- Changes a node of the frontier. -/
def modifyNode (b : FstBuilder) (index : Nat) (f : UnCompiledNode → UnCompiledNode) : FstBuilder :=
  { b with frontier := b.frontier.modify index f }

/-- Writes one node into the store and returns its address. -/
def addNode (b : FstBuilder) (node : UnCompiledNode) : Except Error (Int × FstBuilder) := do
  let written ← writeArcs b.lastFrozenNode node.arcs
  let bytes := b.bytes ++ written.reverse
  let address : Int := bytes.length - 1
  return (address,
    { b with
      bytes := bytes
      lastFrozenNode := address
      nodeCount := b.nodeCount + 1
      arcCount := b.arcCount + node.arcs.length
      arcWithOutputCount := b.arcWithOutputCount + node.arcs.countP fun arc => !arc.output.isEmpty })

/-- Compiles one node.  Only a node with a single arc is shared; a node without arcs is an
end node and has no bytes. -/
def compileNode (b : FstBuilder) (node : UnCompiledNode) : Except Error (Int × FstBuilder) :=
  if node.arcs.isEmpty then .ok (if node.isFinal then finalEndNode else nonFinalEndNode, b)
  else if 1 < node.arcs.length then b.addNode node
  else
    match b.dedup.lookup (dedupKey node) with
    -- a hit leaves the last frozen node as it was
    | some address => .ok (address, b)
    | none => do
      let (address, b) ← b.addNode node
      return (address, { b with dedup := (dedupKey node, address) :: b.dedup })

/-- Freezes the node at a depth, and resolves the arc that leads to it. -/
def freezeNode (b : FstBuilder) (index : Nat) : Except Error FstBuilder := do
  let node := b.node index
  let (compiled, b) ← (b.modifyNode index fun _ => {}).compileNode node
  return b.modifyNode (index - 1) fun parent =>
    { parent with
      arcs := modifyLast (fun arc =>
        { arc with
          target := compiled
          nextFinalOutput := node.output
          isFinal := node.isFinal || node.arcs.isEmpty }) parent.arcs }

/-- Freezes from a depth up to `downTo`, deepest first. -/
def freezeDown (downTo : Nat) : Nat → FstBuilder → Except Error FstBuilder
  | 0, b => .ok b
  | index + 1, b =>
    if downTo ≤ index + 1 then do
      let b ← b.freezeNode (index + 1)
      freezeDown downTo index b
    else .ok b

/-- Freezes every frontier node below `prefixLenPlus1`. -/
def freezeTail (b : FstBuilder) (prefixLenPlus1 : Nat) : Except Error FstBuilder :=
  freezeDown (max prefixLenPlus1 1) b.lastInput.length b

/-- One node of the frontier for every depth of the key. -/
def growFrontier (b : FstBuilder) (depth : Nat) : FstBuilder :=
  { b with frontier := b.frontier ++ List.replicate (depth + 1 - b.frontier.length) {} }

/-- The arcs for what the key adds to the shared prefix. -/
def pushArcs (b : FstBuilder) (prefixLenPlus1 : Nat) (key : Bytes) : FstBuilder :=
  (List.range' prefixLenPlus1 (key.length + 1 - prefixLenPlus1)).foldl (fun b index =>
    b.modifyNode (index - 1) fun node =>
      { node with arcs := node.arcs ++ [{ label := key.getD (index - 1) 0 }] }) b

/-- Pushes the conflicting part of the output forward: the arc into depth `index` keeps
what it shares with the rest of the output, and what it gives up moves down. -/
def pushOutput (key : Bytes) (state : FstBuilder × Bytes) (index : Nat) : FstBuilder × Bytes :=
  let (b, remaining) := state
  let lastOutput :=
    (((b.node (index - 1)).arcs.getLast?.filter fun arc => arc.label == key.getD (index - 1) 0).map
      fun arc => arc.output).getD []
  if lastOutput.isEmpty then (b, remaining)
  else
    let common := commonPrefix remaining lastOutput
    let wordSuffix := lastOutput.drop common.length
    let b := b.modifyNode (index - 1) fun node =>
      { node with arcs := modifyLast (fun arc => { arc with output := common }) node.arcs }
    (b.modifyNode index fun node => prependOutput node wordSuffix, remaining.drop common.length)

/-- Adds a key, behind all earlier ones. -/
def add (b : FstBuilder) (key output : Bytes) : Except Error FstBuilder :=
  if b.finished then .error (.invalidFormat "this transducer is already finished")
  else if ¬ b.lastInput.isEmpty ∧ key < b.lastInput then
    .error (.invalidFormat
      s!"transducer keys arrive in ascending order; {key} follows {b.lastInput}")
  else if key.isEmpty then
    -- the root has no incoming arc, so the empty key's output is kept beside the automaton
    .ok { b.modifyNode 0 fun node => { node with isFinal := true } with emptyOutput := some output }
  else do
    let prefixLenPlus1 := sharedLength b.lastInput key + 1
    let b ← (b.growFrontier key.length).freezeTail prefixLenPlus1
    let b := b.pushArcs prefixLenPlus1 key
    let repeated := b.lastInput.length = key.length ∧ prefixLenPlus1 = key.length + 1
    let b :=
      if repeated then b
      else b.modifyNode key.length fun node => { node with isFinal := true, output := [] }
    let (b, remaining) :=
      (List.range' 1 (prefixLenPlus1 - 1)).foldl (pushOutput key) (b, output)
    if repeated then
      .error (.invalidFormat s!"{key} is added twice, and a byte-string output cannot merge")
    else
      let b := b.modifyNode (prefixLenPlus1 - 1) fun node =>
        { node with arcs := modifyLast (fun arc => { arc with output := remaining }) node.arcs }
      return { b with lastInput := key }

/-- Adds keys in turn. -/
def addAll (b : FstBuilder) (entries : List (Bytes × Bytes)) : Except Error FstBuilder :=
  entries.foldlM (fun b entry => b.add entry.1 entry.2) b

/-- What `finish` writes of the empty key: its output reversed, behind its length. -/
def writeEmptyOutput : Option Bytes → Bytes
  | some value =>
    let inner := (writeOutput value).reverse
    [1] ++ writeVint (lengthOrMaximum inner.length) ++ inner
  | none => [0]

/-- What `finish` writes of a builder whose root has been compiled. -/
def serialize (b : FstBuilder) (startNode : Int) : Except Error Bytes := do
  let header ← writeHeader fileFormatName versionCurrent
  let start ← writeVlong startNode
  let nodes ← writeVlong b.nodeCount
  let arcs ← writeVlong b.arcCount
  let arcsWithOutput ← writeVlong b.arcWithOutputCount
  let length ← writeVlong b.bytes.length
  -- unpacked, and one byte per label
  return header ++ [0] ++ writeEmptyOutput b.emptyOutput ++ [0] ++ start ++ nodes ++ arcs
    ++ arcsWithOutput ++ length ++ b.bytes

/-- Compiles the root of a builder whose frontier is frozen, and serializes. -/
def finishRoot (b : FstBuilder) : Except Error Bytes :=
  let root := b.node 0
  if root.arcs.isEmpty ∧ b.emptyOutput.isNone then
    .error (.invalidFormat "a transducer with no key at all has no serialized form")
  else do
    let (startNode, compiled) ←
      { b.modifyNode 0 fun _ => {} with finished := true }.compileNode root
    -- an automaton of only the empty key has no address to start from
    compiled.serialize
      (if startNode = finalEndNode ∧ b.emptyOutput.isSome then 0 else startNode)

/-- Finishes and serializes. -/
def finish (b : FstBuilder) : Except Error Bytes :=
  if b.finished then .error (.invalidFormat "this transducer is already finished")
  else do
    let frozen ← b.freezeTail 0
    frozen.finishRoot

end FstBuilder

end Froe
