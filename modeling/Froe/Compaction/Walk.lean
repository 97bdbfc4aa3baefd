import Froe.Segment.Parsed
import Mathlib.Data.Finset.Basic

/-!
# The walk of a deep copy

A node is copied when all its children are: the walk keeps the suspended nodes
on an explicit stack, refuses a record that is already on the path, and serves a
record it has copied from a memo.  Records below which something is omitted are
kept in one memo for the head and one for the checkpoints, since their copies
differ.

Reading the children of a node and writing its copy are parameters here.  The
open-addressed memo and the hash maps are association lists.
-/

namespace Froe.Compaction

/-- The reads of the source and the writes of the copy, over the state of a writer. -/
structure Copying (σ : Type) where
  /-- The children of a node record, in enumeration order. -/
  childNodeEntries : RecordIdentifier → Result (List (String × RecordIdentifier))
  /-- Writes the copy of a node over the copies of its children. -/
  writeCopy : RecordIdentifier → List (String × RecordIdentifier) → σ →
    Result (RecordIdentifier × σ)

/-- What a copy leaves out. -/
structure Omissions where
  /-- Children of the `checkpoints` container of the super-root. -/
  omittedCheckpoints : Finset String
  /-- Subtree roots that are not entered outside checkpoint snapshots. -/
  omittedSubtreeRecords : Finset RecordIdentifier
  /-- Records that are memoized per scope. -/
  contextDependentRecords : Finset RecordIdentifier

/-- Source records and their copies. -/
abbrev RecordMap := List (RecordIdentifier × RecordIdentifier)

/-- Adds a record to the exact memo, which asserts that it is not there yet. -/
def RecordMap.insertNew (map : RecordMap) (source copy : RecordIdentifier) : Option RecordMap :=
  if (map.lookup source).isSome then none else some ((source, copy) :: map)

def RecordMap.put (map : RecordMap) (source copy : RecordIdentifier) : RecordMap :=
  (source, copy) :: map.filter (·.1 ≠ source)

/-- The state of a copy. -/
structure Compactor (σ : Type) where
  writer : σ
  /-- The memos of the context-dependent records, for the head and for the checkpoints. -/
  scopedRewrites : Bool → RecordMap
  rewrittenNodes : RecordMap
  /-- The records on the stack. -/
  nodesOnPath : Finset RecordIdentifier
  compactedNodes : Nat

/-- A suspended node. -/
structure CompactionFrame where
  source : RecordIdentifier
  /-- The name of the node in its parent; the root has none. -/
  nameInParent : Option String
  withinCheckpoints : Bool
  /-- The children that remain, the next one first. -/
  pendingChildren : List (String × RecordIdentifier)
  rewrittenChildren : List (String × RecordIdentifier)
deriving DecidableEq

/-- How a step of the copy ends. -/
inductive Outcome (σ : Type) where
  | more (compactor : Compactor σ) (stack : List CompactionFrame)
  | returned (rewritten : RecordIdentifier) (compactor : Compactor σ)
  /-- The record is contained in its own subtree. -/
  | cycle (record : RecordIdentifier)
  /-- A read or a write failed. -/
  | failed (error : Error)
  /-- An `expect` or an assertion fired. -/
  | panicked

def cycleError (sourceNode : RecordIdentifier) : Error :=
  .invalidFormat s!"node record {sourceNode.display} is contained in its own subtree; the source records form a cycle"

section Copy

variable {σ : Type} (copying : Copying σ) (omissions : Omissions)

/-- The copy of a record in the memo that serves it. -/
def Compactor.memoized (c : Compactor σ) (sourceNode : RecordIdentifier)
    (withinCheckpoints : Bool) : Option RecordIdentifier :=
  if sourceNode ∈ omissions.contextDependentRecords then
    (c.scopedRewrites withinCheckpoints).lookup sourceNode
  else c.rewrittenNodes.lookup sourceNode

/-- The outcome of resolving one node reference. -/
inductive Entered where
  | fresh (frame : CompactionFrame)
  | memoized (rewritten : RecordIdentifier)
  | cycle
  | failed (error : Error)

/-- Resolves one node: a memo holds its copy, or there is a frame to descend into. -/
def enter (c : Compactor σ) (sourceNode : RecordIdentifier) (withinCheckpoints : Bool) : Entered :=
  match c.memoized omissions sourceNode withinCheckpoints with
  | some rewritten => .memoized rewritten
  | none =>
    if sourceNode ∈ c.nodesOnPath then .cycle
    else
      match copying.childNodeEntries sourceNode with
      | .error error => .failed error
      | .ok pendingChildren => .fresh ⟨sourceNode, none, false, pendingChildren, []⟩

/-- The record is on the path from the moment its frame is made. -/
def Compactor.onPath (c : Compactor σ) (sourceNode : RecordIdentifier) : Compactor σ :=
  { c with nodesOnPath := insert sourceNode c.nodesOnPath }

/-- The memos after one node is emitted.  The exact one refuses a record twice. -/
def Compactor.memoize (c : Compactor σ) (sourceNode : RecordIdentifier) (withinCheckpoints : Bool)
    (rewritten : RecordIdentifier) : Option (Compactor σ) :=
  if sourceNode ∈ omissions.contextDependentRecords then
    let rewrites := (c.scopedRewrites withinCheckpoints).put sourceNode rewritten
    some { c with scopedRewrites := Function.update c.scopedRewrites withinCheckpoints rewrites }
  else
    (c.rewrittenNodes.insertNew sourceNode rewritten).map fun rewrittenNodes =>
      { c with rewrittenNodes := rewrittenNodes }

/-- The records of a finished node go into the memo, and it leaves the path. -/
def Compactor.emitted (c : Compactor σ) (frame : CompactionFrame) (rewritten : RecordIdentifier)
    (writer : σ) : Option (Compactor σ) :=
  ({ c with writer := writer, nodesOnPath := c.nodesOnPath.erase frame.source,
            compactedNodes := c.compactedNodes + 1 } : Compactor σ).memoize omissions frame.source
    frame.withinCheckpoints rewritten

/-- Emits a frame without pending children and attaches its copy to its parent. -/
def emitFrame (c : Compactor σ) (finished : CompactionFrame) (below : List CompactionFrame) :
    Outcome σ :=
  match copying.writeCopy finished.source finished.rewrittenChildren c.writer with
  | .error error => .failed error
  | .ok (rewritten, writer) =>
    match c.emitted omissions finished rewritten writer with
    | none => .panicked
    | some c =>
      match below, finished.nameInParent with
      | [], _ => .returned rewritten c
      | parent :: rest, some name =>
        .more c ({ parent with
          rewrittenChildren := parent.rewrittenChildren ++ [(name, rewritten)] } :: rest)
      | _ :: _, none => .panicked

/-- Whether a child of a frame is the `checkpoints` container of the super-root: the frame is
the only one on the stack, and the child has the name. -/
def isContainer (below : List CompactionFrame) (name : String) : Bool :=
  below.isEmpty && name == "checkpoints"

/-- The frame of a child with its name and scope.  The container loses the omitted checkpoints
before it is pushed. -/
def childFrame (frame : CompactionFrame) (name : String) (withinCheckpoints container : Bool) :
    CompactionFrame :=
  { frame with
    nameInParent := some name
    withinCheckpoints := withinCheckpoints
    pendingChildren :=
      if container then
        frame.pendingChildren.filter fun checkpoint => checkpoint.1 ∉ omissions.omittedCheckpoints
      else frame.pendingChildren }

def takeChild (c : Compactor σ) (parent : CompactionFrame) (below : List CompactionFrame)
    (name : String) (child : RecordIdentifier)
    (pendingChildren : List (String × RecordIdentifier)) : Outcome σ :=
  let container := isContainer below name
  let withinCheckpoints := parent.withinCheckpoints || container
  if !withinCheckpoints ∧ child ∈ omissions.omittedSubtreeRecords then
    .more c ({ parent with pendingChildren := pendingChildren } :: below)
  else
    match enter copying omissions c child withinCheckpoints with
    | .fresh frame =>
      .more (c.onPath child)
        (childFrame omissions frame name withinCheckpoints container ::
          { parent with pendingChildren := pendingChildren } :: below)
    | .memoized rewritten =>
      .more c
        ({ parent with
            pendingChildren := pendingChildren
            rewrittenChildren := parent.rewrittenChildren ++ [(name, rewritten)] } :: below)
    | .cycle => .cycle child
    | .failed error => .failed error

/-- One round of the loop of `compact_tree`. -/
def step (c : Compactor σ) (stack : List CompactionFrame) : Outcome σ :=
  match stack with
  | [] => .panicked
  | parent :: below =>
    match parent.pendingChildren with
    | [] => emitFrame copying omissions c parent below
    | (name, child) :: pendingChildren =>
      takeChild copying omissions c parent below name child pendingChildren

/-- The loop for a number of rounds. -/
def rounds : Nat → Compactor σ → List CompactionFrame → Outcome σ
  | 0, c, stack => .more c stack
  | n + 1, c, stack =>
    match step copying omissions c stack with
    | .more c stack => rounds n c stack
    | outcome => outcome

/-- A copy before it starts. -/
def Compactor.new (writer : σ) : Compactor σ := ⟨writer, fun _ => [], [], ∅, 0⟩

/-- Rewrites a record and everything it reaches, in at most `n` rounds of the loop. -/
def compactTree (n : Nat) (c : Compactor σ) (sourceRoot : RecordIdentifier) : Outcome σ :=
  match enter copying omissions c sourceRoot false with
  | .fresh root => rounds copying omissions n (c.onPath sourceRoot) [root]
  | .memoized rewritten => .returned rewritten c
  | .cycle => .cycle sourceRoot
  | .failed error => .failed error

/-- How many records the memos hold. -/
def Compactor.memoizedCount (c : Compactor σ) : Nat :=
  c.rewrittenNodes.length + ((c.scopedRewrites false).length + (c.scopedRewrites true).length)

/-- Deep-copies a super-root.  At the end it asserts that the number of copies is the number of
memoized records. -/
def deepCopySuperRootOmittingSubtrees (n : Nat) (writer : σ) (superRoot : RecordIdentifier) :
    Outcome σ :=
  match compactTree copying omissions n (Compactor.new writer) superRoot with
  | .returned root c =>
    if c.compactedNodes = c.memoizedCount then .returned root c else .panicked
  | outcome => outcome

/-- What a copy that has ended hands to its caller: the rewritten root and the number of copies,
or the error. -/
def Outcome.result : Outcome σ → Option (Result (RecordIdentifier × Nat))
  | .more _ _ => none
  | .returned rewritten c => some (.ok (rewritten, c.compactedNodes))
  | .cycle record => some (.error (cycleError record))
  | .failed error => some (.error error)
  | .panicked => none

/-- The record and scope the next round emits, if it emits one. -/
def emission : List CompactionFrame → Option (RecordIdentifier × Bool)
  | [] => none
  | frame :: _ =>
    if frame.pendingChildren = [] then some (frame.source, frame.withinCheckpoints) else none

/-- The records and scopes that `n` rounds emit, in order. -/
def emissions : Nat → Compactor σ → List CompactionFrame → List (RecordIdentifier × Bool)
  | 0, _, _ => []
  | n + 1, c, stack =>
    (emission stack).toList ++
      match step copying omissions c stack with
      | .more c stack => emissions n c stack
      | _ => []

/-- The records and scopes that a copy emits. -/
def copyEmissions (n : Nat) (writer : σ) (superRoot : RecordIdentifier) :
    List (RecordIdentifier × Bool) :=
  match enter copying omissions (Compactor.new writer) superRoot false with
  | .fresh root => emissions copying omissions n ((Compactor.new writer).onPath superRoot) [root]
  | _ => []

end Copy

end Froe.Compaction
