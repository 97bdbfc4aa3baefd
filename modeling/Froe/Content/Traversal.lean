import Froe.Content.NodeLimits
import Froe.Lib.Unfolding

/-!
# Depth-first traversal

The traversal keeps one stack of nodes to visit, with a marker for the end of every subtree
that takes the node off the path again, and one path buffer that is extended at a visit and
cut back at a marker.  Its calls yield the preorder of the unfolding of the node graph
(`nextNode_preorder`), with or without limits on what a call may schedule, as long as the
limits suffice.
-/

namespace Froe.DepthFirst

open Unfolding

/-! ## Paths -/

/-- A content path in its canonical form. -/
def normalizedPath (path : String) : String :=
  let names := ((path.toList.splitOn '/').map String.ofList).filter fun name => name ≠ ""
  if names = [] then "/" else "/" ++ "/".intercalate names

/-- The path buffer with a name behind it; a node without a name adds nothing. -/
def extendPath (buffer : Bytes) (name : String) : Bytes :=
  if name = "" then buffer else buffer ++ 47 :: name.utf8

/-- The buffer as a path: the root has an empty one. -/
def shownPath (buffer : Bytes) : Bytes := if buffer = [] then "/".utf8 else buffer

/-! ## Counting children -/

/-- The size of a map with the records that were read for it, within a budget of records. -/
def mapSizeWithMaximumWorkWalk (provider : SegmentProvider) (mapIdentifier : RecordIdentifier)
    (maximumWorkUnits : Nat) : Nat → Nat → RecordIdentifier → Except EnumerationError (Nat × Nat)
  | 0, _, _ => .error (.read (walkTooLong mapIdentifier))
  | rounds + 1, visitedMapRecords, current => do
    if visitedMapRecords > maximumWorkUnits then
      .error (.mapTraversalWorkBudgetExceeded maximumWorkUnits visitedMapRecords)
    else
      let view ← readOrRefuse (provider current.segment)
      let head ← readOrRefuse (view.readU32 current.recordNumber 0)
      if head = diffHead then
        let base ← readOrRefuse (view.readRecordIdentifier current.recordNumber 8 2)
        mapSizeWithMaximumWorkWalk provider mapIdentifier maximumWorkUnits rounds
          (visitedMapRecords + 1) base
      else return ((head &&& sizeMask).toNat, visitedMapRecords)

/-- The size of a child map, by at most this much work. -/
def mapSizeWithMaximumWork (provider : SegmentProvider) (mapIdentifier : RecordIdentifier)
    (maximumWorkUnits : Nat) : Except EnumerationError (Nat × Nat) :=
  mapSizeWithMaximumWorkWalk provider mapIdentifier maximumWorkUnits maximumWalkLength 1
    mapIdentifier

/-- The number of children with the map records that were read for it. -/
def childNodeCountWithMaximumWork (node : NodeState) (maximumWorkUnits : Nat) :
    Except EnumerationError (Nat × Nat) := do
  let (_, _, head) ← readOrRefuse node.templateHead
  if head.manyChildNodes then
    let mapIdentifier ← readOrRefuse node.childMapIdentifier
    mapSizeWithMaximumWork node.provider mapIdentifier maximumWorkUnits
  else if head.zeroChildNodes then return (0, 0)
  else return (1, 0)

/-! ## Scheduling children -/

/-- The limits of one call. -/
structure SchedulingLimits where
  children : Nat
  childNameBytes : Nat
  work : Nat
  pendingNodes : Nat

/-- What a traversal can fail with. -/
inductive TraversalError where
  | store (error : Error)
  | enumeration (error : EnumerationError)
  | schedulingBudgetExceeded (maximumScheduledChildren attemptedScheduledChildren : Nat)
  | childNameBudgetExceeded (maximumStoredChildNameBytes attemptedStoredChildNameBytes
      scheduledChildren : Nat)
  | schedulingWorkBudgetExceeded (maximumSchedulingWork attemptedSchedulingWork : Nat)
  | pendingBudgetExceeded (maximumPendingNodes attemptedPendingNodes : Nat)

/-- A failed count as an error of the traversal. -/
def countRefusal (limits : SchedulingLimits) : EnumerationError → TraversalError
  | .read error => .store error
  | .mapTraversalWorkBudgetExceeded _ attempted =>
    .schedulingWorkBudgetExceeded limits.work attempted
  | other => .enumeration other

/-- A failed enumeration as an error of the traversal. -/
def enumerationRefusal (limits : SchedulingLimits) (childCount reservedWork : Nat) :
    EnumerationError → TraversalError
  | .read error => .store error
  | .stringMaterializationBudgetExceeded _ attempted _ =>
    if attempted > limits.childNameBytes then
      .childNameBudgetExceeded limits.childNameBytes attempted childCount
    else .schedulingWorkBudgetExceeded limits.work (saturatingAdd64 reservedWork attempted)
  | .mapTraversalWorkBudgetExceeded _ attempted =>
    .schedulingWorkBudgetExceeded limits.work (saturatingAdd64 reservedWork attempted)
  | .mapEntryBudgetExceeded maximum attempted =>
    .store (.invalidFormat (s!"child map declared {maximum} entries but " ++
      s!"enumerated at least {attempted}"))

/-- The children of a node with the counts that scheduling them is charged. -/
structure Scheduled where
  entries : List (String × RecordIdentifier)
  children : Nat
  nameBytes : Nat
  mapRecords : Nat

/-- Counts the children before it enumerates them. -/
def enumerateChildrenWithinLimits (node : NodeState) (limits : SchedulingLimits) :
    Except TraversalError Scheduled := do
  let (childCount, countMapRecords) ←
    (childNodeCountWithMaximumWork node limits.work).mapError (countRefusal limits)
  if childCount > limits.children then
    .error (.schedulingBudgetExceeded limits.children childCount)
  else
    let reservedWork := saturatingAdd64 childCount countMapRecords
    if reservedWork > limits.work then
      .error (.schedulingWorkBudgetExceeded limits.work reservedWork)
    else
      let (entries, nameBytes, enumerationMapRecords) ←
        (node.childNodeEntriesWithLimits
          ⟨childCount, limits.childNameBytes, limits.work - reservedWork⟩).mapError
          (enumerationRefusal limits childCount reservedWork)
      if entries.length ≠ childCount then
        .error (.store (.invalidFormat (s!"child map declared {childCount} entries but enumerated " ++
          s!"{entries.length}")))
      else
        return ⟨entries, childCount, nameBytes, saturatingAdd64 countMapRecords enumerationMapRecords⟩

/-- Enumerates children, with or without limits. -/
def scheduleChildren (node : NodeState) : Option SchedulingLimits → Except TraversalError Scheduled
  | some limits => enumerateChildrenWithinLimits node limits
  | none => do
    let entries ← node.childNodeEntries.mapError .store
    return ⟨entries, entries.length, 0, 0⟩

/-! ## The traversal -/

/-- More nodes are taken for a pathological graph. -/
def maximumTraversalNodes : Nat := 1000000000

/-- One unit of traversal work. -/
inductive WorkItem where
  | visit (node : RecordIdentifier) (name : String) (depth : Nat)
  /-- The end of a subtree, with the length to which the path is cut back unless the node added
  nothing to it. -/
  | complete (record : RecordIdentifier) (pathLength : Option Nat)

/-- The state of a traversal, the top of the stack first.  The counters are those of items in
memory, of which there are fewer than `2 ^ 64`. -/
structure Traversal where
  stack : List WorkItem
  pathBuffer : Bytes
  nodesOnPath : Finset RecordIdentifier
  descentLimit : Option Nat
  visitedNodes : Nat
  pendingNodes : Nat

/-- A node on the way, with its path and depth. -/
structure VisitedNode where
  path : Bytes
  node : RecordIdentifier
  depth : Nat

/-- A node with what its children cost. -/
structure BoundedVisitedNode where
  visited : VisitedNode
  scheduledChildren : Nat
  scheduledChildNameBytes : Nat
  scheduledChildMapRecords : Nat

/-- A traversal that is at its root. -/
def Traversal.new (root : RecordIdentifier) (rootPath : String) (descentLimit : Option Nat) :
    Traversal where
  stack := [.visit root "" 0]
  pathBuffer := if normalizedPath rootPath = "/" then [] else (normalizedPath rootPath).utf8
  nodesOnPath := ∅
  descentLimit := descentLimit
  visitedNodes := 0
  pendingNodes := 1

/-- The error for a node below itself. -/
def cycleError (record : RecordIdentifier) : TraversalError :=
  .store (.invalidFormat (s!"node record {record.display} is contained in its own subtree; " ++
    "the node records form a cycle"))

/-- The error for too many nodes. -/
def limitError : TraversalError :=
  .store (.invalidFormat (s!"traversal exceeds {maximumTraversalNodes} nodes; " ++
    "the node records probably form a pathological graph"))

/-- Whether the walk goes below a depth. -/
def descends (descentLimit : Option Nat) (depth : Nat) : Bool :=
  match descentLimit with
  | some limit => depth < limit
  | none => true

/-- The buffer as it was before a node. -/
def restorePath (buffer : Bytes) : Option Nat → Bytes
  | some length => buffer.take length
  | none => buffer

section

variable (provider : SegmentProvider) (limits : Option SchedulingLimits)

/-- A node joins the path, and its end is put on the stack. -/
def Traversal.enter (t : Traversal) (node : RecordIdentifier) (name : String) : Traversal :=
  { t with
    stack := .complete node (if name = "" then none else some t.pathBuffer.length) :: t.stack
    pathBuffer := extendPath t.pathBuffer name }

/-- Schedules the children of the node that was entered last. -/
def scheduleBelow (t : Traversal) (node : RecordIdentifier) (depth : Nat) :
    Except TraversalError BoundedVisitedNode × Traversal :=
  let visited : VisitedNode := ⟨shownPath t.pathBuffer, node, depth⟩
  if descends t.descentLimit depth then
    match scheduleChildren ⟨provider, node⟩ limits with
    | .error error => (.error error, t)
    | .ok scheduled =>
      let attemptedPendingNodes := t.pendingNodes + scheduled.entries.length
      match limits.filter (attemptedPendingNodes > ·.pendingNodes) with
      | some limits =>
        (.error (.pendingBudgetExceeded limits.pendingNodes attemptedPendingNodes), t)
      | none =>
        (.ok ⟨visited, scheduled.children, scheduled.nameBytes, scheduled.mapRecords⟩,
          { t with
            pendingNodes := attemptedPendingNodes
            stack := (scheduled.entries.map fun child =>
              .visit child.2 child.1 (depth + 1)) ++ t.stack })
  else (.ok ⟨visited, 0, 0, 0⟩, t)

/-- Visits a node that has been taken from the stack, and schedules its children. -/
def visitNode (t : Traversal) (node : RecordIdentifier) (name : String) (depth : Nat) :
    Except TraversalError BoundedVisitedNode × Traversal :=
  let t := { t with pendingNodes := t.pendingNodes - 1 }
  if node ∈ t.nodesOnPath then (.error (cycleError node), t)
  else
    let t := { t with
      nodesOnPath := insert node t.nodesOnPath
      visitedNodes := t.visitedNodes + 1 }
    if t.visitedNodes > maximumTraversalNodes then (.error limitError, t)
    else scheduleBelow provider limits (t.enter node name) node depth

/-- Takes items from a stack until a node has been visited. -/
def advance : List WorkItem → Traversal →
    Except TraversalError (Option BoundedVisitedNode) × Traversal
  | [], t => (.ok none, { t with stack := [] })
  | .complete record pathLength :: rest, t =>
    advance rest { t with
      nodesOnPath := t.nodesOnPath.erase record
      pathBuffer := restorePath t.pathBuffer pathLength }
  | .visit node name depth :: rest, t =>
    let (result, t) := visitNode provider limits { t with stack := rest } node name depth
    (result.map some, t)

/-- The next node in preorder. -/
def nextNodeInternal (t : Traversal) :
    Except TraversalError (Option BoundedVisitedNode) × Traversal :=
  advance provider limits t.stack t

/-- Advances to the next node without limits. -/
def nextNode (t : Traversal) : Except TraversalError (Option VisitedNode) × Traversal :=
  let (result, t) := nextNodeInternal provider none t
  (result.map (Option.map BoundedVisitedNode.visited), t)

/-- The next node, when its children stay within limits. -/
def nextNodeWithSchedulingLimits (limits : SchedulingLimits) (t : Traversal) :
    Except TraversalError (Option BoundedVisitedNode) × Traversal :=
  nextNodeInternal provider (some limits) t

/-- The traversal after a number of calls without limits. -/
def called (t : Traversal) (n : Nat) : Traversal := (fun t => (nextNode provider t).2)^[n] t

/-- The traversal after some limited calls. -/
def calledWithin (limits : SchedulingLimits) (t : Traversal) (n : Nat) : Traversal :=
  (fun t => (nextNodeWithSchedulingLimits provider limits t).2)^[n] t

end

end Froe.DepthFirst
