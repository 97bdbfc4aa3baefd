import Froe.Content.Traversal

/-!
# The order of a traversal

What is left of a traversal can be read off its stack (`Remaining`): every node on it is the
root of an unfolding below the nodes that its markers will take off the path.  A call moves
the first visit from what remains to what has been yielded.
-/

namespace Froe.DepthFirst

open Unfolding

variable {provider : SegmentProvider} {limits : Option SchedulingLimits} {t : Traversal}

/-- The preorder of the unfolding of a node graph, down to a limit. -/
abbrev DocumentOrder (provider : SegmentProvider) (descentLimit : Option Nat) :
    List RecordIdentifier → Bytes → Nat → List (String × RecordIdentifier) →
      List (Visit RecordIdentifier Bytes) → Option (Halt RecordIdentifier Error) → Prop :=
  Preorder (fun node => NodeState.childNodeEntries ⟨provider, node⟩) extendPath
    (descends descentLimit)

/-! ## The pending nodes -/

def WorkItem.isVisit : WorkItem → Bool
  | .visit .. => true
  | .complete .. => false

/-- The nodes that are scheduled and not yet visited. -/
def Traversal.scheduled (t : Traversal) : Nat := t.stack.countP WorkItem.isVisit

/-- The counter is the number of the scheduled nodes. -/
def Counted (t : Traversal) : Prop := t.pendingNodes = t.scheduled

theorem countP_visits (entries : List (String × RecordIdentifier)) (depth : Nat) :
    (entries.map fun child => WorkItem.visit child.2 child.1 depth).countP WorkItem.isVisit =
      entries.length := by
  induction entries with
  | nil => rfl
  | cons entry entries ih =>
    rw [List.map_cons, List.countP_cons_of_pos rfl, ih]
    rfl

variable {node : RecordIdentifier}

theorem scheduleBelow_counted {depth : Nat} (h : Counted t) :
    Counted (scheduleBelow provider limits t node depth).2 := by
  unfold scheduleBelow
  dsimp only
  split
  · split
    · exact h
    · split
      · exact h
      · refine (congrArg (· + _) h).trans ?_
        refine ((List.countP_append ..).trans ?_).symm
        rw [countP_visits, Nat.add_comm]
        rfl
  · exact h

theorem visitNode_counted {name : String} {depth : Nat} (h : t.pendingNodes = t.scheduled + 1) :
    Counted (visitNode provider limits t node name depth).2 := by
  have hless : t.pendingNodes - 1 = t.scheduled := by rw [h, Nat.add_sub_cancel]
  unfold visitNode
  dsimp only
  split
  · exact hless
  · split
    · exact hless
    · exact scheduleBelow_counted hless

theorem advance_counted {stack : List WorkItem}
    (h : t.pendingNodes = stack.countP WorkItem.isVisit) :
    Counted (advance provider limits stack t).2 := by
  induction stack generalizing t with
  | nil => exact h
  | cons item rest ih =>
    cases item with
    | complete record pathLength => exact ih h
    | visit node name depth =>
      refine visitNode_counted (t := { t with stack := rest }) ?_
      rw [Traversal.scheduled, h, List.countP_cons_of_pos rfl]

/-- Whatever the limits of the calls are, and also when a call fails, the counter is the number of
the scheduled nodes. -/
theorem counted_calls (calls : List (Option SchedulingLimits)) (h : Counted t) :
    Counted (calls.foldl (fun t limits => (nextNodeInternal provider limits t).2) t) := by
  induction calls generalizing t with
  | nil => exact h
  | cons limits calls ih => exact ih (advance_counted h)

/-! ## What remains -/

/-- What a stack still yields, and where it halts, from a path and its nodes. -/
inductive Remaining (provider : SegmentProvider) (descentLimit : Option Nat) :
    List WorkItem → List RecordIdentifier → Bytes →
      List (Visit RecordIdentifier Bytes) → Option (Halt RecordIdentifier Error) → Prop
  | nil {buffer} : Remaining provider descentLimit [] [] buffer [] none
  | complete {record pathLength rest ancestors buffer visits halt} (hfresh : record ∉ ancestors)
      (hrest : Remaining provider descentLimit rest ancestors (restorePath buffer pathLength)
        visits halt) :
      Remaining provider descentLimit (.complete record pathLength :: rest) (record :: ancestors)
        buffer visits halt
  | halted {node name depth rest ancestors buffer visits halt}
      (hnode : DocumentOrder provider descentLimit ancestors buffer depth [(name, node)] visits
        (some halt)) :
      Remaining provider descentLimit (.visit node name depth :: rest) ancestors buffer visits
        (some halt)
  | visit {node name depth rest ancestors buffer own visits halt}
      (hnode : DocumentOrder provider descentLimit ancestors buffer depth [(name, node)] own none)
      (hrest : Remaining provider descentLimit rest ancestors buffer visits halt) :
      Remaining provider descentLimit (.visit node name depth :: rest) ancestors buffer
        (own ++ visits) halt

section

variable {descentLimit : Option Nat} {ancestors : List RecordIdentifier} {buffer : Bytes}
  {visits : List (Visit RecordIdentifier Bytes)} {halt : Option (Halt RecordIdentifier Error)}

variable {entries : List (String × RecordIdentifier)} {depth : Nat}
  {below : List (Visit RecordIdentifier Bytes)} {node : RecordIdentifier}

/-- Children on top of a stack are yielded first. -/
theorem Remaining.schedule {rest : List WorkItem}
    (hentries : DocumentOrder provider descentLimit ancestors buffer depth entries below none)
    (hrest : Remaining provider descentLimit rest ancestors buffer visits halt) :
    Remaining provider descentLimit
      ((entries.map fun child => .visit child.2 child.1 depth) ++ rest) ancestors buffer
      (below ++ visits) halt := by
  induction entries generalizing below with
  | nil =>
    cases hentries
    exact hrest
  | cons entry entries ih =>
    rcases hentries.split with ⟨halt', hhalt, -⟩ | ⟨first, others, rfl, hfirst, hothers⟩
    · cases hhalt
    · rw [List.append_assoc]
      exact .visit hfirst (ih hothers)

/-- Children among which the unfolding halts end what remains. -/
theorem Remaining.scheduleHalted {halt : Halt RecordIdentifier Error} (rest : List WorkItem)
    (hentries : DocumentOrder provider descentLimit ancestors buffer depth entries below
      (some halt)) :
    Remaining provider descentLimit
      ((entries.map fun child => .visit child.2 child.1 depth) ++ rest) ancestors buffer below
      (some halt) := by
  induction entries generalizing below with
  | nil => cases hentries
  | cons entry entries ih =>
    rcases hentries.split with ⟨halt', -, hone⟩ | ⟨first, others, rfl, hfirst, hothers⟩
    · exact .halted hone
    · exact .visit hfirst (ih hothers)

/-! ## One call -/

theorem restorePath_extendPath (buffer : Bytes) (name : String) :
    restorePath (extendPath buffer name) (if name = "" then none else some buffer.length) =
      buffer := by
  by_cases hname : name = ""
  · rw [if_pos hname, extendPath, if_pos hname]
    rfl
  · rw [if_neg hname, extendPath, if_neg hname]
    exact List.take_left

def entered (t : Traversal) (node : RecordIdentifier) (name : String) : Traversal :=
  { t with
    pendingNodes := t.pendingNodes - 1
    nodesOnPath := insert node t.nodesOnPath
    visitedNodes := t.visitedNodes + 1 }.enter node name

variable (name : String)

theorem visitNode_cycle (depth : Nat) (hmem : node ∈ t.nodesOnPath) :
    (visitNode provider limits t node name depth).1 = .error (cycleError node) := by
  rw [visitNode]
  dsimp only
  rw [if_pos hmem]

theorem visitNode_limit (depth : Nat)
    (hfresh : node ∉ t.nodesOnPath) (hlimit : ¬ t.visitedNodes < maximumTraversalNodes) :
    (visitNode provider limits t node name depth).1 = .error limitError := by
  rw [visitNode]
  dsimp only
  rw [if_neg hfresh, if_pos (Nat.lt_succ_of_le (Nat.le_of_not_lt hlimit))]

theorem visitNode_entered (depth : Nat)
    (hfresh : node ∉ t.nodesOnPath) (hlimit : t.visitedNodes < maximumTraversalNodes) :
    visitNode provider limits t node name depth =
      scheduleBelow provider limits (entered t node name) node depth := by
  rw [visitNode]
  dsimp only
  rw [if_neg hfresh, if_neg (Nat.not_lt_of_le hlimit)]
  rfl

theorem scheduleBelow_leaf (node : RecordIdentifier)
    (hdescends : descends t.descentLimit depth = false) :
    scheduleBelow provider limits t node depth =
      (.ok ⟨⟨shownPath t.pathBuffer, node, depth⟩, 0, 0, 0⟩, t) := by
  rw [scheduleBelow, hdescends]
  rfl

theorem scheduleBelow_unread {node : RecordIdentifier} {depth : Nat} {error : TraversalError}
    (hdescends : descends t.descentLimit depth = true)
    (hchildren : scheduleChildren ⟨provider, node⟩ limits = .error error) :
    scheduleBelow provider limits t node depth = (.error error, t) := by
  rw [scheduleBelow, hdescends, hchildren]
  rfl

theorem scheduleBelow_inner {node : RecordIdentifier} {depth : Nat} {scheduled : Scheduled}
    (hdescends : descends t.descentLimit depth = true)
    (hchildren : scheduleChildren ⟨provider, node⟩ limits = .ok scheduled)
    (hpending : ∀ given, limits = some given →
      t.pendingNodes + scheduled.entries.length ≤ given.pendingNodes) :
    scheduleBelow provider limits t node depth =
      (.ok ⟨⟨shownPath t.pathBuffer, node, depth⟩, scheduled.children, scheduled.nameBytes,
          scheduled.mapRecords⟩,
        { t with
          pendingNodes := t.pendingNodes + scheduled.entries.length
          stack := (scheduled.entries.map fun child => .visit child.2 child.1 (depth + 1)) ++
            t.stack }) := by
  have hfilter : limits.filter (fun given =>
      t.pendingNodes + scheduled.entries.length > given.pendingNodes) = none := by
    rw [Option.filter_eq_none_iff]
    intro given hgiven hexceeds
    exact Nat.not_lt_of_le (hpending given hgiven) (of_decide_eq_true hexceeds)
  rw [scheduleBelow, hdescends, hchildren]
  dsimp only
  rw [if_pos rfl, hfilter]

/-- What the next call returns. -/
def expected (visited : Nat) : List (Visit RecordIdentifier Bytes) →
    Option (Halt RecordIdentifier Error) → Except TraversalError (Option VisitedNode)
  | visit :: _, _ =>
    if visited < maximumTraversalNodes then
      .ok (some ⟨shownPath visit.path, visit.node, visit.depth⟩)
    else .error limitError
  | [], none => .ok none
  | [], some (.cycle node) => .error (cycleError node)
  | [], some (.unread error) =>
    if visited < maximumTraversalNodes then .error (.store error) else .error limitError

/-- A traversal after some visits, before others. -/
structure Continues (provider : SegmentProvider) (descentLimit : Option Nat) (t : Traversal)
    (visits : List (Visit RecordIdentifier Bytes)) (halt : Option (Halt RecordIdentifier Error))
    (visited : Nat) : Prop where
  limit : t.descentLimit = descentLimit
  visited : t.visitedNodes = visited
  remaining : ∃ ancestors, Remaining provider descentLimit t.stack ancestors t.pathBuffer visits
    halt ∧ t.nodesOnPath = ancestors.toFinset

/-- A node that was entered is taken off the path again before what remains. -/
theorem Remaining.entered (hfresh : node ∉ ancestors)
    (hrest : Remaining provider descentLimit t.stack ancestors t.pathBuffer visits halt) :
    Remaining provider descentLimit (DepthFirst.entered t node name).stack (node :: ancestors)
      (extendPath t.pathBuffer name) visits halt := by
  refine .complete hfresh ?_
  rw [restorePath_extendPath]
  exact hrest

/-- A call yields a visit, or fails at the limit, and goes on with the rest. -/
def Yields (provider : SegmentProvider)
    (outcome : Except TraversalError (Option BoundedVisitedNode) × Traversal)
    (t : Traversal) (visits : List (Visit RecordIdentifier Bytes))
    (halt : Option (Halt RecordIdentifier Error)) : Prop :=
  outcome.1.map (Option.map BoundedVisitedNode.visited) = expected t.visitedNodes visits halt ∧
    ∀ visit rest, visits = visit :: rest → t.visitedNodes < maximumTraversalNodes →
      Continues provider t.descentLimit outcome.2 rest halt (t.visitedNodes + 1)

/-- A node whose children are scheduled is yielded, unless the limit has been reached. -/
theorem yields_visitNode {name : String}
    {scheduled : BoundedVisitedNode} {after : Traversal} (hfresh : node ∉ t.nodesOnPath)
    (hvisited : scheduled.visited = ⟨shownPath (extendPath t.pathBuffer name), node, depth⟩)
    (hschedule : scheduleBelow provider none (DepthFirst.entered t node name) node depth =
      (.ok scheduled, after))
    (hafter : Continues provider t.descentLimit after visits halt (t.visitedNodes + 1)) :
    Yields provider ((visitNode provider none t node name depth).1.map some,
        (visitNode provider none t node name depth).2) t
      (⟨extendPath t.pathBuffer name, node, depth⟩ :: visits) halt := by
  by_cases hlimit : t.visitedNodes < maximumTraversalNodes
  · rw [visitNode_entered name depth hfresh hlimit, hschedule]
    refine ⟨?_, ?_⟩
    · rw [expected, if_pos hlimit, ← hvisited]
      rfl
    · rintro _ _ ⟨⟩ -
      exact hafter
  · refine ⟨?_, fun _ _ _ hless => absurd hless hlimit⟩
    dsimp only
    rw [visitNode_limit name depth hfresh hlimit, expected, if_neg hlimit]
    rfl

/-- A node in front of what remains is visited as its unfolding says. -/
theorem Remaining.visitNode {name : String}
    (h : Remaining provider t.descentLimit (.visit node name depth :: t.stack) ancestors
      t.pathBuffer visits halt)
    (hpath : t.nodesOnPath = ancestors.toFinset) :
    Yields provider ((DepthFirst.visitNode provider none t node name depth).1.map some,
      (DepthFirst.visitNode provider none t node name depth).2) t visits halt := by
  have hnotOn : node ∉ ancestors → node ∉ t.nodesOnPath := by
    rw [hpath]
    exact fun hfresh hmem => hfresh (List.mem_toFinset.mp hmem)
  have hontoPath : (DepthFirst.entered t node name).nodesOnPath = (node :: ancestors).toFinset := by
    rw [List.toFinset_cons, ← hpath]
    rfl
  cases h with
  | halted hnode =>
    cases hnode with
    | cycle hmem =>
      refine ⟨?_, nofun⟩
      dsimp only
      rw [visitNode_cycle name depth (by rw [hpath]; exact List.mem_toFinset.mpr hmem)]
      rfl
    | unread hfresh hdescends hchildren =>
      refine ⟨?_, nofun⟩
      dsimp only
      by_cases hlimit : t.visitedNodes < maximumTraversalNodes
      · have hschedule := @scheduleBelow_unread provider none (DepthFirst.entered t node name) node
          depth _ hdescends (by rw [scheduleChildren, hchildren]; rfl)
        rw [visitNode_entered name depth (hnotOn hfresh) hlimit, hschedule, expected, if_pos hlimit]
        rfl
      · rw [visitNode_limit name depth (hnotOn hfresh) hlimit, expected, if_neg hlimit]
        rfl
    | leaf _ _ hrest => cases hrest
    | halted hfresh hdescends hchildren hbelow =>
      have hschedule := @scheduleBelow_inner provider none (DepthFirst.entered t node name) node
        depth _ hdescends (by rw [scheduleChildren, hchildren]; rfl) nofun
      refine yields_visitNode (hnotOn hfresh) rfl hschedule ⟨rfl, rfl, node :: ancestors, ?_, hontoPath⟩
      exact Remaining.scheduleHalted _ hbelow
    | inner _ _ _ _ hrest => cases hrest
  | visit hnode hrest =>
    cases hnode with
    | leaf hfresh hdescends hnone =>
      cases hnone
      refine yields_visitNode (hnotOn hfresh) rfl (scheduleBelow_leaf node hdescends) ?_
      exact ⟨rfl, rfl, node :: ancestors, hrest.entered name hfresh, hontoPath⟩
    | inner hfresh hdescends hchildren hbelow hnone =>
      cases hnone
      have hschedule := @scheduleBelow_inner provider none (DepthFirst.entered t node name) node
        depth _ hdescends (by rw [scheduleChildren, hchildren]; rfl) nofun
      rw [List.append_nil]
      refine yields_visitNode (hnotOn hfresh) rfl hschedule ⟨rfl, rfl, node :: ancestors, ?_, hontoPath⟩
      exact Remaining.schedule hbelow (hrest.entered name hfresh)

/-- Markers on top of the stack are passed before the next visit. -/
theorem Remaining.advance {stack : List WorkItem}
    (h : Remaining provider t.descentLimit stack ancestors t.pathBuffer visits halt)
    (hpath : t.nodesOnPath = ancestors.toFinset) :
    Yields provider (DepthFirst.advance provider none stack t) t visits halt := by
  induction stack generalizing t ancestors with
  | nil =>
    cases h
    exact ⟨rfl, nofun⟩
  | cons item rest ih =>
    cases item with
    | complete record pathLength =>
      cases h with
      | complete hfresh hrest =>
        refine ih (t := { t with
          nodesOnPath := t.nodesOnPath.erase record
          pathBuffer := restorePath t.pathBuffer pathLength }) hrest ?_
        dsimp only
        rw [hpath, List.toFinset_cons,
          Finset.erase_insert (fun hmem => hfresh (List.mem_toFinset.mp hmem))]
    | visit node name depth => exact Remaining.visitNode (t := { t with stack := rest }) h hpath

/-! ## Repeated calls -/

section

variable {visited : Nat} (h : Continues provider descentLimit t visits halt visited) {n : Nat}
  (hn : n ≤ visits.length) (hlimit : visited + n ≤ maximumTraversalNodes)
include h hn hlimit

/-- The calls yield what remains, one visit each. -/
theorem Continues.called :
    Continues provider descentLimit (DepthFirst.called provider t n) (visits.drop n) halt
      (visited + n) := by
  induction n generalizing t visits visited with
  | zero => exact h
  | succ n ih =>
    obtain ⟨hdescent, hvisited, ancestors, hremaining, hpath⟩ := h
    cases visits with
    | nil => cases hn
    | cons visit rest =>
      have hyields := Remaining.advance (hdescent ▸ hremaining) hpath
      have hnext := hyields.2 visit rest rfl (by omega)
      rw [hdescent, hvisited] at hnext
      have hcalled := ih hnext (Nat.le_of_succ_le_succ hn) (by omega)
      rw [Nat.add_right_comm] at hcalled
      exact hcalled

/-- The result of every call up to the halt or the limit. -/
theorem Continues.nextNode :
    (DepthFirst.nextNode provider (DepthFirst.called provider t n)).1 =
      expected (visited + n) (visits.drop n) halt := by
  obtain ⟨hdescent, hvisited, ancestors, hremaining, hpath⟩ := h.called hn hlimit
  have hyields := Remaining.advance (hdescent ▸ hremaining) hpath
  rw [← hvisited]
  exact hyields.1

end

end

end Froe.DepthFirst
