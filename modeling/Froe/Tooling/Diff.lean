import Froe.Content.BinaryEqual
import Froe.Content.Node

/-!
# Differences of two node trees

Two nodes are compared by their records first: an identical record is an identical
subtree.  Otherwise their properties are compared by content, and their children by name.
The walk keeps its own stack, and the pairs of records on the current path, so that a pair
below itself is refused.

The bits of a floating-point number are a parameter.
-/

namespace Froe

/-- The total of node pairs that one walk may visit. -/
def maximumDiffVisits : Nat := 1000000000

section

variable (f : FloatingPoint)

inductive PropertyChange where
  | added (property : PropertyState f)
  | removed (property : PropertyState f)
  | changed (before after : PropertyState f)

/-- A difference of two trees. -/
inductive NodeDifference where
  | nodeAdded (path : String)
  | nodeRemoved (path : String)
  | propertyChanged (path : String) (change : PropertyChange f)

/-- One unit of work: a pair to compare, or a pair that is finished. -/
inductive DiffWork where
  | visit (before after : Option NodeState) (path : String)
  | leave (pair : RecordIdentifier × RecordIdentifier)

end

/-- The rendered form of a path.  The root is a slash. -/
def displayDiffPath (path : String) : String := if path = "" then "/" else path

section

variable {f : FloatingPoint} (toBits : f.Double → UInt64) (provider : SegmentProvider)

/-! ## Values -/

/-- The bits by which doubles are compared.  There is one that is not a number. -/
def doubleBitsForEquality (value : f.Double) : UInt64 :=
  if f.isNan value then 0x7FF8000000000000 else toBits value

/-- Whether two values are equal by content. -/
def propertyValueEqual (before after : PropertyValue f) : Result Bool :=
  match before, after with
  | .binary (.inline beforeLength beforeRecord), .binary (.inline afterLength afterRecord) =>
    if beforeLength ≠ afterLength then .ok false
    else inlineBinaryContentsEqual provider beforeRecord afterRecord beforeLength
  | .double before, .double after =>
    .ok (doubleBitsForEquality toBits before = doubleBitsForEquality toBits after)
  | .string before, .string after => .ok (before = after)
  | .binary before, .binary after => .ok (before = after)
  | .long before, .long after => .ok (before = after)
  | .date before, .date after => .ok (before = after)
  | .boolean before, .boolean after => .ok (before = after)
  | .name before, .name after => .ok (before = after)
  | .path before, .path after => .ok (before = after)
  | .reference before, .reference after => .ok (before = after)
  | .weakReference before, .weakReference after => .ok (before = after)
  | .uri before, .uri after => .ok (before = after)
  | .decimal before, .decimal after => .ok (before = after)
  | _, _ => .ok false

/-- Compares values up to the first that differs. -/
def propertyValueListsEqual : List (PropertyValue f) → List (PropertyValue f) → Result Bool
  | before :: befores, after :: afters => do
    if ← propertyValueEqual toBits provider before after then
      propertyValueListsEqual befores afters
    else return false
  | _, _ => .ok true

def propertyValuesEqual (before after : PropertyValues f) : Result Bool :=
  match before, after with
  | .single before, .single after => propertyValueEqual toBits provider before after
  | .multiple befores, .multiple afters =>
    if befores.length ≠ afters.length then .ok false
    else propertyValueListsEqual toBits provider befores afters
  | _, _ => .ok false

/-! ## Properties -/

/-- What has become of the property of a name. -/
def propertyChange (before : Option (PropertyState f)) (after : PropertyState f) :
    Result (Option (PropertyChange f)) :=
  match before with
  | none => .ok (some (.added after))
  | some before => do
    if before.propertyType ≠ after.propertyType then return some (.changed before after)
    else if ← propertyValuesEqual toBits provider before.values after.values then return none
    else return some (.changed before after)

/-- The changes of the properties of a node: those of the newer node in order, and then what only
the older one has. -/
def diffProperties (before after : NodeState) : Result (List (PropertyChange f)) := do
  let beforeProperties ← before.properties f
  let afterProperties ← after.properties f
  let changes ← afterProperties.mapM fun after =>
    propertyChange toBits provider
      (beforeProperties.find? fun before => before.name == after.name) after
  let removed := beforeProperties.filter fun before =>
    !afterProperties.any fun after => after.name == before.name
  return changes.reduceOption ++ removed.map .removed

/-! ## Nodes -/

/-- The path of a child, without escapes. -/
def diffChildPath (path name : String) : String := path ++ "/" ++ name

/-- The child pairs of two nodes: every child of the newer node, and then those that only the
older one has. -/
def childPairsToVisit (before after : NodeState) (path : String) : Result (List DiffWork) := do
  let beforeChildren ← before.childNodeEntries
  let afterChildren ← after.childNodeEntries
  -- a map from names, in which the last of equal names stands
  let beforeByName (name : String) : Option RecordIdentifier :=
    (beforeChildren.reverse.find? fun child => child.1 == name).map Prod.snd
  let pairs := afterChildren.map fun child =>
    DiffWork.visit ((beforeByName child.1).map fun record => ⟨before.provider, record⟩)
      (some ⟨after.provider, child.2⟩) (diffChildPath path child.1)
  let removed := (beforeChildren.filter fun child => child.1 ∉ afterChildren.map Prod.fst).map
    fun child => DiffWork.visit (some ⟨before.provider, child.2⟩) none (diffChildPath path child.1)
  return pairs ++ removed

/-- What a matched pair emits, and the work behind it. -/
def visitPair (before after : NodeState) (path : String) :
    Result (List (NodeDifference f) × List DiffWork) := do
  let changes ← diffProperties toBits provider before after
  let pairs ← childPairsToVisit before after path
  return (changes.map (.propertyChanged (displayDiffPath path)), pairs)

def visitsError : Error :=
  .invalidFormat s!"diff exceeds {maximumDiffVisits} visited nodes; the records probably form a pathological graph"

def cycleError (before after : RecordIdentifier) : Error :=
  .invalidFormat s!"node records {before.display} and {after.display} are contained in their own subtree; the records form a cycle"

/-- Works off a stack, with the pairs on the current path, the number of visits and what has been
emitted. -/
def SegmentProvider.diffWork (provider : SegmentProvider) (stack : List DiffWork)
    (ancestors : Finset (RecordIdentifier × RecordIdentifier)) (visits : Nat)
    (emitted : List (NodeDifference f)) :
    Option (Except Error (List (NodeDifference f) × Nat)) :=
  match stack with
  | [] => some (.ok (emitted, visits))
  | .leave pair :: stack => provider |>.diffWork stack (ancestors.erase pair) visits emitted
  | .visit before after path :: stack =>
    let visits := visits + 1
    if visits > maximumDiffVisits then some (.error visitsError)
    else
      match before, after with
      | none, none => provider |>.diffWork stack ancestors visits emitted
      | none, some _ =>
        provider |>.diffWork stack ancestors visits (emitted ++ [.nodeAdded (displayDiffPath path)])
      | some _, none =>
        provider |>.diffWork stack ancestors visits (emitted ++ [.nodeRemoved (displayDiffPath path)])
      | some before, some after =>
        if before.recordIdentifier = after.recordIdentifier then
          provider |>.diffWork stack ancestors visits emitted
        else
          let pair := (before.recordIdentifier, after.recordIdentifier)
          if pair ∈ ancestors then some (.error (cycleError pair.1 pair.2))
          else
            match visitPair toBits provider before after path with
            | .error error => some (.error error)
            | .ok (differences, pairs) =>
              provider |>.diffWork (pairs ++ .leave pair :: stack) (insert pair ancestors) visits
                (emitted ++ differences)
partial_fixpoint

/-- The differences of two nodes, with the number of visits so far. -/
def diffNodes (before after : Option NodeState) (path : String) (visits : Nat) :
    Option (Except Error (List (NodeDifference f) × Nat)) :=
  SegmentProvider.diffWork toBits provider [.visit before after path] ∅ visits []

end

end Froe
