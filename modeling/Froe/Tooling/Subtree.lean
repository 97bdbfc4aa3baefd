import Froe.Content.PropertyTypes
import Froe.Lib.VerifyWalk

/-!
# The verification of node trees

A node is verified by reading its properties, the blocks of its inline binaries, its stable
identifier and its children.  A verifier keeps the records whose subtrees have passed, and
later calls start from them.  Every call succeeds exactly on an intact subtree, and what the
verifier keeps is intact, whatever calls have failed before.
-/

namespace Froe

/-! ## One node -/

/-- How thoroughly inline binaries are verified. -/
inductive BinaryCheck where
  | recordsOnly
  | everyBlock
deriving DecidableEq, Repr

/-- What is checked of a node beyond its structure. -/
structure SubtreeChecks where
  binaries : BinaryCheck
  stableIdentifiers : Bool

/-- Reads blocks from an index on. -/
def verifyBlocks (provider : SegmentProvider) (listIdentifier : RecordIdentifier)
    (blockCount : Nat) : Nat → Nat → Nat → Result Unit
  | 0, _, _ => .ok ()
  | rounds + 1, blockIndex, remaining => do
    let blockIdentifier ← uncountedListEntry provider listIdentifier blockCount blockIndex
    let blockLength := min remaining blockSize
    let view ← provider blockIdentifier.segment
    let _ ← view.readBytes blockIdentifier.recordNumber 0 blockLength
    verifyBlocks provider listIdentifier blockCount rounds (blockIndex + 1)
      (remaining - blockLength)

/-- Reads a text and drops it. -/
def verifyStringContent (provider : SegmentProvider) (identifier : RecordIdentifier) :
    Result Unit := do
  let length ← readStringStoredLength provider identifier
  let view ← provider identifier.segment
  let head ← view.readU8 identifier.recordNumber 0
  if head &&& 0x80 = 0 then
    let _ ← view.readBytes identifier.recordNumber 1 length
    return ()
  else if head &&& 0x40 = 0 then
    let _ ← view.readBytes identifier.recordNumber 2 length
    return ()
  else
    let listIdentifier ← view.readRecordIdentifier identifier.recordNumber 8 0
    let blockCount := (length + blockSize - 1) / blockSize
    verifyBlocks provider listIdentifier blockCount blockCount 0 length

/-- Reads every block of an inline binary.  Of an external one, only a long identifier is read. -/
def verifyBinaryContent (provider : SegmentProvider) (identifier : RecordIdentifier) :
    Result Unit :=
  match readBinaryStream provider identifier with
  | .ok stream => do
    let _ ← stream.readChunks provider (stream.length + 1)
    return ()
  | .error (.externalBinaryContentUnavailable _) => .ok ()
  | .error (.externalBinaryContentUnavailableByRecord _ blobIdentifierRecord) =>
    verifyStringContent provider blobIdentifierRecord
  | .error error => .error error

section

variable (f : FloatingPoint) (provider : SegmentProvider)

/-- Reads an inline binary and drops it. -/
def materializeBinary (value : PropertyValue f) : Result Unit :=
  match value with
  | .binary (.inline _ recordIdentifier) => verifyBinaryContent provider recordIdentifier
  | _ => .ok ()

/-- Checks one node without its children. -/
def checkNodeShallow (record : RecordIdentifier) (binaryCheck : BinaryCheck) :
    Result (List (PropertyState f)) := do
  let properties ← NodeState.properties f ⟨provider, record⟩
  if binaryCheck = .everyBlock then
    properties.forM fun property => property.values.toList.forM (materializeBinary f provider)
  return properties

/-- Checks one node and enumerates its children. -/
def checkNode (checks : SubtreeChecks) (record : RecordIdentifier) :
    Result (List (String × RecordIdentifier)) := do
  let _ ← checkNodeShallow f provider record checks.binaries
  if checks.stableIdentifiers then
    let _ ← NodeState.stableIdentifierBytes ⟨provider, record⟩
  NodeState.childNodeEntries ⟨provider, record⟩

/-! ## The walk over a subtree -/

/-- The nodes of a provider, with what is reported of each as text. -/
def nodeGraph (checks : SubtreeChecks) :
    VerifyWalk.Graph RecordIdentifier String String where
  check record := (checkNode f provider checks record).mapError Error.display
  cycle record := s!"node record {record.display} is contained in its own subtree"

/-- The path of names from the root of a walk. -/
def relativePath (names : List String) : String :=
  names.foldl (fun path name => path ++ "/" ++ name) ""

/-- A path below the root of a walk. -/
def displayRelative (relativePath : String) : String :=
  if relativePath = "" then "/" else relativePath

/-- Verifies a subtree, except below the pruned paths. -/
def verifySubtreePrunedWithCache (checks : SubtreeChecks)
    (memo : VerifyWalk.Memo RecordIdentifier) (root : RecordIdentifier)
    (prunedSubtreePaths : List String) :
    Option (Except (List String × String) Unit × VerifyWalk.Memo RecordIdentifier) :=
  VerifyWalk.walk (nodeGraph f provider checks)
    (fun names => decide (relativePath names ∈ prunedSubtreePaths)) memo root

end

/-- The records whose subtrees have passed, and their number. -/
structure NodeTreeVerifier where
  verifiedSubtrees : Finset RecordIdentifier
  verifiedNodes : Nat

/-- What a call of a verifier comes to. -/
inductive Verification where
  | returned (result : Result Unit)
  /-- The assertion at the end of a call fails. -/
  | asserted

namespace NodeTreeVerifier

/-- A verifier that has verified nothing. -/
def new : NodeTreeVerifier := ⟨∅, 0⟩

/-- The error for a node that fails. -/
def nodeTreeError (location : List String × String) : Error :=
  .invalidFormat s!"node tree verification failed at {displayRelative (relativePath location.1)}: {location.2}"

section

variable (f : FloatingPoint) (provider : SegmentProvider)

/-- Verifies a tree without the subtrees at some paths. -/
def verifyCollectingPruned (verifier : NodeTreeVerifier) (root : RecordIdentifier)
    (prunedSubtreePaths : List String) : Option (Verification × NodeTreeVerifier) := do
  let (verified, memo) ← verifySubtreePrunedWithCache f provider ⟨.everyBlock, true⟩
    ⟨verifier.verifiedSubtrees, verifier.verifiedNodes⟩ root prunedSubtreePaths
  let verifier : NodeTreeVerifier := ⟨memo.verified, memo.count⟩
  match verified with
  | .ok () =>
    if memo.verified.card = memo.count then return (.returned (.ok ()), verifier)
    else return (.asserted, verifier)
  | .error location => return (.returned (.error (nodeTreeError location)), verifier)

/-- Verifies a subtree and everything below. -/
def verify (verifier : NodeTreeVerifier) (root : RecordIdentifier) :
    Option (Verification × NodeTreeVerifier) :=
  verifier.verifyCollectingPruned f provider root []

/-- Calls one verifier on roots, one after the other, whether or not a call fails. -/
def verifyAll : List RecordIdentifier → NodeTreeVerifier →
    Option (List Verification × NodeTreeVerifier)
  | [], verifier => some ([], verifier)
  | root :: roots, verifier => do
    let (verification, verifier) ← verifier.verify f provider root
    let (verifications, verifier) ← verifyAll roots verifier
    return (verification :: verifications, verifier)

end

end NodeTreeVerifier

/-! ## Intact subtrees -/

section

variable (f : FloatingPoint) (provider : SegmentProvider)

/-- All that a check reads of a node can be read. -/
structure NodeReads (record : RecordIdentifier) : Prop where
  properties : ∃ properties, NodeState.properties f ⟨provider, record⟩ = .ok properties ∧
    ∀ property ∈ properties, ∀ value ∈ property.values.toList,
      materializeBinary f provider value = .ok ()
  stableIdentifier : ∃ bytes, NodeState.stableIdentifierBytes ⟨provider, record⟩ = .ok bytes
  children : ∃ children, NodeState.childNodeEntries ⟨provider, record⟩ = .ok children

/-- A node is an enumerated child of another. -/
def ChildOf (record child : RecordIdentifier) : Prop :=
  ∃ children name, NodeState.childNodeEntries ⟨provider, record⟩ = .ok children ∧
    (name, child) ∈ children

/-- Everything below a root reads, and nothing below it is below itself. -/
def Intact (root : RecordIdentifier) : Prop :=
  (∀ record, Relation.ReflTransGen (ChildOf provider) root record → NodeReads f provider record) ∧
    ∀ record, Relation.ReflTransGen (ChildOf provider) root record →
      ¬ Relation.TransGen (ChildOf provider) record record

end

section

variable {f : FloatingPoint} {provider : SegmentProvider} {root record : RecordIdentifier}

theorem forM_ok_iff {α : Type} {check : α → Result Unit} {values : List α} :
    values.forM check = .ok () ↔ ∀ value ∈ values, check value = .ok () := by
  induction values with
  | nil => exact ⟨nofun, fun _ => rfl⟩
  | cons value values ih =>
    rw [List.forall_mem_cons, ← ih]
    refine Except.bind_ok_iff.trans ?_
    exact ⟨fun ⟨_, hvalue, hvalues⟩ => ⟨hvalue, hvalues⟩, fun ⟨hvalue, hvalues⟩ => ⟨(), hvalue, hvalues⟩⟩

theorem checkNode_eq :
    checkNode f provider ⟨.everyBlock, true⟩ record = (do
      let properties ← NodeState.properties f ⟨provider, record⟩
      properties.forM fun property => property.values.toList.forM (materializeBinary f provider)
      let _ ← NodeState.stableIdentifierBytes ⟨provider, record⟩
      NodeState.childNodeEntries ⟨provider, record⟩) := by
  simp only [checkNode, checkNodeShallow, if_true, bind_assoc, pure_bind]

variable {children : List (String × RecordIdentifier)} {child : RecordIdentifier}

/-- The whole check of a node passes exactly on a node that reads. -/
theorem checkNode_ok_iff :
    checkNode f provider ⟨.everyBlock, true⟩ record = .ok children ↔
      NodeReads f provider record ∧
        NodeState.childNodeEntries ⟨provider, record⟩ = .ok children := by
  rw [checkNode_eq]
  constructor
  · intro h
    obtain ⟨properties, hproperties, h⟩ := Except.bind_ok_iff.mp h
    obtain ⟨_, hvalues, h⟩ := Except.bind_ok_iff.mp h
    obtain ⟨bytes, hstable, hchildren⟩ := Except.bind_ok_iff.mp h
    refine ⟨⟨⟨properties, hproperties, fun property hproperty value hvalue => ?_⟩, ⟨bytes, hstable⟩,
      ⟨children, hchildren⟩⟩, hchildren⟩
    exact forM_ok_iff.mp (forM_ok_iff.mp hvalues property hproperty) value hvalue
  · rintro ⟨⟨⟨properties, hproperties, hvalues⟩, ⟨bytes, hstable⟩, -⟩, hchildren⟩
    have hblocks : (properties.forM fun property =>
        property.values.toList.forM (materializeBinary f provider)) = .ok () :=
      forM_ok_iff.mpr fun property hproperty => forM_ok_iff.mpr (hvalues property hproperty)
    rw [hproperties, Except.ok_bind_eq, hblocks, Except.ok_bind_eq, hstable, Except.ok_bind_eq]
    exact hchildren

/-- The graph that a verifier walks. -/
abbrev fullGraph (f : FloatingPoint) (provider : SegmentProvider) :
    VerifyWalk.Graph RecordIdentifier String String :=
  nodeGraph f provider ⟨.everyBlock, true⟩

theorem fullGraph_check_iff :
    (fullGraph f provider).check record = .ok children ↔
      NodeReads f provider record ∧
        NodeState.childNodeEntries ⟨provider, record⟩ = .ok children := by
  rw [← checkNode_ok_iff, fullGraph, nodeGraph]
  dsimp only
  cases checkNode f provider ⟨.everyBlock, true⟩ record with
  | error error =>
    constructor
    · intro h
      cases h
    · intro h
      cases h
  | ok found =>
    rw [Except.mapError, Except.ok.injEq, Except.ok.injEq]

theorem childOf_of_child
    (h : (fullGraph f provider).Child record child) : ChildOf provider record child := by
  obtain ⟨children, name, hcheck, hmem⟩ := h
  exact ⟨children, name, (fullGraph_check_iff.mp hcheck).2, hmem⟩

theorem child_of_childOf (hreads : NodeReads f provider record)
    (h : ChildOf provider record child) : (fullGraph f provider).Child record child := by
  obtain ⟨children, name, hchildren, hmem⟩ := h
  exact ⟨children, name, fullGraph_check_iff.mpr ⟨hreads, hchildren⟩, hmem⟩

/-- A whole node of the graph is the root of an intact subtree. -/
theorem whole_iff_intact : (fullGraph f provider).Whole root ↔ Intact f provider root := by
  rw [VerifyWalk.whole_iff]
  constructor
  · rintro ⟨hpasses, hacyclic⟩
    have hreads : ∀ record, (fullGraph f provider).Reach root record →
        NodeReads f provider record := fun record hreach => by
      obtain ⟨children, hcheck⟩ := hpasses record hreach
      exact (fullGraph_check_iff.mp hcheck).1
    have hreach : ∀ start record, (fullGraph f provider).Reach root start →
        Relation.ReflTransGen (ChildOf provider) start record →
        (fullGraph f provider).Reach start record := by
      intro start record hstart h
      induction h with
      | refl => exact .refl
      | tail _ hchild ih =>
        exact ih.tail (child_of_childOf (hreads _ (hstart.trans ih)) hchild)
    refine ⟨fun record h => hreads record (hreach root record .refl h), fun record h hcycle => ?_⟩
    obtain ⟨child, hchild, hback⟩ := Relation.TransGen.head'_iff.mp hcycle
    have hrecord := hreach root record .refl h
    have hfirst := child_of_childOf (hreads record hrecord) hchild
    exact hacyclic record hrecord
      (Relation.TransGen.head' hfirst (hreach child record (hrecord.tail hfirst) hback))
  · rintro ⟨hreads, hacyclic⟩
    have hreach : ∀ record, (fullGraph f provider).Reach root record →
        Relation.ReflTransGen (ChildOf provider) root record := fun record h =>
      Relation.ReflTransGen.lift id (fun _ _ => childOf_of_child) _ _ h
    refine ⟨fun record h => ?_, fun record h hcycle => ?_⟩
    · obtain ⟨children, hchildren⟩ := (hreads record (hreach record h)).children
      exact ⟨children, fullGraph_check_iff.mpr ⟨hreads record (hreach record h), hchildren⟩⟩
    · exact hacyclic record (hreach record h) (Relation.TransGen.lift id (fun _ _ => childOf_of_child) _ _ hcycle)

end

/-! ## Every call -/

namespace NodeTreeVerifier

/-- What a verifier keeps is intact, and counted once. -/
structure Sound (f : FloatingPoint) (provider : SegmentProvider) (verifier : NodeTreeVerifier) :
    Prop where
  intact : ∀ record ∈ verifier.verifiedSubtrees, Intact f provider record
  count : verifier.verifiedNodes = verifier.verifiedSubtrees.card

section

variable {f : FloatingPoint} {provider : SegmentProvider} {verifier : NodeTreeVerifier}

theorem sound_new : new.Sound f provider := ⟨nofun, rfl⟩

/-- A call ends, keeps the verifier sound and succeeds exactly on an intact subtree. -/
theorem Sound.verify (h : verifier.Sound f provider) (root : RecordIdentifier) :
    ∃ result next, verifier.verify f provider root = some (.returned result, next) ∧
      next.Sound f provider ∧ (result = .ok () ↔ Intact f provider root) := by
  have hmemo : VerifyWalk.Memo.Sound (fullGraph f provider)
      ⟨verifier.verifiedSubtrees, verifier.verifiedNodes⟩ :=
    ⟨fun record hrecord => whole_iff_intact.mpr (h.intact record hrecord), h.count⟩
  obtain ⟨verified, memo, hwalk, hsound, -, hresult⟩ := VerifyWalk.walk_spec hmemo root
  have hnext : Sound f provider ⟨memo.verified, memo.count⟩ :=
    ⟨fun record hrecord => whole_iff_intact.mp (hsound.whole record hrecord), hsound.count⟩
  rw [whole_iff_intact] at hresult
  have hunpruned : (fun names => decide (relativePath names ∈ ([] : List String))) =
      fun _ => false := funext fun _ => decide_eq_false List.not_mem_nil
  rw [NodeTreeVerifier.verify, verifyCollectingPruned, verifySubtreePrunedWithCache, hunpruned]
  cases verified with
  | error location =>
    refine ⟨.error (nodeTreeError location), ⟨memo.verified, memo.count⟩, ?_, hnext, nofun,
      fun hintact => ?_⟩
    · rw [hwalk]
      rfl
    · cases hresult.mpr hintact
  | ok _ =>
    refine ⟨.ok (), ⟨memo.verified, memo.count⟩, ?_, hnext, fun _ => hresult.mp rfl, fun _ => rfl⟩
    rw [hwalk]
    exact if_pos hsound.count.symm

theorem Sound.verifyAll (h : verifier.Sound f provider) (roots : List RecordIdentifier) :
    ∃ verifications final, verifyAll f provider roots verifier = some (verifications, final) ∧
      final.Sound f provider ∧
      List.Forall₂ (fun root verification => ∃ result, verification = .returned result ∧
        (result = .ok () ↔ Intact f provider root)) roots verifications := by
  induction roots generalizing verifier with
  | nil => exact ⟨[], verifier, rfl, h, .nil⟩
  | cons root roots ih =>
    obtain ⟨result, next, hverify, hnext, hresult⟩ := h.verify root
    obtain ⟨verifications, final, hrest, hfinal, hall⟩ := ih hnext
    refine ⟨.returned result :: verifications, final, ?_, hfinal, .cons ⟨result, rfl, hresult⟩ hall⟩
    rw [NodeTreeVerifier.verifyAll, hverify]
    dsimp only [Option.bind_eq_bind, Option.bind_some]
    rw [hrest]
    rfl

end

/-- Whatever calls are made of a new verifier, each one succeeds exactly on an intact subtree,
what is kept is intact, and the count is the number of records kept. -/
theorem verifyAll_new (f : FloatingPoint) (provider : SegmentProvider)
    (roots : List RecordIdentifier) :
    ∃ verifications final, verifyAll f provider roots new = some (verifications, final) ∧
      List.Forall₂ (fun root verification => ∃ result, verification = .returned result ∧
        (result = .ok () ↔ Intact f provider root)) roots verifications ∧
      (∀ record ∈ final.verifiedSubtrees, Intact f provider record) ∧
      final.verifiedNodes = final.verifiedSubtrees.card := by
  obtain ⟨verifications, final, hrun, hfinal, hall⟩ := (@sound_new f provider).verifyAll roots
  exact ⟨verifications, final, hrun, hall, hfinal.intact, hfinal.count⟩

/-! A segment with a node that is its own only child, `t`. -/

/-- A segment with a node that is its own child. -/
def loopSegment : Bytes :=
  [0x30, 0x61, 0x4B, 12] ++ List.replicate 14 0 ++ [0, 0, 0, 3] ++ List.replicate 10 0 ++
    [0, 0, 0, 0, 4, 0, 3, 0xFF, 0xDC] ++ [0, 0, 0, 1, 6, 0, 3, 0xFF, 0xE0] ++
    [0, 0, 0, 2, 7, 0, 3, 0xFF, 0xEC] ++
    [1, 116, 0, 0] ++
    [0, 0, 0, 0] ++ [0, 0, 0, 0, 0, 0] ++ [0, 0] ++
    [0, 0, 0, 0, 0, 2] ++ [0, 0, 0, 0, 0, 1] ++ [0, 0, 0, 0, 0, 2] ++ [0, 0]

/-- Serves that segment. -/
def loopProvider : SegmentProvider := fun identifier => do
  return ⟨← ParsedSegment.parse identifier loopSegment, loopSegment⟩

/-- The node that is its own child. -/
def loopNode : RecordIdentifier := ⟨⟨0, 0xA000000000000000⟩, 2⟩

theorem childNodeEntries_loopNode :
    NodeState.childNodeEntries ⟨loopProvider, loopNode⟩ = .ok [("t", loopNode)] := by
  decide +kernel

theorem nodeReads_loopNode (f : FloatingPoint) : NodeReads f loopProvider loopNode := by
  have htemplate : NodeState.template ⟨loopProvider, loopNode⟩ = .ok ⟨none, [], .one "t", []⟩ := by
    decide +kernel
  have hstable : NodeState.stableIdentifierBytes ⟨loopProvider, loopNode⟩ =
      .ok (NodeState.identityBytes loopNode) := by
    decide +kernel
  refine ⟨⟨[], ?_, nofun⟩, ⟨_, hstable⟩, ⟨_, childNodeEntries_loopNode⟩⟩
  rw [NodeState.properties, htemplate]
  rfl

theorem not_intact_loopNode (f : FloatingPoint) : ¬ Intact f loopProvider loopNode := by
  intro hintact
  exact hintact.2 loopNode .refl
    (.single ⟨_, "t", childNodeEntries_loopNode, List.mem_singleton_self _⟩)

/-- A call that prunes a subtree keeps the root all the same, so that a later call accepts what
an earlier one has rejected. -/
theorem pruned_call_keeps_root : ∃ error rejected kept,
    new.verify oneDouble loopProvider loopNode = some (.returned (.error error), rejected) ∧
      rejected.verifyCollectingPruned oneDouble loopProvider loopNode ["/t"] =
        some (.returned (.ok ()), kept) ∧
      kept.verify oneDouble loopProvider loopNode = some (.returned (.ok ()), kept) ∧
      ¬ Intact oneDouble loopProvider loopNode := by
  have hintact := not_intact_loopNode oneDouble
  obtain ⟨result, rejected, hfirst, hsound, hresult⟩ :=
    (@sound_new oneDouble loopProvider).verify loopNode
  have hnew : loopNode ∉ rejected.verifiedSubtrees := fun hmem => hintact (hsound.intact _ hmem)
  have hcheck : (fullGraph oneDouble loopProvider).check loopNode = .ok [("t", loopNode)] :=
    fullGraph_check_iff.mpr ⟨nodeReads_loopNode oneDouble, childNodeEntries_loopNode⟩
  have hcard : (insert loopNode rejected.verifiedSubtrees).card = rejected.verifiedNodes + 1 := by
    rw [Finset.card_insert_of_notMem hnew, hsound.count]
  cases result with
  | ok _ => exact absurd (hresult.mp rfl) hintact
  | error error =>
    refine ⟨error, rejected,
      ⟨insert loopNode rejected.verifiedSubtrees, rejected.verifiedNodes + 1⟩, hfirst, ?_, ?_,
      hintact⟩
    · have hwalk : VerifyWalk.walk (fullGraph oneDouble loopProvider)
          (fun names => decide (relativePath names ∈ ["/t"]))
          ⟨rejected.verifiedSubtrees, rejected.verifiedNodes⟩ loopNode =
            some (.ok (), ⟨insert loopNode rejected.verifiedSubtrees,
              rejected.verifiedNodes + 1⟩) := by
        rw [VerifyWalk.walk, VerifyWalk.openNode, if_neg (Finset.notMem_empty _), if_neg hnew,
          hcheck]
        dsimp only
        rw [VerifyWalk.State.untilEnd, VerifyWalk.step]
        dsimp only
        rw [if_pos (by decide)]
        dsimp only
        rw [VerifyWalk.State.untilEnd]
        rfl
      rw [verifyCollectingPruned, verifySubtreePrunedWithCache, hwalk]
      exact if_pos hcard
    · have hwalk : VerifyWalk.walk (fullGraph oneDouble loopProvider)
          (fun names => decide (relativePath names ∈ ([] : List String)))
          ⟨insert loopNode rejected.verifiedSubtrees, rejected.verifiedNodes + 1⟩ loopNode =
            some (.ok (), ⟨insert loopNode rejected.verifiedSubtrees,
              rejected.verifiedNodes + 1⟩) := by
        rw [VerifyWalk.walk, VerifyWalk.openNode, if_neg (Finset.notMem_empty _),
          if_pos (Finset.mem_insert_self ..)]
      rw [NodeTreeVerifier.verify, verifyCollectingPruned, verifySubtreePrunedWithCache, hwalk]
      exact if_pos hcard

end NodeTreeVerifier

end Froe
