import Froe.Content.TraversalOrder

/-!
# A traversal within limits

On well-formed nodes a call within limits that suffice does what a call without limits does.
-/

namespace Froe.DepthFirst

open Except (bind_ok_iff)

open Unfolding

variable {provider : SegmentProvider} {limits : SchedulingLimits} {t : Traversal}

/-! ## Counting the children of a well-formed node -/

variable {root : RecordIdentifier} {node : NodeState}

/-- The size of a well-formed map is read from its trie, behind its diffs. -/
theorem mapSizeWithMaximumWorkWalk_diffs {record mapIdentifier : RecordIdentifier}
    {diffs entries : List CollectedEntry} {depth level : Nat} {nodes : List RecordIdentifier}
    (hchain : DiffsOver provider root diffs record)
    (htrie : ShapeAt provider depth level root entries nodes)
    (hsize : entries.length ≤ maximumMapSize) {maximumWork visited : Nat}
    (hwork : visited + diffs.length ≤ maximumWork) (rounds : Nat) :
    mapSizeWithMaximumWorkWalk provider mapIdentifier maximumWork (diffs.length + (rounds + 1))
      visited record = .ok (entries.length, visited + diffs.length) := by
  induction diffs generalizing record visited with
  | nil =>
    obtain rfl : record = root := hchain
    obtain ⟨view, level, hview, hlevel, hhead⟩ := htrie.head
    obtain ⟨hdiff, hcount, -⟩ := mapHead_spec hlevel hsize
    rw [List.length_nil, Nat.add_zero] at hwork ⊢
    rw [Nat.zero_add, mapSizeWithMaximumWorkWalk, if_neg (Nat.not_lt_of_le hwork), hview]
    refine bind_ok_iff.mpr ⟨view, rfl, ?_⟩
    rw [hhead]
    refine bind_ok_iff.mpr ⟨_, rfl, ?_⟩
    rw [if_neg hdiff, hcount]
    rfl
  | cons overlay diffs ih =>
    obtain ⟨view, base, hview, hdiff, hrest⟩ := hchain
    rw [List.length_cons] at hwork ⊢
    rw [Nat.succ_add, mapSizeWithMaximumWorkWalk, if_neg (by omega), hview]
    refine bind_ok_iff.mpr ⟨view, rfl, ?_⟩
    rw [hdiff.head]
    refine bind_ok_iff.mpr ⟨_, rfl, ?_⟩
    rw [if_pos rfl, hdiff.base]
    refine bind_ok_iff.mpr ⟨base, rfl, ?_⟩
    rw [ih hrest (by omega), Nat.add_assoc, Nat.add_comm 1]

def WellFormedChildren (node : NodeState) : Prop :=
  ∃ template, node.template = .ok template ∧ node.HasChildren template.childArity

/-- The count of the children of a well-formed node costs a number of map records, and is that of
the listed children whenever the budget covers them. -/
theorem exists_childNodeCount (h : WellFormedChildren node)
    {entries : List (String × RecordIdentifier)} (hentries : node.childNodeEntries = .ok entries) :
    ∃ countRecords, ∀ maximumWork, countRecords ≤ maximumWork →
      childNodeCountWithMaximumWork node maximumWork = .ok (entries.length, countRecords) := by
  obtain ⟨template, htemplate, hchildren⟩ := h
  obtain ⟨templateIdentifier, view, head, hhead, harity⟩ := NodeState.templateHead_of_template htemplate
  rw [NodeState.childNodeEntries, htemplate, Except.ok_bind_eq] at hentries
  rcases harity with ⟨harity, hmany⟩ | ⟨harity, hmany, hzero⟩ |
    ⟨childName, childNameIdentifier, harity, hmany, hzero, -, -⟩
  · rw [harity] at hchildren hentries
    obtain ⟨record, root, diffs, listed, depth, hrecord, hmap, hwalk⟩ := hchildren
    dsimp only at hentries
    rw [hrecord, Except.ok_bind_eq, hmap.mapEntries (by omega), Except.ok_bind_eq] at hentries
    obtain rfl := Except.ok.inj hentries
    obtain ⟨nodes, htrie, -⟩ := hmap.trie
    obtain ⟨rounds, hrounds⟩ : ∃ rounds, maximumWalkLength = diffs.length + (rounds + 1) :=
      ⟨maximumWalkLength - diffs.length - 1, by omega⟩
    refine ⟨1 + diffs.length, fun maximumWork hwork => ?_⟩
    rw [childNodeCountWithMaximumWork, hhead]
    refine bind_ok_iff.mpr ⟨_, rfl, ?_⟩
    dsimp only
    rw [if_pos hmany, hrecord]
    refine bind_ok_iff.mpr ⟨record, rfl, ?_⟩
    rw [mapSizeWithMaximumWork, hrounds,
      mapSizeWithMaximumWorkWalk_diffs hmap.chain htrie.shape hmap.size hwork, List.length_map,
      List.length_map]
  · rw [harity] at hentries
    obtain rfl := Except.ok.inj hentries
    refine ⟨0, fun maximumWork _ => ?_⟩
    rw [childNodeCountWithMaximumWork, hhead]
    refine bind_ok_iff.mpr ⟨_, rfl, ?_⟩
    dsimp only
    rw [if_neg (by rw [hmany]; exact Bool.false_ne_true), if_pos hzero]
    rfl
  · rw [harity] at hchildren hentries
    obtain ⟨child, hchild⟩ := hchildren
    dsimp only at hentries
    rw [hchild, Except.ok_bind_eq] at hentries
    obtain rfl := Except.ok.inj hentries
    refine ⟨0, fun maximumWork _ => ?_⟩
    rw [childNodeCountWithMaximumWork, hhead]
    refine bind_ok_iff.mpr ⟨_, rfl, ?_⟩
    dsimp only
    rw [if_neg (by rw [hmany]; exact Bool.false_ne_true),
      if_neg (by rw [hzero]; exact Bool.false_ne_true)]
    rfl

/-! ## Limits that suffice -/

/-- The limits cover the children of a node, the bytes of their names, and the work of counting
and listing them. -/
def Suffice (limits : SchedulingLimits) (node : NodeState) : Prop :=
  ∀ entries nameIdentifiers records countRecords maximumWork,
    node.childNodeEntries = .ok entries → node.enumerationReads = .ok (nameIdentifiers, records) →
    childNodeCountWithMaximumWork node maximumWork = .ok (entries.length, countRecords) →
      entries.length ≤ limits.children ∧
        node.storedBytes nameIdentifiers ≤ limits.childNameBytes ∧
        entries.length + countRecords + (records + node.storedBytes nameIdentifiers) ≤ limits.work

theorem saturatingAdd64_le (a b : Nat) : saturatingAdd64 a b ≤ a + b := min_le_left _ _

theorem childNodeCount_only {templateIdentifier : RecordIdentifier}
    {view : SegmentView} {head : TemplateHead}
    (hhead : node.templateHead = .ok (templateIdentifier, view, head))
    (hmany : head.manyChildNodes = false) (hzero : head.zeroChildNodes = false)
    (maximumWork : Nat) : childNodeCountWithMaximumWork node maximumWork = .ok (1, 0) := by
  rw [childNodeCountWithMaximumWork, hhead]
  refine bind_ok_iff.mpr ⟨_, rfl, ?_⟩
  dsimp only
  rw [if_neg (by rw [hmany]; exact Bool.false_ne_true),
    if_neg (by rw [hzero]; exact Bool.false_ne_true)]
  rfl

/-- An enumeration that is limited to the children that were counted agrees with the unbounded
one: an only child has been counted. -/
theorem boundedAgrees_counted (hwellFormed : WellFormedChildren node)
    {count countRecords maximumWork : Nat}
    (hcount : childNodeCountWithMaximumWork node maximumWork = .ok (count, countRecords))
    (maximumStoredNameBytes maximumWorkUnits : Nat) :
    node.BoundedAgrees ⟨count, maximumStoredNameBytes, maximumWorkUnits⟩ := by
  obtain ⟨template, htemplate, hchildren⟩ := hwellFormed
  refine (NodeState.boundedAgrees_iff htemplate hchildren _).mpr ?_
  rintro ⟨hnone, templateIdentifier, view, head, _, hhead, hmany, hzero, -⟩
  obtain rfl : count = 0 := hnone
  rw [childNodeCount_only hhead hmany hzero] at hcount
  cases hcount

theorem enumerateChildrenWithinLimits_ok (hwellFormed : WellFormedChildren node)
    (hsuffice : Suffice limits node) :
    ∃ scheduled, enumerateChildrenWithinLimits node limits = .ok scheduled ∧
      node.childNodeEntries = .ok scheduled.entries := by
  obtain ⟨entries, hentries⟩ : ∃ entries, node.childNodeEntries = .ok entries := by
    obtain ⟨template, htemplate, hchildren⟩ := hwellFormed
    obtain ⟨entries, -, -, hentries, -⟩ :=
      (NodeState.boundedAgrees_iff htemplate hchildren ⟨1, 0, 0⟩).mpr (by
        rintro ⟨hzero, -⟩
        cases hzero)
    exact ⟨entries, hentries⟩
  obtain ⟨countRecords, hcount⟩ := exists_childNodeCount hwellFormed hentries
  obtain ⟨entries', nameIdentifiers, records, hentries', hreads, hlisted, hrefused⟩ :=
    boundedAgrees_counted hwellFormed (hcount countRecords (Nat.le_refl _)) limits.childNameBytes
      (limits.work - saturatingAdd64 entries.length countRecords)
  obtain rfl : entries' = entries := Except.ok.inj (hentries'.symm.trans hentries)
  obtain ⟨hfit, hnames, hwork⟩ := hsuffice entries' nameIdentifiers records countRecords countRecords
    hentries hreads (hcount countRecords (Nat.le_refl _))
  have hreserved := saturatingAdd64_le entries'.length countRecords
  cases hresult : node.childNodeEntriesWithLimits ⟨entries'.length, limits.childNameBytes,
      limits.work - saturatingAdd64 entries'.length countRecords⟩ with
  | error refusal =>
    rcases hrefused refusal hresult with hmore | hmore | hmore
    · exact absurd hmore (Nat.lt_irrefl _)
    · exact absurd hmore (Nat.not_lt_of_le hnames)
    · dsimp only at hmore
      omega
  | ok result =>
    obtain ⟨listed, storedNameBytes, visitedMapRecords⟩ := result
    obtain ⟨-, -, rfl⟩ := hlisted listed storedNameBytes visitedMapRecords hresult
    refine ⟨⟨listed, listed.length, storedNameBytes,
      saturatingAdd64 countRecords visitedMapRecords⟩, ?_, hentries⟩
    rw [enumerateChildrenWithinLimits, hcount limits.work (by omega)]
    refine bind_ok_iff.mpr ⟨_, rfl, ?_⟩
    dsimp only
    rw [if_neg (Nat.not_lt_of_le hfit), if_neg (by omega), hresult]
    refine bind_ok_iff.mpr ⟨_, rfl, ?_⟩
    dsimp only
    rw [if_neg (not_not_intro rfl)]
    rfl

/-! ## Calls within limits -/

/-- The nodes that a traversal can come to. -/
inductive Reachable (provider : SegmentProvider) (root : RecordIdentifier) :
    RecordIdentifier → Prop
  | root : Reachable provider root root
  | child {node entries child} (hnode : Reachable provider root node)
      (hentries : NodeState.childNodeEntries ⟨provider, node⟩ = .ok entries)
      (hchild : child ∈ entries) : Reachable provider root child.2

/-- The nodes of some items. -/
def WorkItem.Within (reached : RecordIdentifier → Prop) : WorkItem → Prop
  | .visit node _ _ => reached node
  | .complete _ _ => True

/-- Two outcomes of a call are the same but for the charges. -/
def SameOutcome (bounded plain : Except TraversalError (Option BoundedVisitedNode) × Traversal) :
    Prop :=
  bounded.1.map (Option.map BoundedVisitedNode.visited) =
      plain.1.map (Option.map BoundedVisitedNode.visited) ∧ bounded.2 = plain.2

section

variable {reached : RecordIdentifier → Prop}

variable {node : RecordIdentifier}

section

variable (hreached : ∀ node, reached node → WellFormedChildren ⟨provider, node⟩ ∧ Suffice limits
    ⟨provider, node⟩)
include hreached

theorem scheduleBelow_within {depth : Nat} (hnode : reached node)
    (hpending : (scheduleBelow provider none t node depth).2.pendingNodes ≤ limits.pendingNodes) :
    SameOutcome ((scheduleBelow provider (some limits) t node depth).1.map some,
        (scheduleBelow provider (some limits) t node depth).2)
      ((scheduleBelow provider none t node depth).1.map some,
        (scheduleBelow provider none t node depth).2) := by
  cases hdescends : descends t.descentLimit depth with
  | false =>
    rw [scheduleBelow_leaf node hdescends, scheduleBelow_leaf node hdescends]
    exact ⟨rfl, rfl⟩
  | true =>
    obtain ⟨hwellFormed, hsuffice⟩ := hreached node hnode
    obtain ⟨scheduled, hscheduled, hentries⟩ := enumerateChildrenWithinLimits_ok hwellFormed hsuffice
    have hplain := @scheduleBelow_inner provider none t node depth _ hdescends
      (by rw [scheduleChildren, hentries]; rfl) nofun
    rw [hplain] at hpending ⊢
    have hbounded := @scheduleBelow_inner provider (some limits) t node depth scheduled hdescends
      hscheduled (by rintro _ ⟨⟩; exact hpending)
    rw [hbounded]
    exact ⟨rfl, rfl⟩

theorem visitNode_within {name : String} {depth : Nat} (hnode : reached node)
    (hpending : (visitNode provider none t node name depth).2.pendingNodes ≤ limits.pendingNodes) :
    SameOutcome ((visitNode provider (some limits) t node name depth).1.map some,
        (visitNode provider (some limits) t node name depth).2)
      ((visitNode provider none t node name depth).1.map some,
        (visitNode provider none t node name depth).2) := by
  unfold visitNode at hpending ⊢
  dsimp only at hpending ⊢
  split
  · exact ⟨rfl, rfl⟩
  · rename_i hfresh
    rw [if_neg hfresh] at hpending
    split
    · exact ⟨rfl, rfl⟩
    · rename_i hlimit
      rw [if_neg hlimit] at hpending
      exact scheduleBelow_within hreached hnode hpending

theorem advance_within {stack : List WorkItem} (hstack : ∀ item ∈ stack, item.Within reached)
    (hpending : (advance provider none stack t).2.pendingNodes ≤ limits.pendingNodes) :
    SameOutcome (advance provider (some limits) stack t) (advance provider none stack t) := by
  induction stack generalizing t with
  | nil => exact ⟨rfl, rfl⟩
  | cons item rest ih =>
    cases item with
    | complete record pathLength =>
      exact ih (fun item hmem => hstack item (List.mem_cons_of_mem _ hmem)) hpending
    | visit node name depth =>
      exact visitNode_within hreached (hstack _ List.mem_cons_self) hpending

end

end

/-- What is scheduled without limits is what is listed. -/
theorem scheduleChildren_entries {scheduled : Scheduled}
    (h : scheduleChildren node none = .ok scheduled) :
    node.childNodeEntries = .ok scheduled.entries := by
  obtain ⟨entries, hentries, heq⟩ := bind_ok_iff.mp h
  obtain rfl := Except.pure_ok_iff.mp heq
  cases hlisted : node.childNodeEntries with
  | error error =>
    rw [hlisted] at hentries
    cases hentries
  | ok listed =>
    rw [hlisted] at hentries
    obtain rfl := Except.ok.inj hentries
    rfl

/-- The nodes on the stack stay reachable. -/
theorem advance_reachable {stack : List WorkItem}
    (hstack : ∀ item ∈ stack, item.Within (Reachable provider root)) :
    ∀ item ∈ (advance provider none stack t).2.stack, item.Within (Reachable provider root) := by
  induction stack generalizing t with
  | nil => exact nofun
  | cons item rest ih =>
    have hrest := fun item hmem => hstack item (List.mem_cons_of_mem _ hmem)
    cases item with
    | complete record pathLength => exact ih hrest
    | visit node name depth =>
      have hnode : Reachable provider root node := hstack _ List.mem_cons_self
      have hentered : ∀ item ∈ (WorkItem.complete node
          (if name = "" then none else some t.pathBuffer.length)) :: rest,
          item.Within (Reachable provider root) := by
        intro item hmem
        rcases List.mem_cons.mp hmem with rfl | hmem
        · trivial
        · exact hrest item hmem
      rw [advance]
      dsimp only
      unfold visitNode
      dsimp only
      split
      · exact hrest
      · split
        · exact hrest
        · unfold scheduleBelow
          dsimp only
          split
          · split
            · exact hentered
            · rename_i scheduled hscheduled
              split
              · exact hentered
              · intro item hmem
                rcases List.mem_append.mp hmem with hmem | hmem
                · obtain ⟨child, hchild, rfl⟩ := List.mem_map.mp hmem
                  exact .child hnode (scheduleChildren_entries hscheduled) hchild
                · exact hentered item hmem
          · exact hentered

/-- Calls within limits that suffice go through the same states. -/
theorem calledWithin_eq (hreached : ∀ node, Reachable provider root node →
      WellFormedChildren ⟨provider, node⟩ ∧ Suffice limits ⟨provider, node⟩)
    (hstack : ∀ item ∈ t.stack, item.Within (Reachable provider root))
    (hpending : ∀ n, (called provider t n).pendingNodes ≤ limits.pendingNodes) (n : Nat) :
    calledWithin provider limits t n = called provider t n ∧
      ∀ item ∈ (called provider t n).stack, item.Within (Reachable provider root) := by
  induction n with
  | zero => exact ⟨rfl, hstack⟩
  | succ n ih =>
    have hnext : called provider t (n + 1) = (nextNode provider (called provider t n)).2 :=
      Function.iterate_succ_apply' ..
    have hnextWithin : calledWithin provider limits t (n + 1) =
        (nextNodeWithSchedulingLimits provider limits (calledWithin provider limits t n)).2 :=
      Function.iterate_succ_apply' ..
    have hfits := hpending (n + 1)
    rw [hnext] at hfits
    rw [hnext, hnextWithin, ih.1]
    exact ⟨(advance_within hreached ih.2 hfits).2, advance_reachable ih.2⟩

/-- Repeated calls yield the preorder of the unfolding of the node graph, each node with its path
and depth, up to the first node that is its own ancestor, that cannot be read, or that is beyond
the limit of the traversal.  Limits that suffice change nothing, and whatever the limits are, the
counter is the number of the scheduled nodes. -/
theorem nextNode_preorder (provider : SegmentProvider) (root : RecordIdentifier) (rootPath : String)
    (descentLimit : Option Nat) :
    (∃ visits halt, DocumentOrder provider descentLimit []
      (Traversal.new root rootPath descentLimit).pathBuffer 0 [("", root)] visits halt) ∧
    (∀ visits halt, DocumentOrder provider descentLimit []
        (Traversal.new root rootPath descentLimit).pathBuffer 0 [("", root)] visits halt →
      ∀ n ≤ visits.length, n ≤ maximumTraversalNodes →
        (nextNode provider (called provider (.new root rootPath descentLimit) n)).1 =
          expected n (visits.drop n) halt) ∧
    (∀ limits, (∀ node, Reachable provider root node →
        WellFormedChildren ⟨provider, node⟩ ∧ Suffice limits ⟨provider, node⟩) →
      (∀ n, (called provider (.new root rootPath descentLimit) n).pendingNodes ≤
        limits.pendingNodes) →
      ∀ n, (nextNodeWithSchedulingLimits provider limits
          (calledWithin provider limits (.new root rootPath descentLimit) n)).1.map
            (Option.map BoundedVisitedNode.visited) =
        (nextNode provider (called provider (.new root rootPath descentLimit) n)).1) ∧
    ∀ calls : List (Option SchedulingLimits), Counted (calls.foldl
      (fun t limits => (nextNodeInternal provider limits t).2)
      (.new root rootPath descentLimit)) := by
  refine ⟨exists_preorder _ _ _ _ _ _ _, ?_, ?_, fun calls => counted_calls calls rfl⟩
  · intro visits halt hpreorder n hn hlimit
    have hremaining : Remaining provider descentLimit (Traversal.new root rootPath descentLimit).stack
        [] (Traversal.new root rootPath descentLimit).pathBuffer visits halt := by
      cases halt with
      | none =>
        rw [← List.append_nil visits]
        exact .visit hpreorder .nil
      | some halt => exact .halted hpreorder
    have hstart : Continues provider descentLimit (.new root rootPath descentLimit) visits halt 0 :=
      ⟨rfl, rfl, [], hremaining, rfl⟩
    have hcall := hstart.nextNode hn (by omega)
    rwa [Nat.zero_add] at hcall
  · intro limits hreached hpending n
    have hstack : ∀ item ∈ (Traversal.new root rootPath descentLimit).stack,
        item.Within (Reachable provider root) := by
      intro item hmem
      rw [List.mem_singleton.mp hmem]
      exact .root
    obtain ⟨heq, hwithin⟩ := calledWithin_eq hreached hstack hpending n
    have hfits := hpending (n + 1)
    rw [show called provider (.new root rootPath descentLimit) (n + 1) = (nextNode provider
      (called provider (.new root rootPath descentLimit) n)).2 from
        Function.iterate_succ_apply' ..] at hfits
    rw [heq]
    exact (advance_within hreached hwithin hfits).1

end Froe.DepthFirst
