import Froe.Compaction.Walk
import Froe.Lib.MemoWalk

/-!
# What a deep copy visits

The walk of a copy is a memoized walk over visits: a record, the scope it is
reached in, and whether it is the super-root, the `checkpoints` container or
neither.  `Related` pairs the states of the two, and every round of the copy is a
round of the other (`Related.step`).
-/

namespace Froe.Compaction

open MemoWalk

/-- Which part of the super-root's structure a visit is. -/
inductive Level where
  | superRoot
  | container
  | inner
deriving DecidableEq, Repr

/-- A record as the walk comes to it. -/
structure Visit where
  record : RecordIdentifier
  withinCheckpoints : Bool
  level : Level
deriving DecidableEq, Repr

/-- The visit the walk starts with. -/
def Visit.root (record : RecordIdentifier) : Visit := ⟨record, false, .superRoot⟩

/-- Whether a child of a visit is the container. -/
def Visit.isContainer (v : Visit) (name : String) : Bool :=
  v.level == .superRoot && name == "checkpoints"

section Graph

variable {σ : Type} (copying : Copying σ) (omissions : Omissions)

/-- A child of a visit, unless it is omitted. -/
def Visit.child (v : Visit) (name : String) (record : RecordIdentifier) : Option Visit :=
  let container := v.isContainer name
  let withinCheckpoints := v.withinCheckpoints || container
  if !withinCheckpoints ∧ record ∈ omissions.omittedSubtreeRecords then none
  else some ⟨record, withinCheckpoints, if container then .container else .inner⟩

/-- The children a visit keeps of those that are read. -/
def Visit.retained (v : Visit) (entries : List (String × RecordIdentifier)) :
    List (String × RecordIdentifier) :=
  if v.level = .container then
    entries.filter fun checkpoint => checkpoint.1 ∉ omissions.omittedCheckpoints
  else entries

def Visit.childVisits (v : Visit) (entries : List (String × RecordIdentifier)) :
    List (String × Option Visit) :=
  entries.map fun entry => (entry.1, v.child omissions entry.1 entry.2)

/-- The children of a record; a record that cannot be read has none. -/
def Copying.entries (record : RecordIdentifier) : List (String × RecordIdentifier) :=
  match copying.childNodeEntries record with
  | .ok entries => entries
  | .error _ => []

/-- The key of the memo that serves a visit: the scope matters for context-dependent records. -/
def Visit.key (v : Visit) : RecordIdentifier × Option Bool :=
  (v.record, if v.record ∈ omissions.contextDependentRecords then some v.withinCheckpoints else none)

def walkGraph : Graph Visit (RecordIdentifier × Option Bool) RecordIdentifier String where
  children v := v.childVisits omissions (v.retained omissions (copying.entries v.record))
  key := Visit.key omissions
  place := Visit.record
  place_of_key := fun h => congrArg Prod.fst h

theorem Copying.entries_of_ok {record : RecordIdentifier}
    {entries : List (String × RecordIdentifier)} (h : copying.childNodeEntries record = .ok entries) :
    copying.entries record = entries := by
  rw [Copying.entries, h]

end Graph

/-! ## Memos -/

variable {source : RecordIdentifier}

variable (map : RecordMap)

theorem RecordMap.lookup_filter_ne {record : RecordIdentifier}
    (h : record ≠ source) : List.lookup record (map.filter (·.1 ≠ source)) = map.lookup record := by
  induction map with
  | nil => rfl
  | cons entry map ih =>
    by_cases hentry : entry.1 = source
    · have hne : (record == entry.1) = false := by simpa [hentry] using h
      rw [List.filter_cons_of_neg (by simpa using hentry), ih, List.lookup_cons, hne]
    · rw [List.filter_cons_of_pos (by simpa using hentry), List.lookup_cons, List.lookup_cons, ih]

theorem RecordMap.lookup_put (source copy record : RecordIdentifier) :
    List.lookup record (map.put source copy) =
      if record = source then some copy else map.lookup record := by
  rw [RecordMap.put, List.lookup_cons]
  by_cases h : record = source
  · subst h
    simp
  · have hbeq : (record == source) = false := by simpa using h
    rw [hbeq, if_neg h]
    exact map.lookup_filter_ne h

theorem RecordMap.insertNew_of_none {map : RecordMap}
    (copy : RecordIdentifier) (h : map.lookup source = none) :
    map.insertNew source copy = some ((source, copy) :: map) := by
  rw [RecordMap.insertNew, h]
  rfl

theorem RecordMap.length_put (copy : RecordIdentifier) (h : map.lookup source = none) :
    (map.put source copy).length = map.length + 1 := by
  rw [RecordMap.put, List.length_cons, List.filter_eq_self.mpr]
  intro entry hentry
  simp only [ne_eq, decide_eq_true_eq]
  intro heq
  have := List.lookup_eq_none_iff.mp h entry hentry
  simp [heq] at this

section Memos

variable {σ : Type} {omissions : Omissions}

/-- A visit that no memo serves is memoized without a panic, and serves the visits of its key
from then on. -/
theorem Compactor.exists_memoize {c : Compactor σ} {v : Visit} (rewritten : RecordIdentifier)
    (h : c.memoized omissions v.record v.withinCheckpoints = none) :
    ∃ c', c.memoize omissions v.record v.withinCheckpoints rewritten = some c' ∧
      c'.writer = c.writer ∧ c'.nodesOnPath = c.nodesOnPath ∧
      c'.compactedNodes = c.compactedNodes ∧ c'.memoizedCount = c.memoizedCount + 1 ∧
      ∀ w : Visit, c'.memoized omissions w.record w.withinCheckpoints =
        if w.key omissions = v.key omissions then some rewritten
        else c.memoized omissions w.record w.withinCheckpoints := by
  by_cases hcontext : v.record ∈ omissions.contextDependentRecords
  · rw [Compactor.memoized, if_pos hcontext] at h
    refine ⟨_, if_pos hcontext, rfl, rfl, rfl, ?_, ?_⟩
    · have hlength := RecordMap.length_put _ rewritten h
      cases hw : v.withinCheckpoints with
      | false =>
        rw [hw] at hlength
        simp only [Compactor.memoizedCount, Function.update_self, hlength,
          Function.update_of_ne (show true ≠ false by decide)]
        omega
      | true =>
        rw [hw] at hlength
        simp only [Compactor.memoizedCount, Function.update_self, hlength,
          Function.update_of_ne (show false ≠ true by decide)]
        omega
    · intro w
      by_cases hw : w.record ∈ omissions.contextDependentRecords
      · simp only [Compactor.memoized, Visit.key, if_pos hw, if_pos hcontext, Prod.mk.injEq,
          Option.some.injEq]
        by_cases hscope : w.withinCheckpoints = v.withinCheckpoints
        · rw [hscope, Function.update_self, RecordMap.lookup_put]
          simp
        · rw [Function.update_of_ne hscope]
          simp [hscope]
      · have hne : w.record ≠ v.record := fun heq => hw (heq ▸ hcontext)
        simp [Compactor.memoized, Visit.key, hw, hne]
  · rw [Compactor.memoized, if_neg hcontext] at h
    refine ⟨{ c with rewrittenNodes := (v.record, rewritten) :: c.rewrittenNodes }, ?_,
      rfl, rfl, rfl, ?_, ?_⟩
    · rw [Compactor.memoize, if_neg hcontext, RecordMap.insertNew_of_none _ h]
      rfl
    · simp only [Compactor.memoizedCount, List.length_cons]
      omega
    · intro w
      by_cases hw : w.record ∈ omissions.contextDependentRecords
      · have hne : w.record ≠ v.record := fun heq => hcontext (heq ▸ hw)
        simp [Compactor.memoized, Visit.key, hw, hne]
      · simp only [Compactor.memoized, Visit.key, if_neg hw, if_neg hcontext, Prod.mk.injEq,
          and_true, List.lookup_cons]
        by_cases heq : w.record = v.record
        · simp [heq]
        · have hbeq : (w.record == v.record) = false := by simpa using heq
          rw [hbeq, if_neg heq]

end Memos

/-! ## The copy as a memoized walk -/

section Simulation

variable {σ : Type} (copying : Copying σ) (omissions : Omissions)

/-- The copy of a visit over the copies of its children. -/
def writeVisit (v : Visit) (children : List (String × RecordIdentifier)) (writer : σ) :
    Result (RecordIdentifier × σ) :=
  copying.writeCopy v.record children writer

/-- The visits of a walk, as the copy knows them. -/
def Visit.emission (v : Visit) : RecordIdentifier × Bool := (v.record, v.withinCheckpoints)

structure FrameRelated (f : CompactionFrame) (g : Frame Visit String RecordIdentifier) : Prop where
  source : f.source = g.visit.record
  within : f.withinCheckpoints = g.visit.withinCheckpoints
  name : f.nameInParent = g.name
  pending : g.pending = g.visit.childVisits omissions f.pendingChildren
  rewritten : f.rewrittenChildren = g.finished

/-- The stacks, with the super-root at the bottom and only there. -/
def StackRelated :
    List CompactionFrame → List (Frame Visit String RecordIdentifier) → Prop
  | [], [] => True
  | f :: fs, g :: gs =>
    FrameRelated omissions f g ∧ (g.visit.level = .superRoot ↔ fs = []) ∧ StackRelated fs gs
  | _, _ => False

/-- The states of the copy and of the walk over visits. -/
structure Related (c : Compactor σ) (stack : List CompactionFrame)
    (s : State Visit (RecordIdentifier × Option Bool) String RecordIdentifier σ) : Prop where
  stack : StackRelated omissions stack s.stack
  memo : ∀ v : Visit, c.memoized omissions v.record v.withinCheckpoints = s.memo (v.key omissions)
  nodesOnPath : ∀ record, record ∈ c.nodesOnPath ↔ record ∈ path (walkGraph copying omissions) s.stack
  writer : c.writer = s.out
  compacted : c.compactedNodes = s.emitted.length
  counted : c.compactedNodes = c.memoizedCount

/-- The outcomes of a round of the copy and of the walk over visits. -/
inductive Agrees (emitted : List (RecordIdentifier × Bool)) :
    Outcome σ →
    MemoWalk.Outcome Visit (RecordIdentifier × Option Bool) String RecordIdentifier σ Error → Prop
  | more {c stack s} (related : Related copying omissions c stack s)
      (emission : s.emitted.map Visit.emission = emitted) : Agrees emitted (.more c stack) (.more s)
  | returned {c rewritten s} (related : Related copying omissions c [] s)
      (emission : s.emitted.map Visit.emission = emitted) :
      Agrees emitted (.returned rewritten c) (.returned rewritten s)
  | cycle (v : Visit) : Agrees emitted (.cycle v.record) (.cycle v)
  | failed (error : Error) : Agrees emitted (.failed error) (.failed error)

variable {copying omissions} {c : Compactor σ} {stack : List CompactionFrame}
  {s : State Visit (RecordIdentifier × Option Bool) String RecordIdentifier σ}
  {f : CompactionFrame} {g : Frame Visit String RecordIdentifier} {below : List CompactionFrame}
  {rest : List (Frame Visit String RecordIdentifier)}

theorem isContainer_eq (h : g.visit.level = .superRoot ↔ below = []) (name : String) :
    isContainer below name = g.visit.isContainer name := by
  unfold isContainer Visit.isContainer
  congr 1
  cases below with
  | nil => simp [h.mpr rfl]
  | cons _ _ =>
    have hne : g.visit.level ≠ .superRoot := fun heq => List.cons_ne_nil _ _ (h.mp heq)
    simp [hne]

variable (h : Related copying omissions c (f :: below) s)

include h in
/-- The top frames may be exchanged for others of the same visit. -/
theorem Related.exchange (hstack : s.stack = g :: rest) {f' : CompactionFrame}
    {g' : Frame Visit String RecordIdentifier} (hvisit : g'.visit = g.visit)
    (hframe : FrameRelated omissions f' g') :
    Related copying omissions c (f' :: below) { s with stack := g' :: rest } where
  stack := by
    have hs := h.stack
    rw [hstack] at hs
    exact ⟨hframe, hvisit ▸ hs.2.1, hs.2.2⟩
  memo := h.memo
  nodesOnPath := by
    intro record
    rw [h.nodesOnPath, hstack, path, path, List.map_cons, List.map_cons, hvisit]
  writer := h.writer
  compacted := h.compacted
  counted := h.counted

/-- The frame of a child that is entered. -/
theorem Related.push (h : Related copying omissions c stack s) {v : Visit} {name : String}
    {entries : List (String × RecordIdentifier)} {container : Bool} (hne : stack ≠ [])
    (hlevel : v.level = if container then .container else .inner)
    (hentries : copying.childNodeEntries v.record = .ok entries) :
    Related copying omissions (c.onPath v.record)
      (childFrame omissions ⟨v.record, none, false, entries, []⟩ name v.withinCheckpoints
        container :: stack)
      { s with stack :=
          ⟨v, some name, (walkGraph copying omissions).children v, []⟩ :: s.stack } where
  stack := by
    refine ⟨⟨rfl, rfl, rfl, ?_, rfl⟩, ?_, h.stack⟩
    · simp only [walkGraph, Copying.entries_of_ok copying hentries, childFrame]
      congr 1
      cases container with
      | false => simp [Visit.retained, hlevel]
      | true => simp [Visit.retained, hlevel]
    · constructor
      · intro hroot
        cases container <;> simp [hlevel] at hroot
      · intro heq
        exact (hne heq).elim
  memo := h.memo
  nodesOnPath := by
    intro record
    simp only [Compactor.onPath, Finset.mem_insert, path, List.map_cons, List.mem_cons]
    rw [h.nodesOnPath]
    rfl
  writer := h.writer
  compacted := h.compacted
  counted := h.counted

include h in
/-- The state after the top frame is emitted. -/
theorem Related.emit {root : Visit}
    (hunderway : Underway (walkGraph copying omissions) root s) (hstack : s.stack = g :: rest)
    (rewritten : RecordIdentifier) (writer : σ) :
    ∃ c', c.emitted omissions f rewritten writer = some c' ∧
      Related copying omissions c' below
        ⟨Function.update s.memo (g.visit.key omissions) (some rewritten), rest, writer,
          s.emitted ++ [g.visit]⟩ := by
  have hs := h.stack
  rw [hstack] at hs
  obtain ⟨hframe, -, hbelow⟩ := hs
  have hfresh : s.memo (g.visit.key omissions) = none :=
    hunderway.fresh g (hstack ▸ List.mem_cons_self ..)
  rw [← h.memo] at hfresh
  obtain ⟨c', hmemoize, hwriter, hpath, hcompacted, hcount, hmemo⟩ := Compactor.exists_memoize
    (c := { c with
      writer := writer
      nodesOnPath := c.nodesOnPath.erase g.visit.record
      compactedNodes := c.compactedNodes + 1 }) rewritten hfresh
  refine ⟨c', ?_, hbelow, ?_, ?_, hwriter, ?_, ?_⟩
  · rw [Compactor.emitted, hframe.source, hframe.within]
    exact hmemoize
  · intro v
    rw [hmemo v]
    dsimp only
    rw [Function.update_apply]
    split
    · rfl
    · exact h.memo v
  · intro record
    have hnodup := hunderway.nodup_path
    rw [hstack, path, List.map_cons, List.nodup_cons] at hnodup
    rw [hpath, Finset.mem_erase, h.nodesOnPath, hstack, path, List.map_cons, List.mem_cons]
    constructor
    · rintro ⟨hne, heq | hmem⟩
      · exact (hne heq).elim
      · exact hmem
    · intro hmem
      refine ⟨?_, .inr hmem⟩
      rintro rfl
      exact hnodup.1 hmem
  · rw [hcompacted, List.length_append, List.length_singleton]
    exact congrArg (· + 1) h.compacted
  · rw [hcompacted, hcount]
    exact congrArg (· + 1) h.counted

/-- The emission of a frame is the end of its visit. -/
theorem Related.finish {root : Visit} (h : Related copying omissions c (f :: below) s)
    (hunderway : Underway (walkGraph copying omissions) root s) (hstack : s.stack = g :: rest) :
    Agrees copying omissions (s.emitted.map Visit.emission ++ [(f.source, f.withinCheckpoints)])
      (emitFrame copying omissions c f below)
      (MemoWalk.finish (walkGraph copying omissions) (writeVisit copying) s g rest) := by
  have hs := h.stack
  rw [hstack] at hs
  obtain ⟨hframe, -, hbelow⟩ := hs
  have hwrite : copying.writeCopy f.source f.rewrittenChildren c.writer =
      writeVisit copying g.visit g.finished s.out := by
    rw [writeVisit, hframe.source, hframe.rewritten, h.writer]
  have hemission : (s.emitted ++ [g.visit]).map Visit.emission =
      s.emitted.map Visit.emission ++ [(f.source, f.withinCheckpoints)] := by
    rw [List.map_append, hframe.source, hframe.within]
    rfl
  unfold emitFrame MemoWalk.finish
  rw [hwrite]
  cases hout : writeVisit copying g.visit g.finished s.out with
  | error error => exact .failed error
  | ok written =>
    obtain ⟨rewritten, writer⟩ := written
    obtain ⟨c', hemitted, hrelated⟩ := h.emit hunderway hstack rewritten writer
    dsimp only
    rw [hemitted]
    cases below with
    | nil =>
      cases rest with
      | nil => exact .returned hrelated hemission
      | cons _ _ => exact hbelow.elim
    | cons parent below =>
      cases rest with
      | nil => exact hbelow.elim
      | cons parent' rest =>
        obtain ⟨name, hname, -⟩ := hunderway.stacked_cons hstack
        dsimp only
        rw [hframe.name, hname]
        refine .more (hrelated.exchange rfl rfl ?_) hemission
        obtain ⟨hparent, -⟩ := hbelow
        exact ⟨hparent.source, hparent.within, hparent.name, hparent.pending,
          congrArg (· ++ [(name, rewritten)]) hparent.rewritten⟩

variable {v : Visit} {name : String} {child : RecordIdentifier}

/-- A child that is not omitted. -/
theorem Visit.child_eq_some {w : Visit} (h : v.child omissions name child = some w) :
    ¬(!(v.withinCheckpoints || v.isContainer name) ∧ child ∈ omissions.omittedSubtreeRecords) ∧
      w.record = child ∧ w.withinCheckpoints = (v.withinCheckpoints || v.isContainer name) ∧
      w.level = if v.isContainer name then .container else .inner := by
  rw [Visit.child] at h
  split at h
  · cases h
  · rename_i hkept
    cases h
    exact ⟨hkept, rfl, rfl, rfl⟩

theorem Visit.child_eq_none (h : v.child omissions name child = none) :
    !(v.withinCheckpoints || v.isContainer name) ∧ child ∈ omissions.omittedSubtreeRecords := by
  rw [Visit.child] at h
  split at h
  · assumption
  · cases h

include h in
theorem Related.take {pendingChildren : List (String × RecordIdentifier)} (hstack : s.stack = g :: rest)
    (hchild : g.visit.child omissions name child = some v) :
    (∃ record error, takeChild copying omissions c f below name child pendingChildren =
        .failed error ∧ copying.childNodeEntries record = .error error) ∨
      Agrees copying omissions (s.emitted.map Visit.emission)
        (takeChild copying omissions c f below name child pendingChildren)
        (MemoWalk.take (walkGraph copying omissions) s g rest name v
          (g.visit.childVisits omissions pendingChildren)) := by
  have hs := h.stack
  rw [hstack] at hs
  obtain ⟨hframe, hlevel, -⟩ := hs
  obtain ⟨hkept, hrecord, hwithin, hv⟩ := Visit.child_eq_some hchild
  unfold takeChild MemoWalk.take
  rw [isContainer_eq hlevel name, hframe.within, if_neg hkept, enter, ← hwithin, ← hrecord,
    h.memo v]
  have hkey : (walkGraph copying omissions).key v = v.key omissions := rfl
  rw [hkey]
  cases hmemo : s.memo (v.key omissions) with
  | some value =>
    right
    refine .more (h.exchange hstack rfl ?_) rfl
    exact ⟨hframe.source, rfl, hframe.name, rfl,
      congrArg (· ++ [(name, value)]) hframe.rewritten⟩
  | none =>
    have hplace : v.record ∈ c.nodesOnPath ↔
        (walkGraph copying omissions).place v ∈ path (walkGraph copying omissions) s.stack :=
      h.nodesOnPath v.record
    dsimp only
    by_cases hpath : v.record ∈ c.nodesOnPath
    · right
      rw [if_pos hpath, if_pos (hplace.mp hpath)]
      exact .cycle v
    · rw [if_neg hpath, if_neg (fun hmem => hpath (hplace.mpr hmem))]
      cases hentries : copying.childNodeEntries v.record with
      | error error => exact .inl ⟨v.record, error, rfl, hentries⟩
      | ok entries =>
        right
        have hrest : FrameRelated omissions
            ⟨f.source, f.nameInParent, g.visit.withinCheckpoints, pendingChildren,
              f.rewrittenChildren⟩
            { g with pending := g.visit.childVisits omissions pendingChildren } :=
          ⟨hframe.source, rfl, hframe.name, rfl, hframe.rewritten⟩
        have hexchanged := h.exchange hstack (by rfl) hrest
        exact .more (hexchanged.push (List.cons_ne_nil _ _) hv hentries) rfl

/-- A round of the copy is a round of the walk over visits, unless a read fails. -/
theorem Related.step {root : Visit} (h : Related copying omissions c stack s)
    (hunderway : Underway (walkGraph copying omissions) root s) :
    (∃ record error, step copying omissions c stack = .failed error ∧
        copying.childNodeEntries record = .error error) ∨
      Agrees copying omissions (s.emitted.map Visit.emission ++ (emission stack).toList)
        (step copying omissions c stack)
        (MemoWalk.step (walkGraph copying omissions) (writeVisit copying) s) := by
  have hs := h.stack
  have hstacked := hunderway.stacked
  cases hstack : s.stack with
  | nil =>
    rw [hstack] at hstacked
    exact hstacked.elim
  | cons g rest =>
    cases stack with
    | nil =>
      rw [hstack] at hs
      exact hs.elim
    | cons f below =>
      rw [hstack] at hs
      obtain ⟨hframe, hlevel, -⟩ := hs
      have hpending := hframe.pending
      unfold Compaction.step MemoWalk.step
      rw [hstack]
      cases hchildren : f.pendingChildren with
      | nil =>
        right
        rw [hchildren] at hpending
        have hpending' : g.pending = [] := hpending
        simp only [hpending', emission, hchildren, if_pos, Option.toList_some]
        exact h.finish hunderway hstack
      | cons entry pendingChildren =>
        obtain ⟨name, child⟩ := entry
        rw [hchildren] at hpending
        have hpending' : g.pending = (name, g.visit.child omissions name child) ::
          g.visit.childVisits omissions pendingChildren := hpending
        have hnone : emission (f :: below) = none := by simp [emission, hchildren]
        simp only [hpending', hnone, hchildren, Option.toList_none, List.append_nil]
        cases hchild : g.visit.child omissions name child with
        | some v => exact h.take hstack hchild
        | none =>
          right
          unfold takeChild
          rw [isContainer_eq hlevel name, hframe.within, if_pos (Visit.child_eq_none hchild)]
          refine .more (h.exchange hstack rfl ?_) rfl
          exact ⟨hframe.source, rfl, hframe.name, rfl, hframe.rewritten⟩

end Simulation

end Froe.Compaction
