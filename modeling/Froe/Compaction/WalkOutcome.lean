import Froe.Compaction.WalkGraph

/-!
# How a deep copy ends

On a finite graph of records the copy ends without a panic, it emits no visit
twice, and it refuses only cycles.  Whether it refuses every cycle depends on
the omissions: a record copied outside the checkpoints serves the checkpoints as
well, unless it is memoized per scope.  `Omissions.CoverAncestors` and
`Omissions.ContainerApart` are what the copy relies on, and they make the memo
coherent (`coherent_walkGraph`).
-/

namespace Froe.Compaction

open MemoWalk

variable {σ : Type} {copying : Copying σ} {omissions : Omissions}

/-! ## Runs -/

theorem Related.rounds {root : Visit} {c : Compactor σ} {stack : List CompactionFrame}
    {s : State Visit (RecordIdentifier × Option Bool) String RecordIdentifier σ}
    (h : Related copying omissions c stack s)
    (hunderway : Underway (walkGraph copying omissions) root s) (n : Nat) :
    (∃ record error, rounds copying omissions n c stack = .failed error ∧
        copying.childNodeEntries record = .error error) ∨
      Agrees copying omissions
        (s.emitted.map Visit.emission ++ emissions copying omissions n c stack)
        (rounds copying omissions n c stack)
        (run (walkGraph copying omissions) (writeVisit copying) n s) := by
  induction n generalizing c stack s with
  | zero => exact .inr (.more h (List.append_nil _).symm)
  | succ n ih =>
    rcases h.step hunderway with ⟨record, error, hfailed, hread⟩ | hagrees
    · exact .inl ⟨record, error, by rw [Compaction.rounds, hfailed], hread⟩
    · rw [Compaction.rounds, emissions, MemoWalk.run, ← List.append_assoc]
      generalize hc : Compaction.step copying omissions c stack = outcome at hagrees
      generalize hs : MemoWalk.step (walkGraph copying omissions) (writeVisit copying) s = outcome'
        at hagrees
      cases hagrees with
      | more hrelated hemission =>
        rw [← hemission]
        exact ih hrelated (hunderway.step hs)
      | returned hrelated hemission => exact .inr (.returned hrelated (by simpa using hemission))
      | cycle v => exact .inr (.cycle v)
      | failed error => exact .inr (.failed error)

theorem related_start {superRoot : RecordIdentifier} {entries : List (String × RecordIdentifier)}
    (h : copying.childNodeEntries superRoot = .ok entries) (writer : σ) :
    Related copying omissions ((Compactor.new writer).onPath superRoot)
      [⟨superRoot, none, false, entries, []⟩]
      (start (walkGraph copying omissions) (Visit.root superRoot) writer) where
  stack := by
    refine ⟨⟨rfl, rfl, rfl, ?_, rfl⟩, ⟨fun _ => rfl, fun _ => rfl⟩, trivial⟩
    simp only [walkGraph, Visit.root, Visit.retained, Copying.entries_of_ok copying h]
    rfl
  memo := by
    intro v
    simp [Compactor.memoized, Compactor.onPath, Compactor.new, start]
  nodesOnPath := by
    intro record
    simp [Compactor.onPath, Compactor.new, start, path, walkGraph, Visit.root]
  writer := rfl
  compacted := rfl
  counted := rfl

/-- A copy ends as the walk over its visits does, unless a read fails. -/
theorem deepCopy_agrees (n : Nat) (writer : σ) (superRoot : RecordIdentifier) :
    (∃ record error,
        deepCopySuperRootOmittingSubtrees copying omissions n writer superRoot = .failed error ∧
        copying.childNodeEntries record = .error error) ∨
      Agrees copying omissions (copyEmissions copying omissions n writer superRoot)
        (deepCopySuperRootOmittingSubtrees copying omissions n writer superRoot)
        (run (walkGraph copying omissions) (writeVisit copying) n
          (start (walkGraph copying omissions) (Visit.root superRoot) writer)) := by
  have hmemo : (Compactor.new writer).memoized omissions superRoot false = none := by
    simp [Compactor.memoized, Compactor.new]
  have hpath : superRoot ∉ (Compactor.new writer).nodesOnPath := Finset.notMem_empty _
  cases hentries : copying.childNodeEntries superRoot with
  | error error =>
    refine .inl ⟨superRoot, error, ?_, hentries⟩
    rw [deepCopySuperRootOmittingSubtrees, compactTree, enter, hmemo]
    dsimp only
    rw [if_neg hpath, hentries]
  | ok entries =>
    have henter : enter copying omissions (Compactor.new writer) superRoot false =
        .fresh ⟨superRoot, none, false, entries, []⟩ := by
      rw [enter, hmemo]
      dsimp only
      rw [if_neg hpath, hentries]
    have hrelated : Related copying omissions ((Compactor.new writer).onPath superRoot)
        [⟨superRoot, none, false, entries, []⟩] _ := related_start hentries writer
    have hrounds := hrelated.rounds (walking_start _ _ _ writer) n
    rw [deepCopySuperRootOmittingSubtrees, copyEmissions, compactTree, henter]
    dsimp only
    rcases hrounds with ⟨record, error, hfailed, hread⟩ | hagrees
    · exact .inl ⟨record, error, by rw [hfailed], hread⟩
    · right
      rw [show (start (walkGraph copying omissions) (Visit.root superRoot) writer).emitted = []
        from rfl, List.map_nil, List.nil_append] at hagrees
      generalize rounds copying omissions n ((Compactor.new writer).onPath superRoot)
        [⟨superRoot, none, false, entries, []⟩] = outcome at hagrees
      generalize run (walkGraph copying omissions) (writeVisit copying) n
        (start (walkGraph copying omissions) (Visit.root superRoot) writer) = outcome' at hagrees
      cases hagrees with
      | returned hrelated hemission =>
        dsimp only
        rw [if_pos hrelated.counted]
        exact .returned hrelated hemission
      | more hrelated hemission => exact .more hrelated hemission
      | cycle v => exact .cycle v
      | failed error => exact .failed error

/-! ## When the memo is coherent -/

def Copying.Child (copying : Copying σ) (record child : RecordIdentifier) : Prop :=
  ∃ name, (name, child) ∈ copying.entries record

/-- The ancestors on the paths from the content root, and from what else is reached outside the
checkpoints, down to an omitted record are memoized per scope.  What only checkpoints reach need
not be. -/
def Omissions.CoverAncestors (omissions : Omissions) (copying : Copying σ)
    (superRoot : RecordIdentifier) : Prop :=
  ∀ v, (walkGraph copying omissions).Reach (Visit.root superRoot) v → v.level ≠ .superRoot →
    v.withinCheckpoints = false → ∀ omitted ∈ omissions.omittedSubtreeRecords,
    Relation.TransGen copying.Child v.record omitted →
    v.record ∈ omissions.contextDependentRecords

/-- A container that loses a checkpoint is reached as the container only. -/
def Omissions.ContainerApart (omissions : Omissions) (copying : Copying σ)
    (superRoot : RecordIdentifier) : Prop :=
  ∀ v w, (walkGraph copying omissions).Reach (Visit.root superRoot) v →
    (walkGraph copying omissions).Reach (Visit.root superRoot) w → v.record = w.record →
    v.level = .container → w.level ≠ .container →
    ∀ checkpoint ∈ copying.entries v.record, checkpoint.1 ∉ omissions.omittedCheckpoints

section Coherent

variable {superRoot : RecordIdentifier} {v w c : Visit}

/-- What a child of a visit is. -/
theorem child_walkGraph (h : (walkGraph copying omissions).Child v c) :
    ∃ name, (name, c.record) ∈ v.retained omissions (copying.entries v.record) ∧
      v.child omissions name c.record = some c := by
  obtain ⟨name, hmem⟩ := h
  obtain ⟨entry, hentry, heq⟩ := List.mem_map.mp hmem
  have hchild : v.child omissions entry.1 entry.2 = some c := congrArg Prod.snd heq
  obtain ⟨-, hrecord, -⟩ := Visit.child_eq_some hchild
  rw [hrecord]
  exact ⟨entry.1, hentry, hchild⟩

theorem Visit.mem_of_mem_retained {v : Visit} {entries : List (String × RecordIdentifier)}
    {entry : String × RecordIdentifier} (h : entry ∈ v.retained omissions entries) :
    entry ∈ entries := by
  rw [Visit.retained] at h
  split at h
  · exact (List.mem_filter.mp h).1
  · exact h

section

variable (h : (walkGraph copying omissions).Child v c)
include h

/-- A child of a visit is a child of its record. -/
theorem Copying.child_of_child :
    copying.Child v.record c.record := by
  obtain ⟨name, hmem, -⟩ := child_walkGraph h
  exact ⟨name, Visit.mem_of_mem_retained hmem⟩

theorem level_of_child : c.level ≠ .superRoot := by
  obtain ⟨name, -, hchild⟩ := child_walkGraph h
  obtain ⟨-, -, -, hlevel⟩ := Visit.child_eq_some hchild
  rw [hlevel]
  split <;> simp

/-- The scope is settled below the super-root. -/
theorem within_of_child
    (hlevel : v.level ≠ .superRoot) : c.withinCheckpoints = v.withinCheckpoints := by
  obtain ⟨name, -, hchild⟩ := child_walkGraph h
  obtain ⟨-, -, hwithin, -⟩ := Visit.child_eq_some hchild
  have hcontainer : v.isContainer name = false := by
    rw [Visit.isContainer, beq_eq_false_iff_ne.mpr hlevel, Bool.false_and]
  rw [hwithin, hcontainer, Bool.or_false]

end

theorem within_of_transGen (h : Relation.TransGen (walkGraph copying omissions).Child v w)
    (hlevel : v.level ≠ .superRoot) : w.withinCheckpoints = v.withinCheckpoints := by
  have hboth : w.withinCheckpoints = v.withinCheckpoints ∧ w.level ≠ .superRoot := by
    induction h with
    | single hc => exact ⟨within_of_child hc hlevel, level_of_child hc⟩
    | tail _ hc ih => exact ⟨(within_of_child hc ih.2).trans ih.1, level_of_child hc⟩
  exact hboth.1

theorem level_of_reach (h : (walkGraph copying omissions).Reach (Visit.root superRoot) v)
    (hrecord : v.record ≠ superRoot) : v.level ≠ .superRoot := by
  rcases Relation.ReflTransGen.cases_tail h with rfl | ⟨u, -, hc⟩
  · exact (hrecord rfl).elim
  · exact level_of_child hc

theorem keyedOnPaths_walkGraph :
    (walkGraph copying omissions).KeyedOnPaths (Visit.root superRoot) := by
  intro v w hv hvw hplace hroot
  have hrecord : v.record = w.record := hplace
  have hwithin := within_of_transGen hvw (level_of_reach hv hroot)
  show v.key omissions = w.key omissions
  rw [Visit.key, Visit.key, hrecord, hwithin]

/-- Below the super-root, and without an omission below its record, a visit keeps the children
that are read in the scope of the visit. -/
theorem kept_of_apart (hlevel : v.level ≠ .superRoot)
    (hapart : ∀ child ∈ v.retained omissions (copying.entries v.record),
      child.2 ∉ omissions.omittedSubtreeRecords) :
    (walkGraph copying omissions).kept v =
      (v.retained omissions (copying.entries v.record)).map
        fun child => (child.1, ⟨child.2, v.withinCheckpoints, .inner⟩) := by
  have hcontainer : ∀ name, v.isContainer name = false := fun name => by
    rw [Visit.isContainer, beq_eq_false_iff_ne.mpr hlevel, Bool.false_and]
  rw [Graph.kept, Graph.keptOf]
  simp only [walkGraph, Visit.childVisits, List.filterMap_map]
  rw [← List.filterMap_eq_map, List.filterMap_congr]
  intro child hchild
  simp [Visit.child, hcontainer, hapart child hchild]

/-- Two visits of a record with nothing omitted below it have the same tree. -/
theorem unfolds_of_apart {x : Tree RecordIdentifier String}
    (hx : (walkGraph copying omissions).Unfolds v x) (hrecord : w.record = v.record)
    (hv : v.level ≠ .superRoot) (hw : w.level ≠ .superRoot)
    (hretained : w.retained omissions (copying.entries w.record) =
      v.retained omissions (copying.entries v.record))
    (hapart : ∀ omitted ∈ omissions.omittedSubtreeRecords,
      ¬Relation.TransGen copying.Child v.record omitted) :
    (walkGraph copying omissions).Unfolds w x := by
  induction hx generalizing w with
  | node v trees names below ih =>
    have hv' : ∀ child ∈ v.retained omissions (copying.entries v.record),
        child.2 ∉ omissions.omittedSubtreeRecords := by
      intro child hchild homitted
      exact hapart child.2 homitted (.single ⟨child.1, Visit.mem_of_mem_retained hchild⟩)
    have hkv := kept_of_apart hv hv'
    have hkw := kept_of_apart (v := w) hw (hretained ▸ hv')
    rw [hretained] at hkw
    have hplace : (walkGraph copying omissions).place v = (walkGraph copying omissions).place w :=
      hrecord.symm
    rw [hplace]
    refine .node w trees ?_ ?_
    · rw [names, hkv, hkw, List.map_map, List.map_map]
      rfl
    · intro i hc ht
      have hi : i < (v.retained omissions (copying.entries v.record)).length := by
        rw [hkw, List.length_map] at hc
        exact hc
      have hcv : i < ((walkGraph copying omissions).kept v).length := by
        rw [hkv, List.length_map]
        exact hi
      have hgv : ((walkGraph copying omissions).kept v)[i].2 =
          ⟨(v.retained omissions (copying.entries v.record))[i].2, v.withinCheckpoints, .inner⟩ := by
        simp [hkv]
      have hgw : ((walkGraph copying omissions).kept w)[i].2 =
          ⟨(v.retained omissions (copying.entries v.record))[i].2, w.withinCheckpoints, .inner⟩ := by
        simp [hkw]
      have hmem := Visit.mem_of_mem_retained (List.getElem_mem hi)
      refine ih i hcv ht ?_ ?_ ?_ ?_ ?_
      · rw [hgv, hgw]
      · rw [hgv]
        simp
      · rw [hgw]
        simp
      · rw [hgv, hgw]
        rfl
      · rw [hgv]
        intro omitted homitted hbelow
        exact hapart omitted homitted (.head ⟨_, hmem⟩ hbelow)

theorem retained_eq (hapart : omissions.ContainerApart copying superRoot)
    (hv : (walkGraph copying omissions).Reach (Visit.root superRoot) v)
    (hw : (walkGraph copying omissions).Reach (Visit.root superRoot) w)
    (hrecord : v.record = w.record) :
    w.retained omissions (copying.entries w.record) =
      v.retained omissions (copying.entries v.record) := by
  have hall : ∀ u : Visit, (∀ checkpoint ∈ copying.entries u.record,
      checkpoint.1 ∉ omissions.omittedCheckpoints) →
      u.retained omissions (copying.entries u.record) = copying.entries u.record := by
    intro u hu
    rw [Visit.retained]
    split
    · exact List.filter_eq_self.mpr fun checkpoint hmem => by simpa using hu checkpoint hmem
    · rfl
  by_cases hlv : v.level = .container
  · by_cases hlw : w.level = .container
    · simp only [Visit.retained, hlv, hlw, hrecord, if_true]
    · have hkeep := hapart v w hv hw hrecord hlv hlw
      rw [hall v hkeep, hall w (hrecord ▸ hkeep), hrecord]
  · by_cases hlw : w.level = .container
    · have hkeep := hapart w v hw hv hrecord.symm hlw hlv
      rw [hall w hkeep, hall v (hrecord ▸ hkeep), hrecord]
    · simp only [Visit.retained, hlv, hlw, hrecord, if_false]

/-- What the documentation of the omissions promises makes the memo coherent. -/
theorem coherent_walkGraph (hcover : omissions.CoverAncestors copying superRoot)
    (hapart : omissions.ContainerApart copying superRoot) :
    (walkGraph copying omissions).Coherent (Visit.root superRoot) := by
  intro v w x hv hw hroot hkey hx
  have hrecord : v.record = w.record := congrArg Prod.fst hkey
  have hvl := level_of_reach hv hroot
  have hwl := level_of_reach hw (hrecord ▸ hroot)
  have hretained := retained_eq hapart hv hw hrecord
  by_cases hwithin : w.withinCheckpoints = v.withinCheckpoints
  · have hchildren : (walkGraph copying omissions).children w =
        (walkGraph copying omissions).children v := by
      simp only [walkGraph, hretained, Visit.childVisits]
      refine List.map_congr_left fun child _ => ?_
      simp only [Visit.child, Visit.isContainer, beq_eq_false_iff_ne.mpr hvl,
        beq_eq_false_iff_ne.mpr hwl, hwithin]
    obtain ⟨trees, rfl, hall⟩ := unfolds_iff.mp hx
    refine unfolds_iff.mpr ⟨trees, ?_, ?_⟩
    · show MemoWalk.Tree.node v.record trees = MemoWalk.Tree.node w.record trees
      rw [hrecord]
    · rwa [Graph.kept, hchildren]
  · -- one of the two is outside the checkpoints, and the memo does not tell them apart
    have hcontext : v.record ∉ omissions.contextDependentRecords := by
      intro hcontext
      have hkey' : v.key omissions = w.key omissions := hkey
      exact hwithin (by simpa [Visit.key, hcontext, ← hrecord] using hkey'.symm)
    refine unfolds_of_apart hx hrecord.symm hvl hwl hretained fun omitted homitted hbelow => ?_
    cases hscope : v.withinCheckpoints with
    | false => exact hcontext (hcover v hv hvl hscope omitted homitted hbelow)
    | true =>
      have hscope' : w.withinCheckpoints = false :=
        Bool.eq_false_iff.mpr fun h => hwithin (h.trans hscope.symm)
      exact hcontext (hrecord ▸ hcover w hw hwl hscope' omitted homitted (hrecord ▸ hbelow))

end Coherent

/-! ## The end of a copy -/

section Ends

/-- The key of the memo, from what the copy knows of a visit. -/
def emissionKey (omissions : Omissions) (e : RecordIdentifier × Bool) :
    RecordIdentifier × Option Bool :=
  (e.1, if e.1 ∈ omissions.contextDependentRecords then some e.2 else none)

variable {record : RecordIdentifier} {records : Finset RecordIdentifier}

/-- A record that is not context dependent is emitted at most once, in whatever scope. -/
theorem count_record_le_one {emitted : List (RecordIdentifier × Bool)}
    (hnodup : (emitted.map (emissionKey omissions)).Nodup)
    (hrecord : record ∉ omissions.contextDependentRecords) :
    (emitted.map Prod.fst).count record ≤ 1 := by
  have hcount := List.nodup_iff_count_le_one.mp hnodup (record, none)
  rw [List.count_eq_countP, List.countP_map] at hcount ⊢
  refine le_trans (List.countP_mono_left ?_) hcount
  intro e _ he
  have heq : e.1 = record := by simpa using he
  simp [emissionKey, heq, hrecord]

def visitsOf (records : Finset RecordIdentifier) : Finset Visit :=
  (records ×ˢ ({false, true} : Finset Bool) ×ˢ
    ({.superRoot, .container, .inner} : Finset Level)).image fun v => ⟨v.1, v.2.1, v.2.2⟩

theorem mem_visitsOf {v : Visit} (h : v.record ∈ records) :
    v ∈ visitsOf records := by
  obtain ⟨record, within, level⟩ := v
  refine Finset.mem_image.mpr ⟨(record, within, level), ?_, rfl⟩
  simp only [Finset.mem_product, Finset.mem_insert, Finset.mem_singleton]
  refine ⟨h, ?_, ?_⟩
  · cases within <;> simp
  · cases level <;> simp

theorem record_mem_of_reach {superRoot : RecordIdentifier} (hroot : superRoot ∈ records)
    (hclosed : ∀ record ∈ records, ∀ child, copying.Child record child → child ∈ records)
    {v : Visit} (h : (walkGraph copying omissions).Reach (Visit.root superRoot) v) :
    v.record ∈ records := by
  induction h with
  | refl => exact hroot
  | tail _ hc ih => exact hclosed _ ih _ (Copying.child_of_child hc)

variable (copying omissions) in
/-- Emissions without a word on what is written. -/
theorem emitSpec_trivial (superRoot : RecordIdentifier) :
    EmitSpec (walkGraph copying omissions) (Visit.root superRoot) (fun _ => True)
      (fun _ _ _ => True) (writeVisit copying) :=
  ⟨fun _ _ _ _ _ => ⟨trivial, trivial, fun _ _ _ => trivial⟩⟩

/-- What is left when the copy of a super-root returns. -/
structure Returned (copying : Copying σ) (omissions : Omissions) (superRoot : RecordIdentifier)
    (emitted : List (RecordIdentifier × Bool)) (c : Compactor σ) : Prop where
  nodesOnPath : c.nodesOnPath = ∅
  compactedNodes : c.compactedNodes = emitted.length
  reached : ∀ e ∈ emitted, ∃ v, (walkGraph copying omissions).Reach (Visit.root superRoot) v ∧
    v.emission = e
  /-- No record is emitted twice in one scope. -/
  count_scope : ∀ record within, emitted.count (record, within) ≤ 1
  /-- A record that is not context dependent is emitted in one scope at most. -/
  count_record : ∀ record, record ∉ omissions.contextDependentRecords →
    (emitted.map Prod.fst).count record ≤ 1

theorem returned_of_related {root : Visit} {superRoot : RecordIdentifier} {c : Compactor σ}
    {s final : State Visit (RecordIdentifier × Option Bool) String RecordIdentifier σ}
    {value : RecordIdentifier} (hroot : root = Visit.root superRoot)
    (hwalking : Underway (walkGraph copying omissions) root s)
    (hstep : MemoWalk.step (walkGraph copying omissions) (writeVisit copying) s =
      .returned value final) (hrelated : Related copying omissions c [] final) :
    Returned copying omissions superRoot (final.emitted.map Visit.emission) c := by
  subst hroot
  obtain ⟨hstack, hnodup, hreached, -⟩ := hwalking.emitted_of_returned hstep
  have hkeys : ((final.emitted.map Visit.emission).map (emissionKey omissions)).Nodup := by
    rw [List.map_map]
    exact hnodup
  refine ⟨?_, ?_, ?_, ?_, ?_⟩
  · ext record
    rw [hrelated.nodesOnPath, hstack]
    simp [path]
  · rw [List.length_map]
    exact hrelated.compacted
  · intro e he
    obtain ⟨v, hv, rfl⟩ := List.mem_map.mp he
    exact ⟨v, hreached v hv, rfl⟩
  · intro record within
    exact List.nodup_iff_count_le_one.mp hkeys.of_map _
  · intro record hrecord
    exact count_record_le_one hkeys hrecord

/-- How a copy ends in `n` rounds: a read or a write fails, or a cycle that is there is refused,
or the copy returns with every emission made once.  When the omissions are as the copy relies
on, it returns from acyclic graphs only, and with every record it can reach. -/
def EndsAfter (copying : Copying σ) (omissions : Omissions) (superRoot : RecordIdentifier)
    (writer : σ) (n : Nat) : Prop :=
  (∃ error,
    deepCopySuperRootOmittingSubtrees copying omissions n writer superRoot = .failed error ∧
    ((∃ record, copying.childNodeEntries record = .error error) ∨
      ∃ record children out, copying.writeCopy record children out = .error error)) ∨
  (∃ record,
    deepCopySuperRootOmittingSubtrees copying omissions n writer superRoot = .cycle record ∧
    (walkGraph copying omissions).Cyclic (Visit.root superRoot)) ∨
  ∃ rewritten c,
    deepCopySuperRootOmittingSubtrees copying omissions n writer superRoot =
      .returned rewritten c ∧
    Returned copying omissions superRoot (copyEmissions copying omissions n writer superRoot) c ∧
    (omissions.CoverAncestors copying superRoot → omissions.ContainerApart copying superRoot →
      ¬(walkGraph copying omissions).Cyclic (Visit.root superRoot) ∧
      ∀ v, (walkGraph copying omissions).Reach (Visit.root superRoot) v →
        v.record ∈ (copyEmissions copying omissions n writer superRoot).map Prod.fst)

/-- On finitely many records a copy ends. -/
theorem deepCopySuperRoot_ends (copying : Copying σ) (omissions : Omissions)
    (superRoot : RecordIdentifier) (records : Finset RecordIdentifier) (hroot : superRoot ∈ records)
    (hclosed : ∀ record ∈ records, ∀ child, copying.Child record child → child ∈ records)
    (writer : σ) : ∃ n, EndsAfter copying omissions superRoot writer n := by
  have hvisits : ∀ v, (walkGraph copying omissions).Reach (Visit.root superRoot) v →
      v ∈ visitsOf records := fun v hv => mem_visitsOf (record_mem_of_reach hroot hclosed hv)
  have hstart : Underway (walkGraph copying omissions) (Visit.root superRoot)
      (start (τ := RecordIdentifier) (walkGraph copying omissions) (Visit.root superRoot) writer) :=
    walking_start _ _ _ writer
  obtain ⟨n, hfinal⟩ :
      ∃ n, (run (walkGraph copying omissions) (writeVisit copying) n _).Final :=
    exists_run_final hvisits hstart
  obtain ⟨s, hwalking, hrun⟩ := exists_last_round (fun _ _ => Underway.step) hstart hfinal
  refine ⟨n, ?_⟩
  rcases deepCopy_agrees n writer superRoot with ⟨record, error, hfailed, hread⟩ | hagrees
  · exact .inl ⟨error, hfailed, .inl ⟨record, hread⟩⟩
  generalize hcopy : deepCopySuperRootOmittingSubtrees copying omissions n writer superRoot =
    outcome at hagrees
  generalize hwalk : run (walkGraph copying omissions) (writeVisit copying) n _ = outcome'
    at hagrees
  rw [hwalk] at hrun hfinal
  cases hagrees with
  | more _ _ => exact hfinal.elim
  | failed error =>
    obtain ⟨v, children, out, hwrite⟩ := step_failed _ _ hrun.symm
    exact .inl ⟨error, hcopy, .inr ⟨v.record, children, out, hwrite⟩⟩
  | cycle v => exact .inr (.inl ⟨v.record, hcopy, hwalking.cyclic hrun.symm⟩)
  | @returned c rewritten final hrelated hemission =>
    refine .inr (.inr ⟨rewritten, c, hcopy, ?_, ?_⟩)
    · rw [← hemission]
      exact returned_of_related rfl hwalking hrun.symm hrelated
    · intro hcover hapart
      have hcoherent := coherent_walkGraph hcover hapart
      have hemits := emitSpec_trivial copying omissions superRoot
      obtain ⟨s', hvalued, hrun'⟩ := exists_last_round
        (fun _ _ h hstep => Valued.step hcoherent hemits h hstep)
        (valued_start trivial) (hwalk.symm ▸ hfinal)
      rw [hwalk] at hrun'
      refine ⟨hvalued.not_cyclic hcoherent keyedOnPaths_walkGraph hemits hrun'.symm, ?_⟩
      intro v hv
      have hmem := hvalued.emitted_of_reach hemits hrun'.symm hv
      rw [← hemission, List.map_map]
      exact hmem

/-- A record of one segment. -/
def numbered (number : UInt32) : RecordIdentifier := ⟨⟨0, 0xA000000000000000⟩, number⟩

/-- A super-root (1) with a content root (3), below which a version history (4) lies, and with
checkpoints (2): one shares the content root, and a retired one (6). -/
def purgedSource : Copying UInt32 where
  childNodeEntries record :=
    if record = numbered 1 then .ok [("root", numbered 3), ("checkpoints", numbered 2)]
    else if record = numbered 2 then .ok [("retired", numbered 6), ("checkpoint", numbered 3)]
    else if record = numbered 3 then .ok [("history", numbered 4)]
    else if record = numbered 4 then .ok [("frozen", numbered 5)]
    else .ok []
  writeCopy _ _ next := .ok (numbered next, next + 1)

/-- The history is purged; the content root is above it, and the container is not. -/
def purgedOmissions : Omissions := ⟨{"retired"}, {numbered 4}, {numbered 3}⟩

/-- All that the copy of `purgedSource` can come to: the history as a part of the checkpoint. -/
def purgedVisits : List Visit :=
  [.root (numbered 1), ⟨numbered 3, false, .inner⟩, ⟨numbered 2, true, .container⟩,
    ⟨numbered 3, true, .inner⟩, ⟨numbered 4, true, .inner⟩, ⟨numbered 5, true, .inner⟩]

/-- Children stand in the list and have higher numbers. -/
theorem purgedVisits_closed : ∀ v ∈ purgedVisits,
    ∀ child ∈ (walkGraph purgedSource purgedOmissions).children v, ∀ c ∈ child.2,
      c ∈ purgedVisits ∧ v.record.recordNumber < c.record.recordNumber := by
  decide

theorem mem_purgedVisits {v : Visit}
    (h : (walkGraph purgedSource purgedOmissions).Reach (Visit.root (numbered 1)) v) :
    v ∈ purgedVisits := by
  induction h with
  | refl => exact List.mem_cons_self
  | tail _ hchild ih =>
    obtain ⟨name, hmem⟩ := hchild
    exact (purgedVisits_closed _ ih _ hmem _ rfl).1

theorem purged_acyclic :
    ¬(walkGraph purgedSource purgedOmissions).Cyclic (Visit.root (numbered 1)) := by
  rintro ⟨v, w, hv, hvw, hplace⟩
  have hboth : w ∈ purgedVisits ∧ v.record.recordNumber < w.record.recordNumber := by
    clear hplace
    induction hvw with
    | single hchild =>
      obtain ⟨name, hmem⟩ := hchild
      exact purgedVisits_closed _ (mem_purgedVisits hv) _ hmem _ rfl
    | tail _ hchild ih =>
      obtain ⟨name, hmem⟩ := hchild
      obtain ⟨hmember, hstep⟩ := purgedVisits_closed _ ih.1 _ hmem _ rfl
      exact ⟨hmember, UInt32.lt_trans ih.2 hstep⟩
  have hrecord : v.record = w.record := hplace
  exact UInt32.ne_of_lt hboth.2 (congrArg _ hrecord)

theorem purged_coverAncestors : purgedOmissions.CoverAncestors purgedSource (numbered 1) := by
  intro v hv hlevel hscope _ _ _
  have hall : ∀ v ∈ purgedVisits, v.level ≠ .superRoot → v.withinCheckpoints = false →
      v.record ∈ purgedOmissions.contextDependentRecords := by
    decide
  exact hall v (mem_purgedVisits hv) hlevel hscope

theorem purged_containerApart : purgedOmissions.ContainerApart purgedSource (numbered 1) := by
  intro v w hv hw hrecord hcontainer hother
  have hall : ∀ v ∈ purgedVisits, ∀ w ∈ purgedVisits, v.record = w.record →
      v.level = .container → w.level = .container := by
    decide
  exact absurd (hall v (mem_purgedVisits hv) w (mem_purgedVisits hw) hrecord hcontainer) hother

theorem child_purgedSource {record child : RecordIdentifier} (h : purgedSource.Child record child) :
    child ∈ ({numbered 1, numbered 2, numbered 3, numbered 4, numbered 5, numbered 6} :
      Finset RecordIdentifier) := by
  obtain ⟨name, hmem⟩ := h
  simp only [Copying.entries, purgedSource] at hmem
  split_ifs at hmem
  all_goals simp only [List.mem_cons, Prod.mk.injEq, List.not_mem_nil, or_false] at hmem
  all_goals simp only [Finset.mem_insert, Finset.mem_singleton]; tauto

/-- The purged history is copied for the checkpoint, which stays, and for nothing else. -/
theorem deepCopySuperRoot_ends_purged : ∃ n rewritten c,
    deepCopySuperRootOmittingSubtrees purgedSource purgedOmissions n 7 (numbered 1) =
      .returned rewritten c ∧
    Returned purgedSource purgedOmissions (numbered 1)
      (copyEmissions purgedSource purgedOmissions n 7 (numbered 1)) c ∧
    numbered 4 ∈ (copyEmissions purgedSource purgedOmissions n 7 (numbered 1)).map Prod.fst := by
  obtain ⟨n, hends⟩ := deepCopySuperRoot_ends purgedSource purgedOmissions (numbered 1)
    {numbered 1, numbered 2, numbered 3, numbered 4, numbered 5, numbered 6} (by simp)
    (fun _ _ _ hchild => child_purgedSource hchild) 7
  rcases hends with ⟨error, -, ⟨record, hread⟩ | ⟨record, children, out, hwrite⟩⟩ |
    ⟨record, -, hcyclic⟩ | ⟨rewritten, c, hcopy, hreturned, hall⟩
  · simp only [purgedSource] at hread
    split_ifs at hread
  · cases hwrite
  · exact absurd hcyclic purged_acyclic
  · have hcheckpoint : (walkGraph purgedSource purgedOmissions).Reach (Visit.root (numbered 1))
        ⟨numbered 4, true, .inner⟩ := by
      have hcontainer : (walkGraph purgedSource purgedOmissions).Child (Visit.root (numbered 1))
          ⟨numbered 2, true, .container⟩ := ⟨"checkpoints", by decide⟩
      have hshared : (walkGraph purgedSource purgedOmissions).Child
          ⟨numbered 2, true, .container⟩ ⟨numbered 3, true, .inner⟩ := ⟨"checkpoint", by decide⟩
      have hhistory : (walkGraph purgedSource purgedOmissions).Child ⟨numbered 3, true, .inner⟩
          ⟨numbered 4, true, .inner⟩ := ⟨"history", by decide⟩
      exact .tail (.tail (.tail .refl hcontainer) hshared) hhistory
    exact ⟨n, rewritten, c, hcopy, hreturned,
      (hall purged_coverAncestors purged_containerApart).2 _ hcheckpoint⟩

/-- A super-root (1) with a content root (2) that a checkpoint (below 3) shares, and a child (4)
of the content root that is its own child.  A copy is the next number. -/
def sharedCycle : Copying UInt32 where
  childNodeEntries record :=
    if record = numbered 1 then .ok [("root", numbered 2), ("checkpoints", numbered 3)]
    else if record = numbered 2 then .ok [("loop", numbered 4)]
    else if record = numbered 3 then .ok [("checkpoint", numbered 2)]
    else if record = numbered 4 then .ok [("loop", numbered 4)]
    else .ok []
  writeCopy _ _ next := .ok (numbered next, next + 1)

/-- The child is omitted from the head, and its parent is not memoized per scope. -/
def sharedOmission : Omissions := ⟨∅, {numbered 4}, ∅⟩

/-- The checkpoint reaches the cycle, but it is served the head's copy, and the copy returns. -/
theorem deepCopySuperRoot_masks_cycle :
    (walkGraph sharedCycle sharedOmission).Cyclic (Visit.root (numbered 1)) ∧
      (deepCopySuperRootOmittingSubtrees sharedCycle sharedOmission 9 5 (numbered 1)).result =
        some (.ok (numbered 7, 3)) := by
  have hcheckpoints : (walkGraph sharedCycle sharedOmission).Child (Visit.root (numbered 1))
      ⟨numbered 3, true, .container⟩ := ⟨"checkpoints", by decide⟩
  have hshared : (walkGraph sharedCycle sharedOmission).Child ⟨numbered 3, true, .container⟩
      ⟨numbered 2, true, .inner⟩ := ⟨"checkpoint", by decide⟩
  have hloop : (walkGraph sharedCycle sharedOmission).Child ⟨numbered 2, true, .inner⟩
      ⟨numbered 4, true, .inner⟩ := ⟨"loop", by decide⟩
  have hself : (walkGraph sharedCycle sharedOmission).Child ⟨numbered 4, true, .inner⟩
      ⟨numbered 4, true, .inner⟩ := ⟨"loop", by decide⟩
  exact ⟨⟨_, _, .tail (.tail (.tail .refl hcheckpoints) hshared) hloop, .single hself, rfl⟩, by rfl⟩

end Ends

end Froe.Compaction
