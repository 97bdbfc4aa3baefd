import Froe.Journal.Scan
import Froe.Lib.Checked
import Mathlib.Data.PNat.Basic

/-!
# Which lines of the journal stay

Maintenance keeps the lines whose revision can be read and, with a bound, only the newest
of them.  The bound is found by a scan from the newest line backwards; a second scan
sorts every line into those that stay and those that go.
-/

namespace Froe

open List (append_nil filter_append map_append)

/-! ## The analysis -/

/-- Why a line is removed. -/
inductive JournalRemovalReason where
  | parserSkippedNoSpace
  | invalidRecordIdentifier
  | missingSegment
  | unreadableRevision
  | beyondRetention
deriving DecidableEq, Repr

/-- A removed line, with the beginning of its text. -/
structure JournalLineRemoval where
  lineNumber : Nat
  recordIdentifier : Option RecordIdentifier
  reason : JournalRemovalReason
  preview : Bytes
  previewTruncated : Bool
deriving DecidableEq, Repr

/-- How much of a removed line is shown. -/
def journalLinePreviewLimit : Nat := 160

/-- A line without its terminator. -/
def RawJournalLine.contentBytes (line : RawJournalLine) : Bytes :=
  line.rawBytes.take line.contentLength

/-- What is told of a removed line. -/
def journalLineRemoval (index : Nat) (line : RawJournalLine)
    (recordIdentifier : Option RecordIdentifier) (reason : JournalRemovalReason) :
    JournalLineRemoval :=
  let content := line.contentBytes
  let previewLength := min content.length journalLinePreviewLimit
  ⟨index + 1, recordIdentifier, reason, content.take previewLength,
    previewLength ≠ content.length⟩

/-- What the repository says about revisions: whether it has their segment, and whether their
whole tree reads. -/
structure Revisions where
  containsSegment : SegmentIdentifier → Bool
  verify : RecordIdentifier → Bool

/-- The verdicts so far. -/
abbrev Validity := RecordIdentifier → Option Bool

/-- Whether a revision reads; its tree is walked only once. -/
def revisionIsReadable (revisions : Revisions) (identifier : RecordIdentifier)
    (validity : Validity) : Bool × Validity :=
  match validity identifier with
  | some readable => (readable, validity)
  | none =>
    let readable := revisions.verify identifier
    (readable, Function.update validity identifier (some readable))

/-- The scan for the bound, over the lines from the newest on. -/
def retentionBoundaryFrom (revisions : Revisions) :
    Nat → Validity → List (RawJournalLine × Nat) → Option Nat × Validity
  | _, validity, [] => (none, validity)
  | remaining, validity, (line, index) :: older =>
    match line.classification with
    | .record record =>
      if revisions.containsSegment record.recordIdentifier.segment then
        match revisionIsReadable revisions record.recordIdentifier validity with
        | (true, validity) =>
          if remaining - 1 = 0 then (some index, validity)
          else retentionBoundaryFrom revisions (remaining - 1) validity older
        | (false, validity) => retentionBoundaryFrom revisions remaining validity older
      else retentionBoundaryFrom revisions remaining validity older
    | _ => retentionBoundaryFrom revisions remaining validity older

/-- The first line of the newest revisions that read. -/
def journalRetentionBoundary (revisions : Revisions) (lines : List RawJournalLine)
    (retention : ℕ+) (validity : Validity) : Option Nat × Validity :=
  retentionBoundaryFrom revisions retention validity lines.zipIdx.reverse

/-- The bound of an analysis, when it has one. -/
def analysisBoundary (revisions : Revisions) (lines : List RawJournalLine)
    (retention : Option ℕ+) (validity : Validity) : Option Nat × Validity :=
  match retention with
  | none => (none, validity)
  | some bound => journalRetentionBoundary revisions lines bound validity

/-- The counts and the lists of an analysis under way. -/
structure JournalTally where
  parserIgnored : Nat
  missingSegments : Nat
  unreadableRevisions : Nat
  beyondRetention : Nat
  removals : List JournalLineRemoval
  retainedIndexes : List Nat
  retainedRecordIds : List RecordIdentifier

/-- No line has been seen. -/
def JournalTally.empty : JournalTally := ⟨0, 0, 0, 0, [], [], []⟩

/-- What becomes of a line. -/
inductive LineFate where
  | retained (identifier : RecordIdentifier)
  | removed (identifier : Option RecordIdentifier) (reason : JournalRemovalReason)

/-- What becomes of a line. -/
def lineFate (revisions : Revisions) (retentionBoundary : Option Nat) (validity : Validity)
    (line : RawJournalLine) (index : Nat) : LineFate × Validity :=
  match line.classification with
  | .parserSkippedNoSpace => (.removed none .parserSkippedNoSpace, validity)
  | .invalidRecordIdentifier _ => (.removed none .invalidRecordIdentifier, validity)
  | .record record =>
    let identifier := record.recordIdentifier
    if !revisions.containsSegment identifier.segment then
      (.removed (some identifier) .missingSegment, validity)
    -- before the walk: a line beyond the bound goes whether or not its tree reads
    else if retentionBoundary.any (index < ·) then
      (.removed (some identifier) .beyondRetention, validity)
    else
      match revisionIsReadable revisions identifier validity with
      | (true, validity) => (.retained identifier, validity)
      | (false, validity) => (.removed (some identifier) .unreadableRevision, validity)

/-- Counts a removal. -/
def JournalTally.count (tally : JournalTally) : JournalRemovalReason → JournalTally
  | .parserSkippedNoSpace => { tally with parserIgnored := tally.parserIgnored + 1 }
  | .invalidRecordIdentifier => { tally with parserIgnored := tally.parserIgnored + 1 }
  | .missingSegment => { tally with missingSegments := tally.missingSegments + 1 }
  | .unreadableRevision => { tally with unreadableRevisions := tally.unreadableRevisions + 1 }
  | .beyondRetention => { tally with beyondRetention := tally.beyondRetention + 1 }

/-- Notes what becomes of a line. -/
def JournalTally.record (tally : JournalTally) (line : RawJournalLine) (index : Nat) :
    LineFate → JournalTally
  | .retained identifier =>
    { tally with
      retainedIndexes := tally.retainedIndexes ++ [index]
      retainedRecordIds := tally.retainedRecordIds ++ [identifier] }
  | .removed identifier reason =>
    { tally.count reason with
      removals := tally.removals ++ [journalLineRemoval index line identifier reason] }

/-- Sorts every line into retained or removed. -/
def classifyJournalLines (revisions : Revisions) (lines : List RawJournalLine)
    (retentionBoundary : Option Nat) (validity : Validity) : JournalTally :=
  (lines.zipIdx.foldl (fun state entry =>
    let fate := lineFate revisions retentionBoundary state.2 entry.1 entry.2
    (state.1.record entry.1 entry.2 fate.1, fate.2)) (JournalTally.empty, validity)).1

/-- The record of a line whose segment the repository has. -/
def presentRecord (revisions : Revisions) (line : RawJournalLine) : Option RecordIdentifier :=
  match line.classification with
  | .record record =>
    if revisions.containsSegment record.recordIdentifier.segment then some record.recordIdentifier
    else none
  | _ => none

/-- The newest record of the raw journal must be the head. -/
def rejectHeadDisagreement (revisions : Revisions) (lines : List RawJournalLine)
    (currentHead : RecordIdentifier) : Result Unit :=
  match lines.reverse.findSome? (presentRecord revisions) with
  | none => invalid "no raw journal record references an existing segment"
  | some selected =>
    if selected ≠ currentHead then
      let head := currentHead.display
      let found := selected.display
      invalid s!"raw journal selected {found}, but the repository reader selected {head}"
    else .ok ()

/-- What a journal is to be replaced by. -/
structure JournalPlan where
  retainedRecordIds : List RecordIdentifier
  retainedRawLines : List Bytes
  removals : List JournalLineRemoval
  removedLines : Nat
  parserIgnored : Nat
  missingSegments : Nat
  unreadableRevisions : Nat
  beyondRetention : Nat

/-- A plan and the lines that it keeps. -/
structure JournalAnalysis where
  plan : JournalPlan
  retainedIndexes : List Nat
  retainedRecordIds : List RecordIdentifier

/-- Decides over all lines of a journal. -/
def analyzeJournalLines (revisions : Revisions) (lines : List RawJournalLine)
    (currentHead : RecordIdentifier) (retention : Option ℕ+) : Result JournalAnalysis := do
  rejectHeadDisagreement revisions lines currentHead
  let validity : Validity := fun identifier => if identifier = currentHead then some true else none
  let (retentionBoundary, validity) := analysisBoundary revisions lines retention validity
  let tally := classifyJournalLines revisions lines retentionBoundary validity
  if currentHead ∉ tally.retainedRecordIds then
    invalid "journal analysis would not retain the exact current head"
  else
    let removed := (Checked.checkedAdd tally.parserIgnored tally.missingSegments).bind fun count =>
      (Checked.checkedAdd count tally.unreadableRevisions).bind fun count =>
        Checked.checkedAdd count tally.beyondRetention
    match removed with
    | none => invalid "journal line accounting overflow"
    | some removedLines =>
      return {
        plan := {
          retainedRecordIds := tally.retainedRecordIds
          retainedRawLines := tally.retainedIndexes.filterMap fun index =>
            lines[index]?.map RawJournalLine.rawBytes
          removals := tally.removals
          removedLines := removedLines
          parserIgnored := tally.parserIgnored
          missingSegments := tally.missingSegments
          unreadableRevisions := tally.unreadableRevisions
          beyondRetention := tally.beyondRetention }
        retainedIndexes := tally.retainedIndexes
        retainedRecordIds := tally.retainedRecordIds }

/-! ## Verdicts -/

/-- The revisions that count as readable; the current head has been read before. -/
def Revisions.reads (revisions : Revisions) (currentHead identifier : RecordIdentifier) : Bool :=
  identifier = currentHead || revisions.verify identifier

/-- Verdicts that are true. -/
structure Validity.Sound (revisions : Revisions) (currentHead : RecordIdentifier)
    (validity : Validity) : Prop where
  known : ∀ identifier readable, validity identifier = some readable →
    readable = revisions.reads currentHead identifier
  head : validity currentHead = some true

theorem Validity.Sound.start (revisions : Revisions) (currentHead : RecordIdentifier) :
    Validity.Sound revisions currentHead
      fun identifier => if identifier = currentHead then some true else none where
  known identifier readable h := by
    rw [Option.ite_none_right_eq_some] at h
    obtain ⟨rfl, h⟩ := h
    cases h
    rw [Revisions.reads, decide_eq_true rfl, Bool.true_or]
  head := if_pos rfl

variable {revisions : Revisions} {currentHead : RecordIdentifier} {validity : Validity}
  {lines : List RawJournalLine}

variable (h : validity.Sound revisions currentHead)

include h in
theorem Validity.Sound.readable (identifier : RecordIdentifier) :
    ∃ validity', revisionIsReadable revisions identifier validity =
        (revisions.reads currentHead identifier, validity') ∧
      validity'.Sound revisions currentHead := by
  rw [revisionIsReadable]
  cases hknown : validity identifier with
  | some readable =>
    obtain rfl := h.known identifier readable hknown
    exact ⟨validity, rfl, h⟩
  | none =>
    have hne : identifier ≠ currentHead := by
      rintro rfl
      rw [h.head] at hknown
      cases hknown
    have hreads : revisions.reads currentHead identifier = revisions.verify identifier := by
      rw [Revisions.reads, decide_eq_false hne, Bool.false_or]
    refine ⟨_, by rw [hreads], fun other readable hother => ?_, ?_⟩
    · by_cases heq : other = identifier
      · subst heq
        rw [Function.update_self] at hother
        rw [hreads]
        exact (Option.some.inj hother).symm
      · rw [Function.update_of_ne heq] at hother
        exact h.known other readable hother
    · rw [Function.update_of_ne hne.symm]
      exact h.head

/-! ## The bound -/

/-- A record whose segment the repository has and whose tree reads. -/
def readableRecord (revisions : Revisions) (currentHead : RecordIdentifier)
    (line : RawJournalLine) : Option RecordIdentifier :=
  (presentRecord revisions line).filter (revisions.reads currentHead)

/-- The numbers of the lines that can be read. -/
def readableIndexes (revisions : Revisions) (currentHead : RecordIdentifier)
    (lines : List RawJournalLine) : List Nat :=
  (lines.zipIdx.filter fun entry =>
    (readableRecord revisions currentHead entry.1).isSome).map Prod.snd

include h in
theorem retentionBoundaryFrom_spec (more : Nat) (entries : List (RawJournalLine × Nat)) :
    (retentionBoundaryFrom revisions (more + 1) validity entries).1 =
        ((entries.filter fun entry =>
          (readableRecord revisions currentHead entry.1).isSome).map Prod.snd)[more]? ∧
      (retentionBoundaryFrom revisions (more + 1) validity entries).2.Sound revisions
        currentHead := by
  induction entries generalizing validity more with
  | nil => exact ⟨rfl, h⟩
  | cons entry older ih =>
    obtain ⟨line, index⟩ := entry
    rw [retentionBoundaryFrom]
    cases hread : readableRecord revisions currentHead line with
    | none =>
      rw [List.filter_cons_of_neg (by rw [hread]; nofun)]
      rw [readableRecord, presentRecord] at hread
      cases hclass : line.classification with
      | parserSkippedNoSpace => exact ih h more
      | invalidRecordIdentifier text => exact ih h more
      | record record =>
        rw [hclass] at hread
        dsimp only at hread ⊢
        by_cases hpresent : revisions.containsSegment record.recordIdentifier.segment = true
        · obtain ⟨validity', hverdict, hsound⟩ := h.readable record.recordIdentifier
          rw [if_pos hpresent, Option.filter_some, ite_eq_right_iff] at hread
          rw [if_pos hpresent, hverdict, Bool.eq_false_iff.mpr fun htrue => nomatch hread htrue]
          exact ih hsound more
        · rw [if_neg hpresent]
          exact ih h more
    | some identifier =>
      rw [List.filter_cons_of_pos (by rw [hread]; rfl)]
      rw [readableRecord, presentRecord] at hread
      cases hclass : line.classification with
      | parserSkippedNoSpace =>
        rw [hclass] at hread
        cases hread
      | invalidRecordIdentifier text =>
        rw [hclass] at hread
        cases hread
      | record record =>
        rw [hclass] at hread
        dsimp only at hread ⊢
        obtain ⟨hpresent, hreads⟩ := Option.filter_eq_some_iff.mp hread
        rw [Option.ite_none_right_eq_some] at hpresent
        obtain ⟨hpresent, hidentifier⟩ := hpresent
        obtain ⟨validity', hverdict, hsound⟩ := h.readable record.recordIdentifier
        rw [Option.some.inj hidentifier, hreads] at hverdict
        rw [if_pos hpresent, Option.some.inj hidentifier, hverdict]
        cases more with
        | zero => exact ⟨rfl, hsound⟩
        | succ more => exact ih hsound more

include h in
theorem journalRetentionBoundary_spec (lines : List RawJournalLine) (retention : ℕ+) :
    (journalRetentionBoundary revisions lines retention validity).1 =
        (readableIndexes revisions currentHead lines).reverse[retention.natPred]? ∧
      (journalRetentionBoundary revisions lines retention validity).2.Sound revisions
        currentHead := by
  have hspec := retentionBoundaryFrom_spec h retention.natPred lines.zipIdx.reverse
  rw [PNat.natPred_add_one, List.filter_reverse, List.map_reverse] at hspec
  exact hspec

/-- The newest of some lines. -/
def newest (retention : Option ℕ+) (indexes : List Nat) : List Nat :=
  match retention with
  | none => indexes
  | some bound => indexes.drop (indexes.length - bound)

/-- What is not below an element of an ascending list is the list from there on. -/
theorem filter_not_lt {before after : List Nat} {bound : Nat}
    (h : (before ++ bound :: after).Pairwise (· < ·)) :
    (before ++ bound :: after).filter (fun index => !decide (index < bound)) = bound :: after := by
  obtain ⟨-, hafter, hbefore⟩ := List.pairwise_append.mp h
  rw [filter_append, List.filter_eq_nil_iff.mpr, List.filter_eq_self.mpr, List.nil_append]
  · intro index hmem
    rw [Bool.not_eq_true', decide_eq_false_iff_not, Nat.not_lt]
    rcases List.mem_cons.mp hmem with rfl | hlater
    · exact Nat.le_refl _
    · exact ((List.pairwise_cons.mp hafter).1 index hlater).le
  · intro index hmem
    rw [decide_eq_true (hbefore index hmem bound (.head _))]
    decide

/-- The lines that are not below the bound are the newest. -/
theorem filter_retention {indexes : List Nat} (h : indexes.Pairwise (· < ·)) (retention : ℕ+) :
    indexes.filter (fun index => !(indexes.reverse[retention.natPred]?).any (index < ·)) =
      newest (some retention) indexes := by
  have hpred := PNat.natPred_add_one retention
  rw [newest]
  rcases Nat.lt_or_ge retention.natPred indexes.length with hlt | hge
  · rw [List.getElem?_reverse hlt]
    rw [show indexes.length - (retention : ℕ) = indexes.length - 1 - retention.natPred by omega]
    obtain ⟨position, hposition⟩ : ∃ position, indexes.length - 1 - retention.natPred = position :=
      ⟨_, rfl⟩
    have hinside : position < indexes.length := by omega
    have hdrop := List.drop_eq_getElem_cons hinside
    have hsplit := List.take_append_drop position indexes
    rw [hdrop] at hsplit
    have hfilter := filter_not_lt (hsplit ▸ h)
    rw [hsplit, ← hdrop] at hfilter
    rw [hposition, ← hfilter, List.getElem?_eq_getElem hinside]
    rfl
  · rw [List.getElem?_eq_none (by rw [List.length_reverse]; exact hge),
      Nat.sub_eq_zero_of_le (by omega), List.drop_zero]
    exact List.filter_eq_self.mpr fun _ _ => rfl

/-! ## The tally -/

/-- What becomes of a line by the true verdicts. -/
def trueFate (revisions : Revisions) (currentHead : RecordIdentifier)
    (retentionBoundary : Option Nat) (entry : RawJournalLine × Nat) : LineFate :=
  match entry.1.classification with
  | .parserSkippedNoSpace => .removed none .parserSkippedNoSpace
  | .invalidRecordIdentifier _ => .removed none .invalidRecordIdentifier
  | .record record =>
    let identifier := record.recordIdentifier
    if !revisions.containsSegment identifier.segment then
      .removed (some identifier) .missingSegment
    else if retentionBoundary.any (entry.2 < ·) then
      .removed (some identifier) .beyondRetention
    else if revisions.reads currentHead identifier then .retained identifier
    else .removed (some identifier) .unreadableRevision

include h in
theorem lineFate_spec (retentionBoundary : Option Nat) (entry : RawJournalLine × Nat) :
    (lineFate revisions retentionBoundary validity entry.1 entry.2).1 =
        trueFate revisions currentHead retentionBoundary entry ∧
      (lineFate revisions retentionBoundary validity entry.1 entry.2).2.Sound revisions
        currentHead := by
  rw [lineFate, trueFate]
  cases entry.1.classification with
  | parserSkippedNoSpace => exact ⟨rfl, h⟩
  | invalidRecordIdentifier text => exact ⟨rfl, h⟩
  | record record =>
    dsimp only
    split
    · exact ⟨rfl, h⟩
    · split
      · exact ⟨rfl, h⟩
      · obtain ⟨validity', hverdict, hsound⟩ := h.readable record.recordIdentifier
        rw [hverdict]
        cases revisions.reads currentHead record.recordIdentifier with
        | false => exact ⟨rfl, hsound⟩
        | true => exact ⟨rfl, hsound⟩

/-- The record of a line that is kept. -/
def LineFate.retained? : LineFate → Option RecordIdentifier
  | .retained identifier => some identifier
  | .removed _ _ => none

/-- The tally of some lines. -/
structure Tallied (fate : RawJournalLine × Nat → LineFate) (entries : List (RawJournalLine × Nat))
    (tally : JournalTally) : Prop where
  retainedIndexes : tally.retainedIndexes =
    (entries.filter fun entry => (fate entry).retained?.isSome).map Prod.snd
  retainedRecordIds : tally.retainedRecordIds =
    entries.filterMap fun entry => (fate entry).retained?
  removals : tally.removals.map JournalLineRemoval.lineNumber =
    (entries.filter fun entry => !(fate entry).retained?.isSome).map fun entry => entry.2 + 1
  counts : tally.parserIgnored + tally.missingSegments + tally.unreadableRevisions +
    tally.beyondRetention = tally.removals.length

theorem tallied_empty (fate : RawJournalLine × Nat → LineFate) :
    Tallied fate [] JournalTally.empty := ⟨rfl, rfl, rfl, rfl⟩

theorem Tallied.record {fate : RawJournalLine × Nat → LineFate}
    {entries : List (RawJournalLine × Nat)} {tally : JournalTally} (h : Tallied fate entries tally)
    (entry : RawJournalLine × Nat) :
    Tallied fate (entries ++ [entry]) (tally.record entry.1 entry.2 (fate entry)) := by
  cases hfate : fate entry with
  | retained identifier =>
    refine ⟨?_, ?_, ?_, h.counts⟩
    · rw [JournalTally.record, h.retainedIndexes, filter_append, map_append,
        List.filter_cons_of_pos (by rw [hfate]; rfl)]
      rfl
    · rw [JournalTally.record, h.retainedRecordIds, List.filterMap_append,
        List.filterMap_cons_some (by rw [hfate]; rfl)]
      rfl
    · rw [JournalTally.record, h.removals, filter_append,
        List.filter_cons_of_neg (by rw [hfate]; nofun), List.filter_nil, append_nil]
  | removed identifier reason =>
    have hcount : (tally.count reason).retainedIndexes = tally.retainedIndexes ∧
        (tally.count reason).retainedRecordIds = tally.retainedRecordIds ∧
        (tally.count reason).parserIgnored + (tally.count reason).missingSegments +
          (tally.count reason).unreadableRevisions + (tally.count reason).beyondRetention =
          tally.removals.length + 1 := by
      rw [← h.counts]
      cases reason <;> refine ⟨rfl, rfl, ?_⟩ <;> dsimp only [JournalTally.count] <;> omega
    obtain ⟨hindexes, hids, hsum⟩ := hcount
    refine ⟨?_, ?_, ?_, ?_⟩
    · rw [JournalTally.record, hindexes, h.retainedIndexes, filter_append,
        List.filter_cons_of_neg (by rw [hfate]; nofun), List.filter_nil, append_nil]
    · rw [JournalTally.record, hids, h.retainedRecordIds, List.filterMap_append,
        List.filterMap_cons_none (by rw [hfate]; rfl), List.filterMap_nil, append_nil]
    · rw [JournalTally.record, map_append, h.removals, filter_append, map_append,
        List.filter_cons_of_pos (by rw [hfate]; rfl)]
      rfl
    · rw [JournalTally.record, List.length_append]
      exact hsum

include h in
/-- The loop tallies every line by the true verdicts. -/
theorem classifyJournalLines_tallied (lines : List RawJournalLine)
    (retentionBoundary : Option Nat) :
    Tallied (trueFate revisions currentHead retentionBoundary) lines.zipIdx
      (classifyJournalLines revisions lines retentionBoundary validity) := by
  have hloop : ∀ (entries done : List (RawJournalLine × Nat)) (tally : JournalTally)
      (validity : Validity), validity.Sound revisions currentHead →
      Tallied (trueFate revisions currentHead retentionBoundary) done tally →
      Tallied (trueFate revisions currentHead retentionBoundary) (done ++ entries)
        (entries.foldl (fun state entry =>
          let fate := lineFate revisions retentionBoundary state.2 entry.1 entry.2
          (state.1.record entry.1 entry.2 fate.1, fate.2)) (tally, validity)).1 := by
    intro entries
    induction entries with
    | nil =>
      intro done tally validity hsound hdone
      rw [append_nil]
      exact hdone
    | cons entry entries ih =>
      intro done tally validity hsound hdone
      obtain ⟨hfate, hsound'⟩ := lineFate_spec hsound retentionBoundary entry
      rw [List.append_cons, List.foldl_cons]
      dsimp only
      rw [hfate]
      exact ih _ _ _ hsound' (hdone.record entry)
  exact hloop lines.zipIdx [] _ validity h (tallied_empty _)

section

variable (revisions : Revisions) (currentHead : RecordIdentifier)

theorem retained?_trueFate (retentionBoundary : Option Nat) (entry : RawJournalLine × Nat) :
    (trueFate revisions currentHead retentionBoundary entry).retained? =
      if retentionBoundary.any (entry.2 < ·) then none
      else readableRecord revisions currentHead entry.1 := by
  rw [trueFate, readableRecord, presentRecord]
  cases entry.1.classification with
  | parserSkippedNoSpace => exact (ite_self _).symm
  | invalidRecordIdentifier text => exact (ite_self _).symm
  | record record =>
    dsimp only
    cases revisions.containsSegment record.recordIdentifier.segment with
    | false => exact (ite_self _).symm
    | true =>
      rw [if_neg (by decide), if_pos rfl]
      split
      · rfl
      · rw [Option.filter_some]
        split
        · rfl
        · rfl

/-! ## The plan -/

theorem pairwise_readableIndexes (lines : List RawJournalLine) :
    (readableIndexes revisions currentHead lines).Pairwise (· < ·) := by
  have hall : (lines.zipIdx.map Prod.snd).Pairwise (· < ·) := by
    rw [List.zipIdx_map_snd]
    exact List.pairwise_lt_range'
  exact hall.sublist (List.filter_sublist.map Prod.snd)

/-- The lines that stay are the readable ones that are not below the bound. -/
theorem filter_trueFate (retentionBoundary : Option Nat) (lines : List RawJournalLine) :
    (lines.zipIdx.filter fun entry =>
        (trueFate revisions currentHead retentionBoundary entry).retained?.isSome).map Prod.snd =
      (readableIndexes revisions currentHead lines).filter fun index =>
        !retentionBoundary.any (index < ·) := by
  rw [readableIndexes, List.filter_map, List.filter_filter]
  refine congrArg (List.map Prod.snd) (List.filter_congr fun entry _ => ?_)
  rw [retained?_trueFate, Function.comp_apply]
  cases retentionBoundary.any (entry.2 < ·) with
  | true => rfl
  | false => rfl

end

/-- The newest line with a record is one that names the head. -/
theorem exists_head_line (h : rejectHeadDisagreement revisions lines currentHead = .ok ()) :
    ∃ before line after, lines = before ++ line :: after ∧
      presentRecord revisions line = some currentHead ∧
      ∀ later ∈ after, presentRecord revisions later = none := by
  rw [rejectHeadDisagreement] at h
  cases hselected : lines.reverse.findSome? (presentRecord revisions) with
  | none =>
    rw [hselected] at h
    cases h
  | some selected =>
    rw [hselected] at h
    dsimp only at h
    by_cases heq : selected = currentHead
    · subst heq
      obtain ⟨newer, line, older, hreverse, hline, hnewer⟩ :=
        List.findSome?_eq_some_iff.mp hselected
      refine ⟨older.reverse, line, newer.reverse, ?_, hline,
        fun later hmem => hnewer later (List.mem_reverse.mp hmem)⟩
      rw [← List.reverse_reverse lines, hreverse, List.reverse_append, List.reverse_cons,
        List.append_assoc, List.singleton_append]
    · rw [if_pos heq] at h
      cases h

theorem reads_head (revisions : Revisions) (currentHead : RecordIdentifier) :
    revisions.reads currentHead currentHead = true := by
  rw [Revisions.reads, decide_eq_true rfl, Bool.true_or]

theorem readableIndexes_head {before after : List RawJournalLine} {line : RawJournalLine}
    (hline : presentRecord revisions line = some currentHead)
    (hafter : ∀ later ∈ after, presentRecord revisions later = none) :
    readableIndexes revisions currentHead (before ++ line :: after) =
      readableIndexes revisions currentHead before ++ [before.length] := by
  have hread : readableRecord revisions currentHead line = some currentHead := by
    rw [readableRecord, hline, Option.filter_some, if_pos (reads_head revisions currentHead)]
  have hnone : (after.zipIdx (before.length + 1)).filter (fun entry =>
      (readableRecord revisions currentHead entry.1).isSome) = [] := by
    refine List.filter_eq_nil_iff.mpr fun entry hmem => ?_
    rw [readableRecord, hafter entry.1 (List.fst_mem_of_mem_zipIdx hmem)]
    nofun
  rw [readableIndexes, readableIndexes, List.zipIdx_append, filter_append, map_append,
    Nat.zero_add, List.zipIdx_cons, List.filter_cons_of_pos (by rw [hread]; rfl), hnone]
  rfl

theorem last_mem_newest (retention : Option ℕ+) (indexes : List Nat) (last : Nat) :
    last ∈ newest retention (indexes ++ [last]) := by
  cases retention with
  | none => exact List.mem_append_right _ (.head _)
  | some bound =>
    have hpos := bound.pos
    rw [newest, List.length_append, List.length_singleton, List.drop_append_of_le_length (by omega)]
    exact List.mem_append_right _ (.head _)

/-- What an analysis says about the lines. -/
structure JournalAnalysis.Exact (revisions : Revisions) (lines : List RawJournalLine)
    (currentHead : RecordIdentifier) (retention : Option ℕ+) (analysis : JournalAnalysis) :
    Prop where
  /-- Every line stays or goes, and none does both. -/
  partition : (analysis.retainedIndexes.map (· + 1) ++
    analysis.plan.removals.map JournalLineRemoval.lineNumber).Perm (List.range' 1 lines.length)
  /-- The newest lines that can be read stay. -/
  retained : analysis.retainedIndexes = newest retention (readableIndexes revisions currentHead lines)
  /-- The newest line with a record stays, which names the head. -/
  head : ∃ index ∈ analysis.retainedIndexes, ∃ line, lines[index]? = some line ∧
    presentRecord revisions line = some currentHead ∧
    ∀ later ∈ lines.drop (index + 1), presentRecord revisions later = none
  rawLines : analysis.plan.retainedRawLines =
    analysis.retainedIndexes.filterMap fun index => lines[index]?.map RawJournalLine.rawBytes
  removedLines : analysis.plan.removedLines = analysis.plan.removals.length

/-- The bound that an analysis works with. -/
theorem exists_boundary (revisions : Revisions) (lines : List RawJournalLine)
    (currentHead : RecordIdentifier) (retention : Option ℕ+)
    (h : validity.Sound revisions currentHead) :
    ∃ retentionBoundary validity', analysisBoundary revisions lines retention validity =
        (retentionBoundary, validity') ∧ validity'.Sound revisions currentHead ∧
      (readableIndexes revisions currentHead lines).filter
          (fun index => !retentionBoundary.any (index < ·)) =
        newest retention (readableIndexes revisions currentHead lines) := by
  cases retention with
  | none => exact ⟨none, validity, rfl, h, List.filter_eq_self.mpr fun _ _ => rfl⟩
  | some bound =>
    obtain ⟨hboundary, hsound⟩ := journalRetentionBoundary_spec h lines bound
    refine ⟨_, _, Prod.mk.eta.symm, hsound, ?_⟩
    rw [analysisBoundary, hboundary]
    exact filter_retention (pairwise_readableIndexes revisions currentHead lines) bound

theorem eq_of_checkedAdd {a b c : Nat} (h : Checked.checkedAdd a b = some c) : c = a + b := by
  rw [Checked.checkedAdd, Option.ite_none_right_eq_some] at h
  exact (Option.some.inj h.2).symm

/-- The tally of a journal whose newest record is the head. -/
theorem exists_tally
    (h : rejectHeadDisagreement revisions lines currentHead = .ok ()) (retention : Option ℕ+) :
    ∃ retentionBoundary validity tally,
      analysisBoundary revisions lines retention
        (fun identifier => if identifier = currentHead then some true else none) =
          (retentionBoundary, validity) ∧
      classifyJournalLines revisions lines retentionBoundary validity = tally ∧
      currentHead ∈ tally.retainedRecordIds ∧
      (tally.retainedIndexes.map (· + 1) ++ tally.removals.map JournalLineRemoval.lineNumber).Perm
        (List.range' 1 lines.length) ∧
      tally.retainedIndexes = newest retention (readableIndexes revisions currentHead lines) ∧
      (∃ index ∈ tally.retainedIndexes, ∃ line, lines[index]? = some line ∧
        presentRecord revisions line = some currentHead ∧
        ∀ later ∈ lines.drop (index + 1), presentRecord revisions later = none) ∧
      tally.parserIgnored + tally.missingSegments + tally.unreadableRevisions +
        tally.beyondRetention = tally.removals.length := by
  obtain ⟨before, line, after, rfl, hline, hafter⟩ := exists_head_line h
  obtain ⟨retentionBoundary, validity, hmatch, hsound, hfilter⟩ :=
    exists_boundary revisions (before ++ line :: after) currentHead retention
      (Validity.Sound.start revisions currentHead)
  have htallied := classifyJournalLines_tallied hsound (before ++ line :: after) retentionBoundary
  obtain ⟨tally, htally⟩ : ∃ tally, classifyJournalLines revisions (before ++ line :: after)
      retentionBoundary validity = tally := ⟨_, rfl⟩
  rw [htally] at htallied
  have hretained : tally.retainedIndexes =
      newest retention (readableIndexes revisions currentHead (before ++ line :: after)) := by
    rw [htallied.retainedIndexes, filter_trueFate, hfilter]
  have hindex : before.length ∈ tally.retainedIndexes := by
    rw [hretained, readableIndexes_head hline hafter]
    exact last_mem_newest _ _ _
  have hid : currentHead ∈ tally.retainedRecordIds := by
    rw [htallied.retainedIndexes] at hindex
    obtain ⟨⟨other, index⟩, hentry, rfl⟩ := List.mem_map.mp hindex
    obtain ⟨hmem, hfate⟩ := List.mem_filter.mp hentry
    have hother : (before ++ line :: after)[before.length]? = some other :=
      List.mk_mem_zipIdx_iff_getElem?.mp hmem
    rw [List.getElem?_append_right (Nat.le_refl _), Nat.sub_self] at hother
    cases hother
    rw [htallied.retainedRecordIds]
    refine List.mem_filterMap.mpr ⟨_, hmem, ?_⟩
    rw [retained?_trueFate] at hfate ⊢
    split at hfate
    · cases hfate
    · rw [if_neg (by assumption), readableRecord, hline, Option.filter_some,
        if_pos (reads_head revisions currentHead)]
  refine ⟨retentionBoundary, validity, tally, hmatch, htally, hid, ?_, hretained,
    ⟨before.length, hindex, line, ?_, hline, ?_⟩, htallied.counts⟩
  · have hperm := (List.filter_append_perm (fun entry =>
      (trueFate revisions currentHead retentionBoundary entry).retained?.isSome)
        (before ++ line :: after).zipIdx).map fun entry => entry.2 + 1
    have hnumbers : (before ++ line :: after).zipIdx.map (fun entry => entry.2 + 1) =
        List.range' 1 (before ++ line :: after).length := by
      have hcompose : (fun entry : RawJournalLine × Nat => entry.2 + 1) = (1 + ·) ∘ Prod.snd :=
        funext fun entry => Nat.add_comm _ _
      rw [hcompose, ← List.map_map, List.zipIdx_map_snd, List.map_add_range', Nat.add_zero]
    rw [map_append, hnumbers] at hperm
    rw [htallied.retainedIndexes, htallied.removals, List.map_map]
    exact hperm
  · rw [List.getElem?_append_right (Nat.le_refl _), Nat.sub_self]
    rfl
  · intro later hmem
    rw [List.drop_append, List.drop_of_length_le (Nat.le_succ _), List.nil_append,
      Nat.add_sub_cancel_left] at hmem
    exact hafter later hmem

/-- An analysis is exact. -/
theorem analyzeJournalLines_exact {retention : Option ℕ+} {analysis : JournalAnalysis}
    (h : analyzeJournalLines revisions lines currentHead retention = .ok analysis) :
    analysis.Exact revisions lines currentHead retention := by
  obtain ⟨⟨⟩, hhead, h⟩ := Except.bind_ok_iff.mp h
  obtain ⟨retentionBoundary, validity, tally, hboundary, htally, hid, hpartition, hretained, hnewest,
    hcounts⟩ := exists_tally hhead retention
  dsimp only at h
  rw [hboundary] at h
  dsimp only at h
  rw [htally, if_neg (not_not.mpr hid)] at h
  split at h
  · cases h
  next removedLines hsum =>
    cases h
    obtain ⟨first, hfirst, hsum⟩ := Option.bind_eq_some_iff.mp hsum
    obtain ⟨second, hsecond, hsum⟩ := Option.bind_eq_some_iff.mp hsum
    refine ⟨hpartition, hretained, hnewest, rfl, ?_⟩
    dsimp only
    rw [eq_of_checkedAdd hsum, eq_of_checkedAdd hsecond, eq_of_checkedAdd hfirst, hcounts]

theorem rejectHeadDisagreement_ok_iff :
    rejectHeadDisagreement revisions lines currentHead = .ok () ↔
      lines.reverse.findSome? (presentRecord revisions) = some currentHead := by
  rw [rejectHeadDisagreement]
  cases lines.reverse.findSome? (presentRecord revisions) with
  | none => exact ⟨nofun, nofun⟩
  | some selected =>
    dsimp only
    split
    · exact ⟨nofun, fun h => absurd (Option.some.inj h) ‹_›⟩
    · exact ⟨fun _ => congrArg some (not_not.mp ‹_›), fun _ => rfl⟩

theorem checkedAdd_of_lt {a b : Nat} (h : a + b < Checked.wordCount) :
    Checked.checkedAdd a b = some (a + b) := if_pos h

/-- Lines that a machine word can count are analyzed exactly when the newest record whose segment
is there is the head. -/
theorem analyzeJournalLines_succeeds {retention : Option ℕ+}
    (hlines : lines.length < Checked.wordCount) :
    (∃ analysis, analyzeJournalLines revisions lines currentHead retention = .ok analysis) ↔
      lines.reverse.findSome? (presentRecord revisions) = some currentHead := by
  rw [← rejectHeadDisagreement_ok_iff]
  constructor
  · rintro ⟨analysis, h⟩
    obtain ⟨⟨⟩, hhead, -⟩ := Except.bind_ok_iff.mp h
    exact hhead
  · intro hhead
    obtain ⟨retentionBoundary, validity, tally, hboundary, htally, hid, hpartition, -, -, hcounts⟩ :=
      exists_tally hhead retention
    have hlength := hpartition.length_eq
    rw [List.length_append, List.length_map, List.length_map, List.length_range'] at hlength
    have hsum : ((Checked.checkedAdd tally.parserIgnored tally.missingSegments).bind fun count =>
        (Checked.checkedAdd count tally.unreadableRevisions).bind fun count =>
          Checked.checkedAdd count tally.beyondRetention) = some tally.removals.length := by
      rw [checkedAdd_of_lt (by omega), Option.bind_some, checkedAdd_of_lt (by omega),
        Option.bind_some, checkedAdd_of_lt (by omega), hcounts]
    rw [analyzeJournalLines, hhead, Except.ok_bind_eq]
    dsimp only
    rw [hboundary]
    dsimp only
    rw [htally, if_neg (not_not.mpr hid), hsum]
    exact ⟨_, rfl⟩

end Froe
