import Froe.Reclaim.Gate
import Froe.Reclaim.Sweep
import Froe.Tar.Recovery

/-!
# What the next open serves after a sweep

A sweep carries out the plan of one archive after another.  Each plan touches the
letters of one number (`CarriedOut.agreeOn`), and only when the archive is the one
its number serves through a valid index.  A removal leaves the number without a
letter, and a rewrite puts the replacement right before the letters that were
older than the source, behind newer letters none of which has a valid index
(`FreeReplacement.serves`).  So no other letter is promoted.
-/

namespace Froe

open List (mem_cons mem_cons_self mem_map)

open ArchiveFileName
open TarArchiveReader (openFile openFile_fileName)

/-- What carrying out a plan does to the directory.  A replacement is published under its
name only after it opened with the survivors, and the source is then removed or left. -/
inductive CarriedOut (reader : TarArchiveReader) (reclaimable : Finset SegmentIdentifier) :
    Directory → Option PlannedArchiveSweep → Directory → Prop where
  | unchanged {directory : Directory} {plan : Option PlannedArchiveSweep}
      (keeps : ∀ planned, plan = some planned → planned.changesDisk = false) :
      CarriedOut reader reclaimable directory plan directory
  | removed {directory : Directory} {fileName : String} {segmentCount fileBytes : Nat} :
      CarriedOut reader reclaimable directory (some (.remove fileName segmentCount fileBytes))
        (directory.erase fileName)
  | rewritten {directory : Directory} {fileName replacementName path : String}
      {segmentCount eligibleEntryBytes : Nat} {index : SegmentIndex} {file : Bytes}
      {swept : TarArchiveReader} (sourceLeft : Bool)
      (source : reader.index = some index)
      (opens : TarArchiveReader.openFile replacementName file = .ok swept)
      (survivors : proveSurvivorCountOrderAndEntries reader swept path
        (partitionEntries index reclaimable) = .ok ()) :
      CarriedOut reader reclaimable directory
        (some (.rewrite fileName replacementName segmentCount eligibleEntryBytes))
        (if sourceLeft then directory.insert replacementName (.readable file)
        else (directory.insert replacementName (.readable file)).erase fileName)

/-- One archive with the plan made for it. -/
abbrev PlannedSweep := TarArchiveReader × Option PlannedArchiveSweep

/-- A sweep plans and carries out one archive after another. -/
inductive SweepRun (reclaimable : Finset SegmentIdentifier) (rewritePolicy : ArchiveRewritePolicy) :
    Directory → List PlannedSweep → Directory → Prop where
  | done {directory : Directory} : SweepRun reclaimable rewritePolicy directory [] directory
  | step {directory next after : Directory} {listing : List String} {reader : TarArchiveReader}
      {plan : Option PlannedArchiveSweep} {rest : List PlannedSweep}
      (listed : directory.ListedAs listing)
      (planned : planArchiveSweep directory listing reader reclaimable rewritePolicy ∅ = .ok plan)
      (carried : CarriedOut reader reclaimable directory plan next)
      (later : SweepRun reclaimable rewritePolicy next rest after) :
      SweepRun reclaimable rewritePolicy directory ((reader, plan) :: rest) after

/-- The sweep removed or rewrote the archive of a number. -/
def ActedOn (sweeps : List PlannedSweep) (number : Nat) : Prop :=
  ∃ reader plan, (reader, some plan) ∈ sweeps ∧ plan.changesDisk = true ∧
    reader.archiveNumber = some number

section

variable {reader : TarArchiveReader} {rest : List PlannedSweep} {number : Nat}

theorem actedOn_cons {plan : PlannedArchiveSweep} : ActedOn ((reader, some plan) :: rest) number ↔
      (plan.changesDisk = true ∧ reader.archiveNumber = some number) ∨ ActedOn rest number := by
  constructor
  · rintro ⟨other, otherPlan, hmem, hacts⟩
    rcases mem_cons.mp hmem with heq | hmem
    · cases heq
      exact .inl hacts
    · exact .inr ⟨other, otherPlan, hmem, hacts⟩
  · rintro (hacts | ⟨other, otherPlan, hmem, hacts⟩)
    · exact ⟨reader, plan, mem_cons_self .., hacts⟩
    · exact ⟨other, otherPlan, List.mem_cons_of_mem _ hmem, hacts⟩

theorem actedOn_cons_none :
    ActedOn ((reader, none) :: rest) number ↔ ActedOn rest number := by
  constructor
  · rintro ⟨other, otherPlan, hmem, hacts⟩
    rcases mem_cons.mp hmem with heq | hmem
    · cases heq
    · exact ⟨other, otherPlan, hmem, hacts⟩
  · rintro ⟨other, otherPlan, hmem, hacts⟩
    exact ⟨other, otherPlan, List.mem_cons_of_mem _ hmem, hacts⟩

end

/-! ## What a replacement serves -/

section Replacement

variable {source swept : TarArchiveReader} {path : String} {index : SegmentIndex}
  {reclaimable : Finset SegmentIdentifier}

theorem mem_keptEntries {entry : SegmentIndexEntry} :
    entry ∈ partitionEntries index reclaimable ↔
      entry ∈ index.entries ∧ entry.segmentIdentifier ∉ reclaimable := by
  rw [partitionEntries, List.mem_filter, entriesByPosition, List.mem_insertionSort,
    decide_eq_true_eq]

/-- A proved replacement lists the survivors and has their bytes. -/
theorem proveSurvivors_ok {survivors : List SegmentIndexEntry}
    (h : proveSurvivorCountOrderAndEntries source swept path survivors = .ok ()) :
    ∃ sweptIndex, swept.index = some sweptIndex ∧
      (∀ identifier, identifier ∈ swept.segmentIdentifiers ↔
        identifier ∈ survivors.map SegmentIndexEntry.segmentIdentifier) ∧
      ∀ entry ∈ survivors,
        swept.segmentData entry.segmentIdentifier = source.segmentData entry.segmentIdentifier := by
  rw [proveSurvivorCountOrderAndEntries] at h
  split at h
  · exact absurd h invalid_ne_ok
  rename_i sweptIndex hindex
  split at h
  · exact absurd h invalid_ne_ok
  split at h
  · exact absurd h invalid_ne_ok
  rename_i horder
  refine ⟨sweptIndex, hindex, ?_, ?_⟩
  · intro identifier
    rw [segmentIdentifiers_of_index hindex, ← not_not.mp horder]
    exact ((List.perm_insertionSort _ _).map _).mem_iff.symm
  · intro entry hentry
    have hproved := Except.forM_ok_mem h hentry
    rw [proveSurvivor] at hproved
    obtain ⟨-, -, hproved⟩ := Except.bind_ok_iff.mp hproved
    split at hproved
    · exact absurd hproved invalid_ne_ok
    split at hproved
    · exact absurd hproved invalid_ne_ok
    split at hproved
    · rename_i sourceBytes sweptBytes hsource hswept
      split at hproved
      · exact absurd hproved invalid_ne_ok
      · rename_i hsame
        rw [hsource, hswept, not_not.mp hsame]
    · cases hproved

/-- The replacement serves what the source served, without the reclaimed segments. -/
theorem servedSegment_swept (hindex : source.index = some index)
    (h : proveSurvivorCountOrderAndEntries source swept path (partitionEntries index reclaimable) =
      .ok ()) (identifier : SegmentIdentifier) :
    servedSegment [swept] identifier =
      if identifier ∈ reclaimable then none else servedSegment [source] identifier := by
  obtain ⟨sweptIndex, -, hlisted, hdata⟩ := proveSurvivors_ok h
  have hsurvivors : identifier ∈ swept.segmentIdentifiers ↔
      identifier ∈ source.segmentIdentifiers ∧ identifier ∉ reclaimable := by
    rw [hlisted, segmentIdentifiers_of_index hindex, mem_map, mem_map]
    constructor
    · rintro ⟨entry, hentry, rfl⟩
      obtain ⟨hmem, hkept⟩ := mem_keptEntries.mp hentry
      exact ⟨⟨entry, hmem, rfl⟩, hkept⟩
    · rintro ⟨⟨entry, hmem, rfl⟩, hkept⟩
      exact ⟨entry, mem_keptEntries.mpr ⟨hmem, hkept⟩, rfl⟩
  rw [servedSegment_singleton, servedSegment_singleton]
  by_cases hreclaimed : identifier ∈ reclaimable
  · rw [if_neg fun hmem => (hsurvivors.mp hmem).2 hreclaimed, if_pos hreclaimed]
  · rw [if_neg hreclaimed]
    by_cases hmem : identifier ∈ source.segmentIdentifiers
    · have hswept := hsurvivors.mpr ⟨hmem, hreclaimed⟩
      rw [if_pos hswept, if_pos hmem]
      obtain ⟨entry, hentry, rfl⟩ := mem_map.mp ((hlisted identifier).mp hswept)
      exact hdata entry hentry
    · rw [if_neg fun hswept => hmem (hsurvivors.mp hswept).1, if_neg hmem]

end Replacement

/-! ## One archive -/

section Step

variable {reader : TarArchiveReader} {reclaimable : Finset SegmentIdentifier}
  {directory next : Directory} {name : ArchiveFileName} {index : SegmentIndex}
  {plan : PlannedArchiveSweep} {number : Nat} {readers : List TarArchiveReader}

/-- A plan touches the letters of its own number. -/
theorem CarriedOut.agreeOn (h : CarriedOut reader reclaimable directory (some plan) next)
    (hname : parse name.fileName = some name)
    (hground : PlanGround directory name index reclaimable plan)
    (hnumber : name.archiveNumber ≠ number) : directory.AgreeOn next number := by
  intro other hparse hother
  have hsource : other.fileName ≠ name.fileName := by
    intro heq
    rw [heq, hname] at hparse
    exact hnumber (Option.some.inj hparse ▸ hother)
  cases h with
  | unchanged keeps => rfl
  | removed =>
    cases hground
    rw [Finmap.lookup_erase_ne hsource]
  | rewritten sourceLeft source opens survivors =>
    cases hground with
    | rewrite hletter hfree =>
      have hreplacement : other.fileName ≠
          format name.archiveNumber (name.fileGeneration + 1) := by
        intro heq
        obtain ⟨-, hlimit, ⟨hlow, -⟩, -⟩ := parse_eq_some_iff.mp hname
        have hformat := parse_format hlimit
          (show IsLetter (name.fileGeneration + 1) from ⟨by omega, by omega⟩)
        rw [← heq, hparse] at hformat
        exact hnumber ((congrArg ArchiveFileName.archiveNumber
          (Option.some.inj hformat)).symm.trans hother)
      split
      · rw [Finmap.lookup_insert_of_ne _ hreplacement]
      · rw [Finmap.lookup_erase_ne hsource, Finmap.lookup_insert_of_ne _ hreplacement]

/-- A removal leaves its number without a letter. -/
theorem serves_removed (halone : ∀ other : ArchiveFileName, parse other.fileName = some other →
      other.fileName ∈ directory → other.archiveNumber = name.archiveNumber →
        other.fileName = name.fileName) :
    Directory.Serves (directory.erase name.fileName) name.archiveNumber [] := by
  refine ⟨[], ⟨List.Pairwise.nil, fun other => ?_⟩, rfl⟩
  refine iff_of_false List.not_mem_nil ?_
  rintro ⟨hparse, hmem, hnumber⟩
  obtain ⟨hne, hin⟩ := Finmap.mem_erase.mp hmem
  exact hne (halone other hparse hin hnumber)

/-- The replacement of a letter, when the next letter is free. -/
structure FreeReplacement (directory : Directory) (name replacement : ArchiveFileName) : Prop where
  parses : parse replacement.fileName = some replacement
  archiveNumber : replacement.archiveNumber = name.archiveNumber
  fileGeneration : replacement.fileGeneration = name.fileGeneration + 1
  letter : 97 ≤ name.fileGeneration
  free : replacement.fileName ∉ directory

theorem freeReplacement (hname : parse name.fileName = some name)
    (hletter : name.fileGeneration < 122)
    (hfree : format name.archiveNumber (name.fileGeneration + 1) ∉ directory) :
    FreeReplacement directory name ⟨format name.archiveNumber (name.fileGeneration + 1),
      name.archiveNumber, name.fileGeneration + 1⟩ := by
  obtain ⟨-, hlimit, ⟨hlow, -⟩, -⟩ := parse_eq_some_iff.mp hname
  exact ⟨parse_format hlimit ⟨by omega, by omega⟩, rfl, rfl, hlow, hfree⟩

/-- The letters newer than the source are newer than the replacement. -/
theorem FreeReplacement.newer {newer older : List ArchiveFileName} {replacement : ArchiveFileName}
    (h : FreeReplacement directory name replacement)
    (hletters : directory.Letters name.archiveNumber (newer ++ name :: older)) :
    ∀ other ∈ newer, replacement.fileGeneration < other.fileGeneration := by
  intro other hother
  have hcross := (List.pairwise_append.mp hletters.newestFirst).2.2
  have hlt := hcross other hother name (mem_cons_self ..)
  have hgeneration := h.fileGeneration
  refine lt_of_le_of_ne (by omega) fun heq => h.free ?_
  obtain ⟨hparse, hmem, hnumber⟩ := (hletters.mem other).mp (List.mem_append_left _ hother)
  rcases eq_or_letterless h.parses hparse (h.archiveNumber.trans hnumber.symm) heq with
    hsame | hfirst
  · rw [hsame]
    exact hmem
  · have hlow := h.letter
    omega

/-- A rewrite puts the replacement before the older letters of its number, behind letters
without a valid index. -/
theorem FreeReplacement.serves {newer older : List ArchiveFileName} {replacement : ArchiveFileName}
    {file : Bytes} {swept : TarArchiveReader} (sourceLeft : Bool)
    (h : FreeReplacement directory name replacement)
    (hletters : directory.Letters name.archiveNumber (newer ++ name :: older))
    (hnewer : directory.Indexless newer)
    (hopens : openFile replacement.fileName file = .ok swept)
    (hindexed : swept.isRecovered = false) :
    Directory.Serves (if sourceLeft then directory.insert replacement.fileName (.readable file)
      else (directory.insert replacement.fileName (.readable file)).erase name.fileName)
      name.archiveNumber [swept] := by
  obtain ⟨hname, hsource, -⟩ := (hletters.mem name).mp (by simp)
  have hgeneration := h.fileGeneration
  obtain ⟨-, holder, hcross⟩ := List.pairwise_append.mp hletters.newestFirst
  have hinsert : Directory.Letters (directory.insert replacement.fileName (.readable file))
      name.archiveNumber (newer ++ replacement :: name :: older) := by
    refine hletters.insert _ h.parses h.archiveNumber h.free (h.newer hletters) ?_
    intro other hother
    rcases mem_cons.mp hother with rfl | hother
    · omega
    · have hlt := (List.pairwise_cons.mp holder).1 other hother
      omega
  have hother : ∀ other ∈ newer, other.fileName ≠ replacement.fileName ∧
      other.fileName ≠ name.fileName := by
    intro other hin
    have hmem := ((hletters.mem other).mp (List.mem_append_left _ hin)).2.1
    refine ⟨fun heq => h.free (heq ▸ hmem), fun heq => ?_⟩
    have hlt := hcross other hin name (mem_cons_self ..)
    rw [hletters.eq_of_fileName (List.mem_append_left _ hin) hname heq] at hlt
    exact lt_irrefl _ hlt
  cases sourceLeft with
  | true =>
    rw [if_pos rfl]
    refine ⟨_, hinsert, Directory.openGroup_indexed (hnewer.congr ?_)
      (Directory.indexed_of_lookup (Finmap.lookup_insert _) hopens hindexed)⟩
    intro other hin
    exact Finmap.lookup_insert_of_ne _ (hother other hin).1
  | false =>
    rw [if_neg Bool.false_ne_true]
    have hreplaced : replacement.fileName ≠ name.fileName := fun heq => h.free (heq ▸ hsource)
    have hsplit : newer ++ replacement :: name :: older =
        (newer ++ [replacement]) ++ name :: older := by
      rw [List.append_assoc, List.singleton_append]
    rw [hsplit] at hinsert
    have herase := hinsert.erase
    rw [List.append_assoc, List.singleton_append] at herase
    refine ⟨_, herase, Directory.openGroup_indexed (hnewer.congr ?_)
      (Directory.indexed_of_lookup ?_ hopens hindexed)⟩
    · intro other hin
      rw [Finmap.lookup_erase_ne (hother other hin).2,
        Finmap.lookup_insert_of_ne _ (hother other hin).1]
    · rw [Finmap.lookup_erase_ne hreplaced, Finmap.lookup_insert]

/-- A plan that acts on an archive leaves its number with the replacement or with nothing:
the segments of the archive without the reclaimed ones, in no file that was there. -/
theorem CarriedOut.serves {listing : List String} {rewritePolicy : ArchiveRewritePolicy}
    (hlisted : directory.ListedAs listing)
    (hplan : planArchiveSweep directory listing reader reclaimable rewritePolicy ∅ =
      .ok (some plan))
    (hacts : plan.changesDisk = true) (hcarried : CarriedOut reader reclaimable directory (some plan)
      next) (hserves : directory.Serves number readers) (hreader : reader ∈ readers) :
    readers = [reader] ∧ (∀ other, other ≠ number → directory.AgreeOn next other) ∧
      ∃ readers', next.Serves number readers' ∧
        (∀ identifier, servedSegment readers' identifier =
          if identifier ∈ reclaimable then none else servedSegment readers identifier) ∧
        ∀ reader' ∈ readers', reader'.fileName ∉ directory := by
  obtain ⟨name, index, hname, hindex, hground⟩ := planArchiveSweep_ground hlisted hplan hacts
  obtain ⟨rfl, newer, winner, older, hletters, hnewer, hwinner⟩ :=
    hserves.winner hreader (exists_index.mpr ⟨index, hindex⟩)
  obtain ⟨hparse, -, hnumber⟩ := (hletters.mem winner).mp (by simp)
  -- the plan is about the winning letter
  obtain rfl : name = winner := by
    rw [Directory.openArchive_fileName hwinner.opens, hparse] at hname
    exact (Option.some.inj hname).symm
  have hownFile : name.fileName = reader.fileName :=
    (Directory.openArchive_fileName hwinner.opens).symm
  refine ⟨rfl, fun other hother => ?_, ?_⟩
  · exact hcarried.agreeOn hparse hground fun heq => hother (heq.symm.trans hnumber)
  subst hnumber
  cases hcarried with
  | unchanged keeps =>
    rw [keeps plan rfl] at hacts
    cases hacts
  | removed =>
    cases hground with
    | remove hevery halone =>
      refine ⟨[], serves_removed halone, fun identifier => ?_, fun reader' h => by cases h⟩
      rw [servedSegment_singleton, segmentIdentifiers_of_index hindex]
      by_cases hmem : identifier ∈ index.entries.map SegmentIndexEntry.segmentIdentifier
      · obtain ⟨entry, hentry, rfl⟩ := mem_map.mp hmem
        rw [if_pos (hevery entry hentry)]
        rfl
      · rw [if_neg hmem, ite_self]
        rfl
  | rewritten sourceLeft hsource hopens hsurvivors =>
    obtain rfl := Option.some.inj (hindex.symm.trans hsource)
    cases hground with
    | rewrite hletter hfree =>
      have hreplacement := freeReplacement hparse hletter hfree
      obtain ⟨sweptIndex, hswept, -⟩ := proveSurvivors_ok hsurvivors
      refine ⟨_, hreplacement.serves sourceLeft hletters hnewer hopens
        (exists_index.mpr ⟨sweptIndex, hswept⟩), servedSegment_swept hindex hsurvivors, ?_⟩
      intro reader' hreader'
      rw [List.mem_singleton.mp hreader', openFile_fileName hopens]
      exact hfree

end Step

/-! ## A whole sweep -/

/-- A sweep leaves every number serving what it served without the reclaimed segments where
it acted, and untouched elsewhere. -/
theorem SweepRun.serves {reclaimable : Finset SegmentIdentifier}
    {rewritePolicy : ArchiveRewritePolicy} {directory after : Directory}
    {sweeps : List PlannedSweep} (h : SweepRun reclaimable rewritePolicy directory sweeps after)
    {parts : Nat → List TarArchiveReader} (hserves : ∀ number, directory.Serves number (parts number))
    (hdistinct : (sweeps.map Prod.fst).Nodup)
    (hopened : ∀ sweep ∈ sweeps, ∃ number, sweep.1 ∈ parts number) :
    ∃ parts' : Nat → List TarArchiveReader, (∀ number, after.Serves number (parts' number)) ∧
      ∀ number,
        (ActedOn sweeps number →
          (∀ identifier, servedSegment (parts' number) identifier =
            if identifier ∈ reclaimable then none else servedSegment (parts number) identifier) ∧
          ∀ reader ∈ parts' number, reader.fileName ∉ directory) ∧
        (¬ ActedOn sweeps number → parts' number = parts number) := by
  induction h generalizing parts with
  | done =>
    refine ⟨parts, hserves, fun number => ⟨?_, fun _ => rfl⟩⟩
    rintro ⟨reader, plan, hmem, -⟩
    cases hmem
  | @step directory next after listing reader plan rest hlisted hplan hcarried hlater ih =>
    rw [List.map_cons, List.nodup_cons] at hdistinct
    obtain ⟨own, hown⟩ := hopened _ (mem_cons_self ..)
    have hrest := fun sweep hsweep => hopened sweep (List.mem_cons_of_mem _ hsweep)
    have hnumber := (hserves own).archiveNumber hown
    by_cases hacts : ∃ planned, plan = some planned ∧ planned.changesDisk = true
    · obtain ⟨planned, rfl, hdisk⟩ := hacts
      obtain ⟨halone, hframe, part, hpart, hsegments, hnew⟩ :=
        hcarried.serves hlisted hplan hdisk (hserves own) hown
      -- no archive of this number is left to sweep
      have hothers : ∀ sweep ∈ rest, ∃ number, number ≠ own ∧ sweep.1 ∈ parts number := by
        intro sweep hsweep
        obtain ⟨number, hin⟩ := hrest sweep hsweep
        refine ⟨number, ?_, hin⟩
        rintro rfl
        rw [halone, List.mem_singleton] at hin
        exact hdistinct.1 (mem_map.mpr ⟨sweep, hsweep, hin⟩)
      have hnotLater : ¬ ActedOn rest own := by
        rintro ⟨other, otherPlan, hmem, -, hsame⟩
        obtain ⟨number, hne, hin⟩ := hothers _ hmem
        exact hne (Option.some.inj (((hserves number).archiveNumber hin).symm.trans hsame))
      have hnext : ∀ number, next.Serves number (if number = own then part else parts number) := by
        intro number
        by_cases hsame : number = own
        · rw [if_pos hsame, hsame]
          exact hpart
        · rw [if_neg hsame]
          exact (hserves number).congr (hframe number hsame)
      have hopenedNext : ∀ sweep ∈ rest, ∃ number,
          sweep.1 ∈ (if number = own then part else parts number) := by
        intro sweep hsweep
        obtain ⟨number, hne, hin⟩ := hothers sweep hsweep
        exact ⟨number, by rwa [if_neg hne]⟩
      obtain ⟨parts', hserves', hparts'⟩ := ih hnext hdistinct.2 hopenedNext
      refine ⟨parts', hserves', fun number => ?_⟩
      obtain ⟨hacted, hkept⟩ := hparts' number
      by_cases hsame : number = own
      · subst hsame
        rw [hkept hnotLater, if_pos rfl]
        refine ⟨fun _ => ⟨hsegments, hnew⟩, fun hnot => absurd ?_ hnot⟩
        exact ⟨reader, planned, mem_cons_self .., hdisk, hnumber⟩
      · rw [if_neg hsame] at hacted hkept
        rw [actedOn_cons, or_iff_right fun hfirst => hsame
          (Option.some.inj (hfirst.2.symm.trans hnumber))]
        refine ⟨fun hlaterActs => ⟨(hacted hlaterActs).1, fun reader' hreader' hmem => ?_⟩, hkept⟩
        refine (hacted hlaterActs).2 reader' hreader' ?_
        exact ((hframe number hsame).mem_fileName ((hserves' number).archiveNumber hreader')).mp hmem
    · -- nothing changed on disk
      have hsame : next = directory := by
        cases hcarried with
        | unchanged => rfl
        | removed => exact absurd ⟨_, rfl, rfl⟩ hacts
        | rewritten => exact absurd ⟨_, rfl, rfl⟩ hacts
      subst hsame
      obtain ⟨parts', hserves', hparts'⟩ := ih hserves hdistinct.2 hrest
      refine ⟨parts', hserves', fun number => ?_⟩
      have hlaterOnly : ActedOn ((reader, plan) :: rest) number ↔ ActedOn rest number := by
        cases plan with
        | none => exact actedOn_cons_none
        | some planned =>
          rw [actedOn_cons, or_iff_right fun hfirst => hacts ⟨planned, rfl, hfirst.1⟩]
      rw [hlaterOnly]
      exact hparts' number

/-- **What the next open serves.**  A directory opens.  For some of the archives it serves,
in any order, the plan of the archive is made and carried out.  Then the directory opens
again, in the same way however its files are listed.  Every number whose archive was removed
or rewritten serves the segments of that archive without the reclaimed ones, out of no file
that was there before, and every other number serves the same files as before. -/
theorem sweep_serves_survivors {directory after : Directory} {listing : List String}
    {readers : List TarArchiveReader} {reclaimable : Finset SegmentIdentifier}
    {rewritePolicy : ArchiveRewritePolicy} {sweeps : List PlannedSweep}
    (hlisted : directory.ListedAs listing) (hopen : directory.openArchives listing = .ok readers)
    (hsweeps : (sweeps.map Prod.fst).Nodup) (hwinners : ∀ sweep ∈ sweeps, sweep.1 ∈ readers)
    (hrun : SweepRun reclaimable rewritePolicy directory sweeps after) :
    ∃ readers', (∀ listing', after.ListedAs listing' → after.openArchives listing' = .ok readers') ∧
      ∀ number,
        (ActedOn sweeps number →
          (∀ identifier, servedSegment (readersOf readers' number) identifier =
            if identifier ∈ reclaimable then none
            else servedSegment (readersOf readers number) identifier) ∧
          ∀ reader ∈ readersOf readers' number, reader.fileName ∉ directory) ∧
        (¬ ActedOn sweeps number → readersOf readers' number = readersOf readers number) := by
  have hserves := fun number => Directory.serves_of_openArchives hlisted hopen number
  have hopened : ∀ sweep ∈ sweeps, ∃ number, sweep.1 ∈ readersOf readers number := by
    intro sweep hsweep
    obtain ⟨number, hnumber⟩ := Directory.exists_archiveNumber hlisted hopen (hwinners sweep hsweep)
    exact ⟨number, List.mem_filter.mpr ⟨hwinners sweep hsweep, decide_eq_true hnumber⟩⟩
  obtain ⟨parts', hserves', hparts'⟩ := hrun.serves hserves hsweeps hopened
  obtain ⟨readers', hopens, hreaders⟩ := Directory.openArchives_of_serves hserves'
  refine ⟨readers', hopens, fun number => ?_⟩
  rw [hreaders]
  exact hparts' number

/-! ## An archive without survivors -/

theorem exists_tinyArchive (fileName : String) : ∃ (file : Bytes) (index : SegmentIndex),
    openFile fileName file = .ok ⟨fileName, file, .indexed index⟩ ∧
      index.entries = [⟨(tinyWrite 7).identifier, 512, 1, 0, 0, false⟩] ∧
      servedSegment [⟨fileName, file, .indexed index⟩] (tinyWrite 7).identifier = some [7] := by
  obtain ⟨writer, -, hrep, -, -⟩ :=
    exists_writer fileName [tinyWrite 7] (by simp) (by decide)
  obtain ⟨archive, index, hopen, hindex, hholds⟩ :=
    @roundTrips_of_length fileName fileName _ writer ⟨0, 0, 0⟩ hrep (by decide)
      (by decide) (by decide) (by decide)
  have hname := openFile_fileName hopen
  obtain ⟨own, bytes, content⟩ := archive
  obtain rfl : own = fileName := hname
  have hentries := List.perm_singleton.mp (hholds.entries.trans (List.Perm.refl _))
  cases content with
  | recovered reason entries => cases hindex
  | indexed found =>
    cases hindex
    have hbytes : bytes = bodyBytes
        (writes ([tinyWrite 7].map .writeSegment)) ++
          writer.trailerBytes ⟨0, 0, 0⟩ := TarArchiveReader.openFile_bytes hopen
    rw [← hbytes] at hopen
    refine ⟨bytes, index, hopen, hentries, ?_⟩
    have hlisted : (tinyWrite 7).identifier ∈
        index.entries.map SegmentIndexEntry.segmentIdentifier := by
      rw [hentries]
      exact List.mem_singleton_self _
    refine (servedSegment_singleton ..).trans ((if_pos hlisted).trans ?_)
    exact (hholds.data (tinyWrite 7) (List.mem_singleton_self _)).2

/-- The only archive of a directory holds one segment, which is reclaimed: the archive is
removed, and the directory opens without the segment. -/
theorem sweep_serves_survivors_removed : ∃ (directory after : Directory)
    (readers readers' : List TarArchiveReader) (sweeps : List PlannedSweep),
    directory.openArchives ["data00000a.tar"] = .ok readers ∧
      servedSegment (readersOf readers 0) (tinyWrite 7).identifier ≠ none ∧
      SweepRun {(tinyWrite 7).identifier} .everyReclaimableArchive directory sweeps after ∧
      ActedOn sweeps 0 ∧
      (∀ listing', after.ListedAs listing' → after.openArchives listing' = .ok readers') ∧
      servedSegment (readersOf readers' 0) (tinyWrite 7).identifier = none := by
  obtain ⟨file, index, hopen, hentries, hserved⟩ := exists_tinyArchive "data00000a.tar"
  obtain ⟨reader, hreader⟩ : ∃ reader : TarArchiveReader,
    reader = ⟨"data00000a.tar", file, .indexed index⟩ := ⟨_, rfl⟩
  rw [← hreader] at hopen hserved
  obtain ⟨directory, hdirectory⟩ : ∃ directory : Directory,
    directory = Finmap.singleton "data00000a.tar" (.readable file) := ⟨_, rfl⟩
  have hlookup : directory.lookup "data00000a.tar" = some (.readable file) := by
    rw [hdirectory]
    exact Finmap.lookup_singleton_eq
  have hlisted : directory.ListedAs ["data00000a.tar"] := by
    refine ⟨List.nodup_singleton _, fun name => ?_⟩
    rw [List.mem_singleton, hdirectory, Finmap.mem_singleton]
  have hindexed : directory.Indexed "data00000a.tar" reader :=
    Directory.indexed_of_lookup hlookup hopen (by rw [hreader]; rfl)
  have hopens : directory.openArchives ["data00000a.tar"] = .ok [reader] := by
    refine (Directory.openArchives_ok_iff hlisted).mpr ⟨?_, [[reader]], ?_, rfl⟩
    · refine (Directory.distinct_iff hlisted).mp ?_
      decide +kernel
    · have hnumbers : numbersNewestFirst (Directory.archiveNames ["data00000a.tar"]) = [0] := by
        decide +kernel
      have hletters : lettersOf (Directory.archiveNames ["data00000a.tar"]) 0 =
          [⟨"data00000a.tar", 0, 97⟩] := by decide +kernel
      rw [hnumbers]
      refine .cons ?_ .nil
      rw [hletters]
      exact Directory.openGroup_indexed (fun name hname => absurd hname List.not_mem_nil) hindexed
  have hparse : parse "data00000a.tar" = some ⟨"data00000a.tar", 0, 97⟩ := by decide +kernel
  have hnumber : reader.archiveNumber = some 0 := by
    rw [TarArchiveReader.archiveNumber, hreader, hparse]
    rfl
  have hplan : planArchiveSweep directory ["data00000a.tar"] reader {(tinyWrite 7).identifier}
      .everyReclaimableArchive ∅ = .ok (some (.remove "data00000a.tar" 1 file.length)) := by
    have hresidue : alternateGenerationResidue ["data00000a.tar"] ⟨"data00000a.tar", 0, 97⟩ ∅ =
        none := by decide +kernel
    rw [planArchiveSweep, hreader]
    simp only [hparse, TarArchiveReader.index, hentries, hresidue]
    rfl
  have hrun : SweepRun {(tinyWrite 7).identifier} .everyReclaimableArchive directory
      [(reader, some (.remove "data00000a.tar" 1 file.length))]
      (directory.erase "data00000a.tar") := .step hlisted hplan .removed .done
  have hacted : ActedOn [(reader, some (.remove "data00000a.tar" 1 file.length))] 0 :=
    actedOn_cons.mpr (.inl ⟨rfl, hnumber⟩)
  have hown : readersOf [reader] 0 = [reader] := by
    rw [readersOf, List.filter_singleton, hnumber]
    rfl
  have hwinners : ∀ sweep ∈ [(reader, some (PlannedArchiveSweep.remove "data00000a.tar" 1
      file.length))], sweep.1 ∈ [reader] := by
    intro sweep hsweep
    rw [List.mem_singleton.mp hsweep]
    exact List.mem_singleton_self _
  have hdistinct : ([(reader, some (PlannedArchiveSweep.remove "data00000a.tar" 1
      file.length))].map Prod.fst).Nodup := List.nodup_singleton reader
  obtain ⟨readers', hopens', hserves⟩ := sweep_serves_survivors hlisted hopens hdistinct hwinners
    hrun
  refine ⟨directory, _, [reader], readers', _, hopens, ?_, hrun, hacted, hopens', ?_⟩
  · rw [hown, hserved]
    exact Option.some_ne_none _
  · rw [((hserves 0).1 hacted).1, if_pos (Finset.mem_singleton_self _)]

end Froe
