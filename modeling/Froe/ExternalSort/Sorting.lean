import Froe.ExternalSort.Passes
import Froe.Lib.Separators

/-!
# What a sort holds

Every operation of a sort that may fail succeeds when its run files are free and its
records fit the spill format.  `SortedRuns.Holds` says which records a sort holds, in
its run files and in memory.
-/

namespace Froe

open SpillRecord

variable {Record : Type} [SpillRecord Record]

/-! ## Run paths -/

variable {location other : RunLocation} {path : RunPath} {number : Nat}

/-- No two locations share a file name. -/
theorem RunLocation.runPath_inj {m n : Nat}
    (h : location.runPath m = other.runPath n) : location = other ∧ m = n := by
  obtain ⟨hdirectory, hname⟩ := RunPath.mk.inj h
  have hdashes := congrArg List.reverse (List.append_cancel_right hname)
  rw [List.reverse_append, List.reverse_append, List.reverse_append, List.reverse_append] at hdashes
  have hdash : ∀ number, (45 : UInt8) ∉ (Digits.padded 10 6 number).reverse := fun number hmem =>
    Digits.not_mem_padded (by decide) (by decide) (by decide) (List.mem_reverse.mp hmem)
  obtain ⟨hdigits, hnames⟩ := (Separators.append_cons_inj (hdash m) (hdash n)).mp hdashes
  obtain ⟨directory, name⟩ := location
  obtain ⟨directory', name'⟩ := other
  obtain rfl : directory = directory' := hdirectory
  obtain rfl : name = name' := Utf8.utf8_injective (List.reverse_injective hnames)
  exact ⟨rfl, Digits.padded_inj (by decide) (by decide) (List.reverse_injective hdigits)⟩

def RunLocation.Owns (location : RunLocation) (path : RunPath) : Prop :=
  ∃ number, path = location.runPath number

theorem RunLocation.Owns.eq (h : location.Owns path) (h' : other.Owns path) : location = other := by
  obtain ⟨m, rfl⟩ := h
  obtain ⟨n, heq⟩ := h'
  exact (runPath_inj heq).1

/-- Only files of a location differ. -/
def SameElsewhere (location : RunLocation) (disk disk' : Disk) : Prop :=
  ∀ path, ¬ location.Owns path → disk' path = disk path

theorem SameElsewhere.trans {disk disk' disk'' : Disk}
    (h : SameElsewhere location disk disk') (h' : SameElsewhere location disk' disk'') :
    SameElsewhere location disk disk'' :=
  fun path hpath => (h' path hpath).trans (h path hpath)

theorem sameElsewhere_update (location : RunLocation) (disk : Disk) (number : Nat)
    (bytes : Option Bytes) :
    SameElsewhere location disk (Function.update disk (location.runPath number) bytes) :=
  fun _ hpath => Function.update_of_ne (fun heq => hpath ⟨number, heq⟩) _ _

theorem sameElsewhere_removeAll {paths : List RunPath} (disk : Disk)
    (h : ∀ path ∈ paths, location.Owns path) : SameElsewhere location disk (disk.removeAll paths) :=
  fun path hpath => if_neg fun hmem => hpath (h path hmem)

/-- The numbers from some number on are free. -/
def FreshFrom (location : RunLocation) (disk : Disk) (number : Nat) : Prop :=
  ∀ n, number ≤ n → disk (location.runPath n) = none

theorem FreshFrom.update {disk : Disk} (h : FreshFrom location disk number) (bytes : Option Bytes) :
    FreshFrom location (Function.update disk (location.runPath number) bytes) (number + 1) := by
  intro n hn
  rw [Function.update_of_ne]
  · exact h n (Nat.le_of_succ_le hn)
  · intro heq
    exact absurd (RunLocation.runPath_inj heq).2 (by omega)

theorem FreshFrom.removeAll {disk : Disk}
    (h : FreshFrom location disk number) (paths : List RunPath) :
    FreshFrom location (disk.removeAll paths) number := by
  intro n hn
  rw [Disk.removeAll]
  split
  · rfl
  · exact h n hn

/-! ## Merging runs -/

/-- A path with a number below some bound. -/
def RunLocation.OwnsBelow (location : RunLocation) (bound : Nat) (path : RunPath) : Prop :=
  ∃ number < bound, path = location.runPath number

theorem RunLocation.OwnsBelow.owns {bound : Nat}
    (h : location.OwnsBelow bound path) : location.Owns path := by
  obtain ⟨number, -, rfl⟩ := h
  exact ⟨number, rfl⟩

theorem RunLocation.OwnsBelow.ne {bound : Nat}
    (h : location.OwnsBelow bound path) (hnumber : bound ≤ number) :
    path ≠ location.runPath number := by
  obtain ⟨n, hn, rfl⟩ := h
  intro heq
  exact absurd (runPath_inj heq).2 (by omega)

/-- The paths of the runs that a round writes. -/
def SortedRuns.nextPaths (sort : SortedRuns Record) (count : Nat) : List RunPath :=
  (List.range' sort.nextRunNumber count).map sort.location.runPath

omit [SpillRecord Record] in
theorem SortedRuns.owns_nextPaths {sort : SortedRuns Record} {count : Nat}
    (h : path ∈ sort.nextPaths count) :
    sort.location.OwnsBelow (sort.nextRunNumber + count) path := by
  obtain ⟨number, hnumber, rfl⟩ := List.mem_map.mp h
  exact ⟨number, (List.mem_range'_1.mp hnumber).2, rfl⟩

omit [SpillRecord Record] in
theorem SortedRuns.nodup_nextPaths (sort : SortedRuns Record) (count : Nat) :
    (sort.nextPaths count).Nodup :=
  (List.nodup_range' ..).map fun _ _ heq => (RunLocation.runPath_inj heq).2

section

variable [LawfulSpillRecord Record] {sort : SortedRuns Record} {disk : Disk}
  {run : RunPath → List Record}

theorem SortedRuns.mergeGroup_ok {group : List RunPath}
    (hgroup : ∀ path ∈ group, OnDisk disk run path)
    (hfresh : FreshFrom sort.location disk sort.nextRunNumber) :
    ∃ merged : List Record, merged.Perm (group.flatMap run) ∧ Ascending merged ∧
      (∀ record ∈ merged, Fits record) ∧
      sort.mergeGroup disk group =
        (.ok (sort.location.runPath sort.nextRunNumber),
          { sort with nextRunNumber := sort.nextRunNumber + 1 },
          Disk.removeAll (Function.update disk (sort.location.runPath sort.nextRunNumber)
            (some (encodeRun merged))) group) := by
  obtain ⟨pass, hopen, hyields, -, -⟩ := SortedPass.open_ok hgroup false
  obtain ⟨merged, hitems, hperm, hascending⟩ := hyields.items hyields.length_le
  have hfits : ∀ record ∈ merged, Fits record := by
    intro record hmem
    obtain ⟨path, hpath, hrecord⟩ := List.mem_flatMap.mp (hperm.subset hmem)
    exact (hgroup path hpath).fits record hrecord
  refine ⟨merged, hperm, hascending, hfits, ?_⟩
  rw [SortedRuns.mergeGroup, hopen]
  dsimp only
  rw [hitems, writeRun_ok (hfresh _ (Nat.le_refl _)) hfits]

theorem SortedRuns.mergeGroups_ok {groups : List (List RunPath)}
    (hgroups : ∀ path ∈ groups.flatten, OnDisk disk run path)
    (hown : ∀ path ∈ groups.flatten, sort.location.OwnsBelow sort.nextRunNumber path)
    (hnodup : groups.flatten.Nodup) (hfresh : FreshFrom sort.location disk sort.nextRunNumber) :
    ∃ disk' run',
      sort.mergeGroups disk groups = (.ok (sort.nextPaths groups.length),
        { sort with nextRunNumber := sort.nextRunNumber + groups.length }, disk') ∧
      (∀ path ∈ sort.nextPaths groups.length, OnDisk disk' run' path) ∧
      ((sort.nextPaths groups.length).flatMap run').Perm (groups.flatten.flatMap run) ∧
      FreshFrom sort.location disk' (sort.nextRunNumber + groups.length) ∧
      ∀ path ∉ groups.flatten, path ∉ sort.nextPaths groups.length → disk' path = disk path := by
  induction groups generalizing sort disk run with
  | nil => exact ⟨disk, run, rfl, nofun, .refl _, hfresh, fun _ _ _ => rfl⟩
  | cons group groups ih =>
    rw [List.flatten_cons] at hgroups hown hnodup
    rw [List.forall_mem_append] at hgroups hown
    obtain ⟨merged, hperm, hascending, hfits, hmerge⟩ :=
      SortedRuns.mergeGroup_ok hgroups.1 hfresh
    obtain ⟨path, hpath⟩ : ∃ path, path = sort.location.runPath sort.nextRunNumber := ⟨_, rfl⟩
    obtain ⟨next, hnext⟩ : ∃ next : SortedRuns Record,
      next = { sort with nextRunNumber := sort.nextRunNumber + 1 } := ⟨_, rfl⟩
    obtain ⟨written, hwritten⟩ : ∃ written : Disk, written =
      Disk.removeAll (Function.update disk path (some (encodeRun merged))) group := ⟨_, rfl⟩
    rw [← hpath, ← hnext, ← hwritten] at hmerge
    have hnotin : path ∉ group := fun hmem => (hown.1 path hmem).ne (Nat.le_refl _) hpath
    have hkeep : ∀ other ∈ groups.flatten, written other = disk other := by
      intro other hother
      have hout : other ∉ group := fun hmem => List.disjoint_of_nodup_append hnodup hmem hother
      have hne : other ≠ path := hpath ▸ (hown.2 other hother).ne (Nat.le_refl _)
      rw [hwritten, Disk.removeAll, if_neg hout, Function.update_of_ne hne]
    have hfresh' : FreshFrom next.location written next.nextRunNumber := by
      rw [hnext, hwritten, hpath]
      exact (hfresh.update _).removeAll group
    have hown' : ∀ other ∈ groups.flatten, next.location.OwnsBelow next.nextRunNumber other := by
      intro other hother
      obtain ⟨number, hlt, heq⟩ := hown.2 other hother
      rw [hnext]
      exact ⟨number, Nat.lt_succ_of_lt hlt, heq⟩
    obtain ⟨disk', run', hrest, hdisk, hruns, hfrom, hframe⟩ := ih
      (fun other hother => (hgroups.2 other hother).congr (hkeep other hother) rfl) hown'
      (List.Nodup.of_append_right hnodup) hfresh'
    have hpaths : sort.nextPaths (group :: groups).length =
        path :: next.nextPaths groups.length := by
      rw [SortedRuns.nextPaths, List.length_cons, List.range'_succ, List.map_cons, ← hpath, hnext]
      rfl
    have hlater : path ∉ next.nextPaths groups.length := by
      intro hmem
      obtain ⟨number, hnumber, heq⟩ := List.mem_map.mp hmem
      rw [hnext] at hnumber heq
      rw [hpath] at heq
      have hle := (List.mem_range'_1.mp hnumber).1
      exact absurd (RunLocation.runPath_inj heq).2 (by dsimp only at hle; omega)
    have hsame : disk' path = some (encodeRun merged) := by
      rw [hframe path (fun hmem => (hown.2 path hmem).ne (Nat.le_refl _) hpath) hlater, hwritten,
        Disk.removeAll, if_neg hnotin, Function.update_self]
    refine ⟨disk', Function.update run' path merged, ?_, ?_, ?_, ?_, ?_⟩
    · rw [SortedRuns.mergeGroups, hmerge]
      dsimp only
      rw [hrest, hpaths, hnext, List.length_cons, Nat.add_assoc, Nat.add_comm 1]
    · rw [hpaths, List.forall_mem_cons]
      constructor
      · refine ⟨?_, ?_, ?_⟩
        · rw [Function.update_self]
          exact hsame
        · rw [Function.update_self]
          exact hascending
        · rw [Function.update_self]
          exact hfits
      · intro other hother
        have hne : other ≠ path := fun heq => hlater (heq ▸ hother)
        exact (hdisk other hother).congr rfl (Function.update_of_ne hne _ _)
    · rw [hpaths, List.flatMap_cons, Function.update_self, List.flatten_cons, List.flatMap_append]
      have hcongr : (next.nextPaths groups.length).flatMap (Function.update run' path merged) =
          (next.nextPaths groups.length).flatMap run' := by
        refine List.flatMap_congr fun other hother => ?_
        have hne : other ≠ path := fun heq => hlater (heq ▸ hother)
        exact Function.update_of_ne hne _ _
      rw [hcongr]
      exact hperm.append hruns
    · rw [hnext] at hfrom
      rw [List.length_cons, Nat.add_comm groups.length, ← Nat.add_assoc]
      exact hfrom
    · intro other hout hnot
      rw [hpaths, List.mem_cons, not_or] at hnot
      rw [List.flatten_cons, List.mem_append, not_or] at hout
      rw [hframe other hout.2 hnot.2, hwritten, Disk.removeAll, if_neg hout.1,
        Function.update_of_ne hnot.1]

/-- The rounds keep the records and leave few enough runs. -/
theorem SortedRuns.reduceToFanIn_ok {fanIn : Nat} (hfanIn : 2 ≤ fanIn) {fuel : Nat}
    {runs : List RunPath} (hruns : ∀ path ∈ runs, OnDisk disk run path)
    (hown : ∀ path ∈ runs, sort.location.OwnsBelow sort.nextRunNumber path) (hnodup : runs.Nodup)
    (hfresh : FreshFrom sort.location disk sort.nextRunNumber) (hfuel : runs.length ≤ fuel) :
    ∃ reduced number disk' run',
      SortedRuns.reduceToFanIn fanIn fuel sort disk runs =
        (.ok reduced, { sort with nextRunNumber := number }, disk') ∧
      reduced.length ≤ fanIn ∧ (∀ path ∈ reduced, OnDisk disk' run' path) ∧
      (∀ path ∈ reduced, sort.location.Owns path) ∧
      (reduced.flatMap run').Perm (runs.flatMap run) ∧
      SameElsewhere sort.location disk disk' := by
  induction fuel generalizing sort disk run runs with
  | zero =>
    refine ⟨runs, sort.nextRunNumber, disk, run, rfl, by omega, hruns,
      fun path hmem => (hown path hmem).owns, .refl _, fun _ _ => rfl⟩
  | succ fuel ih =>
    rw [SortedRuns.reduceToFanIn]
    by_cases hmany : fanIn < runs.length
    · have hpos : 0 < fanIn := by omega
      have hflatten := List.flatten_chunks hpos runs
      have hlength : (runs.chunks fanIn).length ≤ fuel := by
        rw [List.length_chunks hpos]
        refine Nat.lt_succ_iff.mp (lt_of_lt_of_le ?_ hfuel)
        rw [Nat.div_lt_iff_lt_mul hpos]
        have htwice := Nat.mul_le_mul_left runs.length hfanIn
        omega
      obtain ⟨next, run', hmerge, hdisk, hperm, hfrom, hframe⟩ :=
        @SortedRuns.mergeGroups_ok _ _ _ sort disk run (runs.chunks fanIn)
          (by rwa [hflatten]) (by rwa [hflatten]) (by rwa [hflatten]) hfresh
      rw [hflatten] at hperm hframe
      have hcount : (sort.nextPaths (runs.chunks fanIn).length).length ≤ fuel := by
        rwa [SortedRuns.nextPaths, List.length_map, List.length_range']
      obtain ⟨reduced, number, disk', run'', hreduce, hfew, hdisk', hown', hperm', hframe'⟩ :=
        @ih { sort with nextRunNumber := sort.nextRunNumber + (runs.chunks fanIn).length } next run'
          (sort.nextPaths (runs.chunks fanIn).length) hdisk
          (fun _ hmem => SortedRuns.owns_nextPaths hmem) (SortedRuns.nodup_nextPaths _ _) hfrom hcount
      rw [if_pos hmany, hmerge]
      dsimp only
      refine ⟨reduced, number, disk', run'', hreduce, hfew, hdisk', hown', hperm'.trans hperm, ?_⟩
      refine SameElsewhere.trans (fun path hpath => ?_) hframe'
      exact hframe path (fun hmem => hpath (hown path hmem).owns)
        (fun hmem => hpath (SortedRuns.owns_nextPaths hmem).owns)
    · rw [if_neg hmany]
      exact ⟨runs, sort.nextRunNumber, disk, run, rfl, not_lt.mp hmany, hruns,
        fun path hmem => (hown path hmem).owns, .refl _, fun _ _ => rfl⟩

end

/-! ## Pushing and spilling -/

def chargeOf (records : List Record) : Nat := (records.map residentSize).sum

structure SortedRuns.Holds (sort : SortedRuns Record) (disk : Disk) (records : List Record) :
    Prop where
  residentBytes : sort.residentBytes = chargeOf sort.resident
  fits : ∀ record ∈ sort.resident, Fits record
  nodup : sort.spilled.Nodup
  own : ∀ path ∈ sort.spilled, sort.location.OwnsBelow sort.nextRunNumber path
  fresh : FreshFrom sort.location disk sort.nextRunNumber
  runs : ∃ run, (∀ path ∈ sort.spilled, OnDisk disk run path) ∧
    (sort.spilled.flatMap run ++ sort.resident).Perm records

/-- Only files of the location matter. -/
theorem SortedRuns.Holds.congr {sort : SortedRuns Record} {disk disk' : Disk}
    {records : List Record} (h : sort.Holds disk records)
    (hdisk : ∀ path, sort.location.Owns path → disk' path = disk path) :
    sort.Holds disk' records := by
  obtain ⟨run, hrun, hperm⟩ := h.runs
  refine ⟨h.residentBytes, h.fits, h.nodup, h.own, fun n hn => ?_, run, fun path hmem => ?_, hperm⟩
  · rw [hdisk _ ⟨n, rfl⟩]
    exact h.fresh n hn
  · exact (hrun path hmem).congr (hdisk path (h.own path hmem).owns) rfl

theorem SortedRuns.holds_new {disk : Disk}
    (hfresh : FreshFrom location disk 0) : (SortedRuns.new location).Holds disk ([] : List Record) :=
  ⟨rfl, nofun, .nil, nofun, hfresh, fun _ => [], nofun, .refl _⟩

section

variable [LawfulSpillRecord Record] {sort : SortedRuns Record} {shared : SortShared}
  {records : List Record}

structure SortedRuns.Spilled (sort : SortedRuns Record) (shared : SortShared)
    (records : List Record) (sort' : SortedRuns Record) (shared' : SortShared) : Prop where
  holds : sort'.Holds shared'.disk records
  resident : sort'.resident = []
  location : sort'.location = sort.location
  budget : shared'.budget = shared.budget.release sort.residentBytes
  elsewhere : SameElsewhere sort.location shared.disk shared'.disk

theorem SortedRuns.Holds.spill (h : sort.Holds shared.disk records) :
    ∃ sort' shared', sort.spill shared = (.ok (), sort', shared') ∧
      sort.Spilled shared records sort' shared' := by
  rw [SortedRuns.spill]
  by_cases hempty : sort.resident = []
  · refine ⟨sort, shared, by rw [hempty]; rfl, h, hempty, rfl, ?_, fun _ _ => rfl⟩
    rw [h.residentBytes, hempty]
    rfl
  · obtain ⟨path, hpath⟩ : ∃ path, path = sort.location.runPath sort.nextRunNumber := ⟨_, rfl⟩
    have hsorted := LawfulSpillRecord.sort_perm sort.resident
    have hfits : ∀ record ∈ sortUnstable sort.resident, Fits record :=
      fun record hmem => h.fits record (hsorted.subset hmem)
    have hfree : shared.disk path = none := hpath ▸ h.fresh _ (Nat.le_refl _)
    rw [if_neg (by rwa [List.isEmpty_iff]), ← hpath]
    dsimp only
    rw [writeRun_ok hfree hfits]
    refine ⟨_, _, rfl, ⟨rfl, nofun, ?_, ?_, ?_, ?_⟩, rfl, rfl, rfl, ?_⟩
    · refine List.nodup_append'.mpr ⟨h.nodup, List.nodup_singleton _, fun other hmem hpath' => ?_⟩
      exact (h.own other hmem).ne (Nat.le_refl _) ((List.mem_singleton.mp hpath').trans hpath)
    · refine List.forall_mem_append.mpr ⟨fun other hmem => ?_, fun other hmem => ?_⟩
      · obtain ⟨number, hlt, heq⟩ := h.own other hmem
        exact ⟨number, Nat.lt_succ_of_lt hlt, heq⟩
      · exact ⟨sort.nextRunNumber, Nat.lt_succ_self _, (List.mem_singleton.mp hmem).trans hpath⟩
    · dsimp only
      rw [hpath]
      exact h.fresh.update _
    · obtain ⟨run, hrun, hperm⟩ := h.runs
      have hne : ∀ other ∈ sort.spilled, other ≠ path :=
        fun other hmem => hpath ▸ (h.own other hmem).ne (Nat.le_refl _)
      refine ⟨Function.update run path (sortUnstable sort.resident), ?_, ?_⟩
      · refine List.forall_mem_append.mpr ⟨fun other hmem => ?_, fun other hmem => ?_⟩
        · exact (hrun other hmem).congr (Function.update_of_ne (hne other hmem) _ _)
            (Function.update_of_ne (hne other hmem) _ _)
        · obtain rfl := List.mem_singleton.mp hmem
          refine ⟨?_, ?_, ?_⟩
          · rw [Function.update_self]
            exact Function.update_self ..
          · rw [Function.update_self]
            exact LawfulSpillRecord.sort_ascending _
          · rw [Function.update_self]
            exact hfits
      · have hcongr : sort.spilled.flatMap (Function.update run path (sortUnstable sort.resident)) =
            sort.spilled.flatMap run :=
          List.flatMap_congr fun other hmem => Function.update_of_ne (hne other hmem) _ _
        rw [List.append_nil, List.flatMap_append, hcongr, List.flatMap_singleton,
          Function.update_self]
        exact (hsorted.append_left _).trans hperm
    · rw [hpath]
      exact sameElsewhere_update _ _ _ _

/-- A push adds its record, and the budget follows the records in memory. -/
theorem SortedRuns.Holds.push (h : sort.Holds shared.disk records) {record : Record}
    (hfits : Fits record) (hcharged : sort.residentBytes ≤ shared.budget.charged)
    (hsize : shared.budget.charged + residentSize record ≤ usizeMax) :
    ∃ sort' shared', sort.push shared record = (.ok (), sort', shared') ∧
      sort'.Holds shared'.disk (records ++ [record]) ∧ sort'.location = sort.location ∧
      shared'.budget.charged = shared.budget.charged - sort.residentBytes + sort'.residentBytes ∧
      SameElsewhere sort.location shared.disk shared'.disk := by
  obtain ⟨filled, hfilled⟩ : ∃ filled : SortedRuns Record, filled = { sort with
      resident := sort.resident ++ [record]
      residentBytes := saturatingAdd sort.residentBytes (residentSize record) } := ⟨_, rfl⟩
  have hbytes : filled.residentBytes = sort.residentBytes + residentSize record := by
    rw [hfilled]
    exact min_eq_left (by omega)
  have hcharge : (shared.budget.charge (residentSize record)).charged =
      shared.budget.charged + residentSize record := min_eq_left hsize
  have hholds : filled.Holds shared.disk (records ++ [record]) := by
    obtain ⟨run, hrun, hperm⟩ := h.runs
    rw [h.residentBytes] at hbytes
    rw [hfilled] at hbytes ⊢
    refine ⟨?_, ?_, h.nodup, h.own, h.fresh, run, hrun, ?_⟩
    · rw [hbytes, chargeOf, chargeOf, List.map_append, List.sum_append, List.map_singleton,
        List.sum_singleton]
    · refine List.forall_mem_append.mpr ⟨h.fits, fun other hmem => ?_⟩
      rw [List.mem_singleton.mp hmem]
      exact hfits
    · rw [← List.append_assoc]
      exact hperm.append_right _
  have hlocation : filled.location = sort.location := by rw [hfilled]
  rw [SortedRuns.push, ← hfilled]
  by_cases hover : (shared.budget.charge (residentSize record)).exceeded = true
  · rw [if_pos hover]
    have hholds' : filled.Holds
        (SortShared.mk (shared.budget.charge (residentSize record)) shared.disk).disk
        (records ++ [record]) := hholds
    obtain ⟨sort', shared', hspill, hspilled⟩ := hholds'.spill
    refine ⟨sort', shared', hspill, hspilled.holds, hspilled.location.trans hlocation, ?_, ?_⟩
    · rw [hspilled.budget, hspilled.holds.residentBytes, hspilled.resident]
      show (shared.budget.charge (residentSize record)).charged - filled.residentBytes = _
      rw [hcharge, hbytes]
      show _ = shared.budget.charged - sort.residentBytes + 0
      omega
    · rw [← hlocation]
      exact hspilled.elsewhere
  · rw [if_neg hover]
    refine ⟨filled, _, rfl, hholds, hlocation, ?_, fun _ _ => rfl⟩
    dsimp only
    rw [hcharge, hbytes]
    omega

/-- The runs that a pass merges hold all records. -/
theorem SortedRuns.Holds.intoRuns {fanIn : Nat} (hfanIn : 2 ≤ fanIn)
    (h : sort.Holds shared.disk records) :
    ∃ runs sort' disk' run,
      sort.intoRuns fanIn shared =
        (.ok runs, sort', ⟨shared.budget.release sort.residentBytes, disk'⟩) ∧
      sort'.residentBytes = 0 ∧ sort'.spilled = [] ∧ runs.length ≤ fanIn ∧
      (∀ path ∈ runs, OnDisk disk' run path) ∧ (∀ path ∈ runs, sort.location.Owns path) ∧
      (runs.flatMap run).Perm records ∧ SameElsewhere sort.location shared.disk disk' := by
  obtain ⟨spilled, ⟨budget, written⟩, hspill, hspilled⟩ := h.spill
  obtain ⟨run, hrun, hperm⟩ := hspilled.holds.runs
  obtain rfl : budget = shared.budget.release sort.residentBytes := hspilled.budget
  have hlocation := hspilled.location
  obtain ⟨reduced, number, disk', run', hreduce, hfew, hdisk, hown, hperm', hframe⟩ :=
    @SortedRuns.reduceToFanIn_ok Record _ _ { spilled with spilled := [] } written run fanIn hfanIn
      spilled.spilled.length spilled.spilled hrun hspilled.holds.own hspilled.holds.nodup
      hspilled.holds.fresh (Nat.le_refl _)
  rw [hspilled.resident, List.append_nil] at hperm
  have hbytes := hspilled.holds.residentBytes
  rw [hspilled.resident] at hbytes
  rw [SortedRuns.intoRuns, hspill]
  dsimp only
  rw [hreduce]
  refine ⟨reduced, _, disk', run', rfl, hbytes, rfl, hfew, hdisk, ?_, hperm'.trans hperm, ?_⟩
  · rw [← hlocation]
    exact hown
  · refine hspilled.elsewhere.trans ?_
    rw [← hlocation]
    exact hframe

end

end Froe
