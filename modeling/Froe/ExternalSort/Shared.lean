import Froe.ExternalSort.Sorting
import Mathlib.Algebra.BigOperators.Group.Finset.Basic
import Mathlib.Algebra.BigOperators.Group.Finset.Piecewise

/-!
# Several sorts on one budget

Sorts of different kinds of records share one budget and one disk.  Their operations
come in any order.  A slot holds a sort, the pass that it was turned into or the
passes, and keeps what was pushed and what the calls returned.
-/

namespace Froe

open SpillRecord

/-! ## Slots -/

/-- What has become of a sort. -/
inductive SortStage (Record : Type) where
  | absent
  | sorting (sort : SortedRuns Record)
  | streaming (location : RunLocation) (pass : SortedPass Record)
  | passes (location : RunLocation) (passes : SortedPasses Record)
      (current : Option (SortedPass Record))

/-- Where the runs of a stage are. -/
def SortStage.location? {Record : Type} : SortStage Record → Option RunLocation
  | .absent => none
  | .sorting sort => some sort.location
  | .streaming location _ => some location
  | .passes location _ _ => some location

/-- The pass under way. -/
def SortStage.pass? {Record : Type} : SortStage Record → Option (SortedPass Record)
  | .absent => none
  | .sorting _ => none
  | .streaming _ pass => some pass
  | .passes _ _ current => current

/-- A sort of the process, with what it was given and what it gave. -/
structure SortSlot (Record : Type) where
  stage : SortStage Record
  /-- The records that were pushed. -/
  pushed : List Record
  /-- What the calls for the next item of the pass under way returned. -/
  results : List (Option (Except SortError Record))
  /-- The failures of the other calls. -/
  errors : List SortError

/-- No sort yet. -/
def SortSlot.empty {Record : Type} : SortSlot Record := ⟨.absent, [], [], []⟩

/-- The calls of a sort. -/
inductive SortCall (Record : Type) where
  | create (location : RunLocation)
  | push (record : Record)
  | intoSorted
  | intoSortedPasses
  | pass
  | next
  | drop

section

variable {Record : Type} [SpillRecord Record]

/-- What a sort has charged. -/
def SortSlot.charge (slot : SortSlot Record) : Nat :=
  match slot.stage with
  | .sorting sort => chargeOf sort.resident
  | _ => 0

/-- Asks for the next item of the pass under way. -/
def SortSlot.next (slot : SortSlot Record) (shared : SortShared) : SortSlot Record × SortShared :=
  match slot.stage with
  | .streaming location pass =>
    match pass.advance with
    | none => ({ slot with results := slot.results ++ [none] }, shared)
    | some (item, pass, unlinked) =>
      ({ slot with stage := .streaming location pass, results := slot.results ++ [some item] },
        { shared with disk := shared.disk.removeAll unlinked })
  | .passes location passes (some pass) =>
    match pass.advance with
    | none => ({ slot with results := slot.results ++ [none] }, shared)
    | some (item, pass, unlinked) =>
      ({ slot with
          stage := .passes location passes (some pass)
          results := slot.results ++ [some item] },
        { shared with disk := shared.disk.removeAll unlinked })
  | _ => (slot, shared)

/-- Gives up what a sort holds. -/
def SortSlot.drop (slot : SortSlot Record) (shared : SortShared) : SortSlot Record × SortShared :=
  match slot.stage with
  | .absent => (slot, shared)
  | .sorting sort => ({ slot with stage := .absent }, sort.drop shared)
  | .streaming _ pass =>
    ({ slot with stage := .absent }, { shared with disk := shared.disk.removeAll pass.unlinked })
  | .passes _ passes _ =>
    ({ slot with stage := .absent }, { shared with disk := shared.disk.removeAll passes.runs })

/-- One call.  A call that the slot cannot take changes nothing. -/
def SortSlot.call (fanIn : Nat) (slot : SortSlot Record) (shared : SortShared) :
    SortCall Record → SortSlot Record × SortShared
  | .create location =>
    match slot.stage with
    | .absent => (⟨.sorting (.new location), [], [], slot.errors⟩, shared)
    | _ => (slot, shared)
  | .push record =>
    match slot.stage with
    | .sorting sort =>
      match sort.push shared record with
      | (.ok (), sort, shared) =>
        ({ slot with stage := .sorting sort, pushed := slot.pushed ++ [record] }, shared)
      | (.error error, sort, shared) =>
        ({ slot with
            stage := .sorting sort
            pushed := slot.pushed ++ [record]
            errors := slot.errors ++ [error] }, shared)
    | _ => (slot, shared)
  | .intoSorted =>
    match slot.stage with
    | .sorting sort =>
      match sort.intoSorted fanIn shared with
      | (.ok pass, shared) => ({ slot with stage := .streaming sort.location pass }, shared)
      | (.error error, shared) =>
        ({ slot with stage := .absent, errors := slot.errors ++ [error] }, shared)
    | _ => (slot, shared)
  | .intoSortedPasses =>
    match slot.stage with
    | .sorting sort =>
      match sort.intoSortedPasses fanIn shared with
      | (.ok passes, shared) => ({ slot with stage := .passes sort.location passes none }, shared)
      | (.error error, shared) =>
        ({ slot with stage := .absent, errors := slot.errors ++ [error] }, shared)
    | _ => (slot, shared)
  | .pass =>
    match slot.stage with
    | .passes location passes _ =>
      match passes.pass shared.disk with
      | .ok pass => ({ slot with stage := .passes location passes (some pass), results := [] }, shared)
      | .error error =>
        ({ slot with
            stage := .passes location passes none
            errors := slot.errors ++ [error] }, shared)
    | _ => (slot, shared)
  | .next => slot.next shared
  | .drop => slot.drop shared

end

/-! ## The system -/

/-- All slots, with the ones that have been used. -/
structure SortSystem {ι : Type} (Record : ι → Type) where
  shared : SortShared
  slots : ∀ i, SortSlot (Record i)
  used : Finset ι

section

variable {ι : Type} [DecidableEq ι] {Record : ι → Type} [∀ i, SpillRecord (Record i)]

/-- A process before its first sort. -/
def SortSystem.start (limit : Nat) (disk : Disk) : SortSystem Record :=
  ⟨⟨⟨limit, 0⟩, disk⟩, fun _ => .empty, ∅⟩

/-- One call of one sort. -/
def SortSystem.step (fanIn : Nat) (system : SortSystem Record)
    (event : Σ i, SortCall (Record i)) : SortSystem Record :=
  let (slot, shared) := (system.slots event.1).call fanIn system.shared event.2
  ⟨shared, Function.update system.slots event.1 slot, insert event.1 system.used⟩

/-- A process after some calls. -/
def SortSystem.run (fanIn : Nat) (system : SortSystem Record)
    (events : List (Σ i, SortCall (Record i))) : SortSystem Record :=
  events.foldl (SortSystem.step fanIn) system

/-- What all sorts have charged. -/
def SortSystem.totalCharge (system : SortSystem Record) : Nat :=
  ∑ i ∈ system.used, (system.slots i).charge

end

/-! ## What a slot keeps -/

section

variable {Record : Type} [SpillRecord Record]

/-- The answers of a walk over some records in ascending order. -/
structure SortedWalk (pushed : List Record) (answers : List (Option (Except SortError Record)))
    (out : List Record) (ends : Nat) : Prop where
  eq : answers = out.map (fun record => some (.ok record)) ++ List.replicate ends none
  ascending : Ascending out
  subperm : out.Subperm pushed
  ended : ends ≠ 0 → out.Perm pushed
  complete : pushed.length < answers.length → out.Perm pushed

/-- A pass that has some records behind it and the others before it. -/
structure SortedPass.Walks (pass : SortedPass Record) (pushed : List Record)
    (results : List (Option (Except SortError Record))) (out left : List Record) (ends : Nat) :
    Prop where
  yields : pass.Yields left
  perm : (out ++ left).Perm pushed
  results : results = out.map (fun record => some (.ok record)) ++ List.replicate ends none
  ascending : Ascending out
  before : ∀ a ∈ out, ∀ b ∈ left, (SpillRecord.cmp a b).isLE
  ended : ends ≠ 0 → left = []

variable {pass : SortedPass Record} {pushed left : List Record}
  {results : List (Option (Except SortError Record))}

theorem SortedPass.Walks.sortedWalk {out : List Record} {ends : Nat}
    (h : pass.Walks pushed results out left ends) : SortedWalk pushed results out ends := by
  have hended : ends ≠ 0 → out.Perm pushed := by
    intro hends
    have hperm := h.perm
    rwa [h.ended hends, List.append_nil] at hperm
  refine ⟨h.results, h.ascending, ?_, hended, fun hmany => hended ?_⟩
  · exact (List.sublist_append_left out left).subperm.trans h.perm.subperm
  · rintro rfl
    have hlength := h.perm.length_eq
    rw [h.results, List.replicate_zero, List.append_nil, List.length_map] at hmany
    rw [List.length_append] at hlength
    omega

/-- A pass that has just been opened. -/
theorem SortedPass.Yields.walks
    (h : pass.Yields left) (hperm : left.Perm pushed) : pass.Walks pushed [] [] left 0 :=
  ⟨h, hperm, rfl, .nil, nofun, absurd rfl⟩

/-- One call for the next item. -/
theorem SortedPass.Walks.next [LawfulSpillRecord Record]
    {out : List Record} {ends : Nat} (h : pass.Walks pushed results out left ends) :
    (pass.advance = none ∧ pass.Walks pushed (results ++ [none]) out left (ends + 1)) ∨
      ∃ record pass' unlinked left', pass.advance = some (.ok record, pass', unlinked) ∧
        pass.SameFiles pass' unlinked ∧
        pass'.Walks pushed (results ++ [some (.ok record)]) (out ++ [record]) left' 0 := by
  rcases h.yields.advance with ⟨hleft, hnone⟩ | ⟨record, pass', unlinked, left', hsome, hyields,
    hperm, hleast, hfiles⟩
  · refine .inl ⟨hnone, h.yields, h.perm, ?_, h.ascending, h.before, fun _ => hleft⟩
    rw [h.results, List.append_assoc, List.replicate_succ']
  · have hmem : record ∈ left := hperm.subset (.head _)
    have hends : ends = 0 := by
      by_contra hne
      rw [h.ended hne] at hmem
      cases hmem
    refine .inr ⟨record, pass', unlinked, left', hsome, hfiles, hyields, ?_, ?_, ?_, ?_, absurd rfl⟩
    · rw [List.append_assoc]
      exact (hperm.append_left out).trans h.perm
    · rw [h.results, hends, List.replicate_zero, List.append_nil, List.append_nil, List.map_append]
      rfl
    · refine List.pairwise_append.mpr ⟨h.ascending, List.pairwise_singleton .., fun a ha b hb => ?_⟩
      rw [List.mem_singleton.mp hb]
      exact h.before a ha record hmem
    · refine List.forall_mem_append.mpr ⟨fun a ha b hb => ?_, fun a ha b hb => ?_⟩
      · exact h.before a ha b (hperm.subset (List.mem_cons_of_mem _ hb))
      · rw [List.mem_singleton.mp ha]
        exact hleast b (hperm.subset (List.mem_cons_of_mem _ hb))

/-- What a slot keeps. -/
def SortSlot.Ok (slot : SortSlot Record) (disk : Disk) : Prop :=
  match slot.stage with
  | .absent => True
  | .sorting sort => sort.Holds disk slot.pushed ∧ slot.results = []
  | .streaming location pass =>
    (∀ path ∈ pass.cursors.map RunCursor.path, location.Owns path) ∧
      ∃ out left ends, pass.Walks slot.pushed slot.results out left ends
  | .passes location passes current =>
    passes.resident = [] ∧ (∀ path ∈ passes.runs, location.Owns path) ∧
      (∃ run, (∀ path ∈ passes.runs, OnDisk disk run path) ∧
        (passes.runs.flatMap run).Perm slot.pushed) ∧
      ∀ pass, current = some pass → pass.unlinkExhausted = false ∧
        ∃ out left ends, pass.Walks slot.pushed slot.results out left ends

/-- Only files of the location of a slot matter. -/
theorem SortSlot.Ok.congr {slot : SortSlot Record} {disk disk' : Disk} (h : slot.Ok disk)
    (hdisk : ∀ location path, slot.stage.location? = some location → location.Owns path →
      disk' path = disk path) : slot.Ok disk' := by
  obtain ⟨stage, pushed, results, errors⟩ := slot
  cases stage with
  | absent => trivial
  | sorting sort => exact ⟨h.1.congr fun path hpath => hdisk _ path rfl hpath, h.2⟩
  | streaming location pass => exact h
  | passes location passes current =>
    obtain ⟨hresident, hown, ⟨run, hrun, hperm⟩, hcurrent⟩ := h
    refine ⟨hresident, hown, ⟨run, fun path hmem => ?_, hperm⟩, hcurrent⟩
    exact (hrun path hmem).congr (hdisk location path rfl (hown path hmem)) rfl

/-- What one call may do to a sort and to what is shared. -/
structure SortSlot.Called (slot : SortSlot Record) (shared : SortShared) (call : SortCall Record)
    (slot' : SortSlot Record) (shared' : SortShared) : Prop where
  ok : slot'.Ok shared'.disk
  charged : shared'.budget.charged = shared.budget.charged - slot.charge + slot'.charge
  errors : slot'.errors = slot.errors
  elsewhere : ∀ path, (∀ location, slot.stage.location? = some location → ¬ location.Owns path) →
    shared'.disk path = shared.disk path
  location : ∀ location, slot'.stage.location? = some location →
    slot.stage.location? = some location ∨ call = .create location

/-- A call that changes nothing. -/
theorem SortSlot.Ok.called_self {slot : SortSlot Record} {shared : SortShared}
    (h : slot.Ok shared.disk) (call : SortCall Record)
    (hcharge : slot.charge ≤ shared.budget.charged) : slot.Called shared call slot shared :=
  ⟨h, (Nat.sub_add_cancel hcharge).symm, rfl, fun _ _ => rfl, fun _ => .inl⟩

theorem SameElsewhere.of_location {location : RunLocation} {disk disk' : Disk}
    (h : SameElsewhere location disk disk') (path : RunPath)
    (hpath : ∀ other, some location = some other → ¬ other.Owns path) : disk' path = disk path :=
  h path (hpath location rfl)

section

variable [LawfulSpillRecord Record] {fanIn : Nat} {slot : SortSlot Record} {shared : SortShared}

omit [SpillRecord Record] [LawfulSpillRecord Record] in
theorem SortedRuns.drop_of_spilled {sort : SortedRuns Record} (hbytes : sort.residentBytes = 0)
    (hspilled : sort.spilled = []) : sort.drop shared = shared := by
  rw [SortedRuns.drop, hbytes, hspilled]
  rfl

theorem SortSlot.called_push (h : slot.Ok shared.disk)
    (hcharge : slot.charge ≤ shared.budget.charged) {record : Record} (hfits : Fits record)
    (hsize : shared.budget.charged + residentSize record ≤ usizeMax) :
    ∃ slot' shared', slot.call fanIn shared (.push record) = (slot', shared') ∧
      slot.Called shared (.push record) slot' shared' := by
  obtain ⟨stage, pushed, results, errors⟩ := slot
  cases stage with
  | absent => exact ⟨_, _, rfl, h.called_self _ hcharge⟩
  | streaming location pass => exact ⟨_, _, rfl, h.called_self _ hcharge⟩
  | passes location passes current => exact ⟨_, _, rfl, h.called_self _ hcharge⟩
  | sorting sort =>
    obtain ⟨hholds, hresults⟩ := h
    have hbytes : sort.residentBytes ≤ shared.budget.charged := hholds.residentBytes.trans_le hcharge
    obtain ⟨sort', shared', hpush, hholds', hlocation, hcharged, helsewhere⟩ :=
      hholds.push hfits hbytes hsize
    rw [SortSlot.call]
    dsimp only
    rw [hpush]
    refine ⟨_, _, rfl, ⟨hholds', hresults⟩, ?_, rfl, ?_, ?_⟩
    · rw [hcharged, hholds.residentBytes, hholds'.residentBytes]
      rfl
    · exact helsewhere.of_location
    · intro location heq
      exact .inl ((congrArg some hlocation.symm).trans heq)

section

variable (hfanIn : 2 ≤ fanIn) (h : slot.Ok shared.disk)
  (hcharge : slot.charge ≤ shared.budget.charged)
include hfanIn h hcharge

/-- The files and the charge of a sort that is turned into runs. -/
theorem SortSlot.called_intoSorted :
    ∃ slot' shared', slot.call fanIn shared .intoSorted = (slot', shared') ∧
      slot.Called shared .intoSorted slot' shared' := by
  obtain ⟨stage, pushed, results, errors⟩ := slot
  cases stage with
  | absent => exact ⟨_, _, rfl, h.called_self _ hcharge⟩
  | streaming location pass => exact ⟨_, _, rfl, h.called_self _ hcharge⟩
  | passes location passes current => exact ⟨_, _, rfl, h.called_self _ hcharge⟩
  | sorting sort =>
    obtain ⟨hholds, hresults⟩ := h
    obtain rfl : results = [] := hresults
    obtain ⟨runs, sort', disk', run, hruns, hzero, hspilled, -, hdisk, hown, hperm, helsewhere⟩ :=
      hholds.intoRuns hfanIn
    obtain ⟨pass, hopen, hyields, -, hpaths⟩ := SortedPass.open_ok hdisk true
    rw [SortSlot.call]
    dsimp only
    rw [SortedRuns.intoSorted, hruns]
    dsimp only
    rw [SortedRuns.drop_of_spilled hzero hspilled, hopen]
    refine ⟨_, _, rfl, ⟨?_, [], _, 0, hyields.walks hperm⟩, ?_, rfl, ?_, fun _ => .inl⟩
    · rw [hpaths]
      exact hown
    · exact congrArg _ hholds.residentBytes
    · exact helsewhere.of_location

theorem SortSlot.called_intoSortedPasses :
    ∃ slot' shared', slot.call fanIn shared .intoSortedPasses = (slot', shared') ∧
      slot.Called shared .intoSortedPasses slot' shared' := by
  obtain ⟨stage, pushed, results, errors⟩ := slot
  cases stage with
  | absent => exact ⟨_, _, rfl, h.called_self _ hcharge⟩
  | streaming location pass => exact ⟨_, _, rfl, h.called_self _ hcharge⟩
  | passes location passes current => exact ⟨_, _, rfl, h.called_self _ hcharge⟩
  | sorting sort =>
    obtain ⟨hholds, -⟩ := h
    obtain ⟨runs, sort', disk', run, hruns, hzero, hspilled, -, hdisk, hown, hperm, helsewhere⟩ :=
      hholds.intoRuns hfanIn
    rw [SortSlot.call]
    dsimp only
    rw [SortedRuns.intoSortedPasses, hruns]
    dsimp only
    rw [SortedRuns.drop_of_spilled hzero hspilled]
    refine ⟨_, _, rfl, ⟨rfl, hown, ⟨run, hdisk, hperm⟩, nofun⟩, ?_, rfl, ?_, fun _ => .inl⟩
    · exact congrArg _ hholds.residentBytes
    · exact helsewhere.of_location

end

section

variable (h : slot.Ok shared.disk) (hcharge : slot.charge ≤ shared.budget.charged)
include h hcharge

theorem SortSlot.called_pass :
    ∃ slot' shared', slot.call fanIn shared .pass = (slot', shared') ∧
      slot.Called shared .pass slot' shared' := by
  obtain ⟨stage, pushed, results, errors⟩ := slot
  cases stage with
  | absent => exact ⟨_, _, rfl, h.called_self _ hcharge⟩
  | streaming location pass => exact ⟨_, _, rfl, h.called_self _ hcharge⟩
  | sorting sort => exact ⟨_, _, rfl, h.called_self _ hcharge⟩
  | passes location passes current =>
    obtain ⟨hresident, hown, ⟨run, hrun, hperm⟩, -⟩ := h
    obtain ⟨pass, hpass, hyields, hunlink⟩ : ∃ pass : SortedPass Record,
        passes.pass shared.disk = .ok pass ∧ pass.Yields (passes.runs.flatMap run) ∧
          pass.unlinkExhausted = false := by
      by_cases hempty : passes.runs = []
      · refine ⟨.overSlice passes.resident, ?_, ?_, rfl⟩
        · rw [SortedPasses.pass, hempty]
          rfl
        · rw [hempty]
          exact .resident rfl hresident .nil nofun
      · obtain ⟨pass, hopen, hyields, hunlink, -⟩ := SortedPass.open_ok hrun false
        refine ⟨pass, ?_, hyields, hunlink⟩
        rw [SortedPasses.pass, if_neg (by rwa [List.isEmpty_iff]), hopen]
    rw [SortSlot.call]
    dsimp only
    rw [hpass]
    refine ⟨_, _, rfl, ⟨hresident, hown, ⟨run, hrun, hperm⟩, ?_⟩, rfl, rfl, fun _ _ => rfl,
      fun _ => .inl⟩
    intro _ heq
    obtain rfl := Option.some.inj heq
    exact ⟨hunlink, [], _, 0, hyields.walks hperm⟩

theorem SortSlot.called_next :
    ∃ slot' shared', slot.call fanIn shared .next = (slot', shared') ∧
      slot.Called shared .next slot' shared' := by
  obtain ⟨stage, pushed, results, errors⟩ := slot
  cases stage with
  | absent => exact ⟨_, _, rfl, h.called_self _ hcharge⟩
  | sorting sort => exact ⟨_, _, rfl, h.called_self _ hcharge⟩
  | streaming location pass =>
    obtain ⟨hown, out, left, ends, hwalks⟩ := h
    rw [SortSlot.call, SortSlot.next]
    dsimp only
    rcases hwalks.next with ⟨hnone, hwalks'⟩ | ⟨record, pass', unlinked, left', hsome, hfiles,
      hwalks'⟩
    · rw [hnone]
      exact ⟨_, _, rfl, ⟨hown, out, left, ends + 1, hwalks'⟩, rfl, rfl, fun _ _ => rfl,
        fun _ => .inl⟩
    · rw [hsome]
      refine ⟨_, _, rfl, ⟨?_, out ++ [record], left', 0, hwalks'⟩, rfl, rfl, ?_, fun _ => .inl⟩
      · rw [hfiles.paths]
        exact hown
      · refine (sameElsewhere_removeAll shared.disk fun path hmem => ?_).of_location
        have hunlinked := hfiles.unlinked hmem
        rw [SortedPass.unlinked] at hunlinked
        split at hunlinked
        · exact hown path hunlinked
        · cases hunlinked
  | passes location passes current =>
    cases current with
    | none => exact ⟨_, _, rfl, h.called_self _ hcharge⟩
    | some pass =>
      obtain ⟨hresident, hown, hruns, hcurrent⟩ := h
      obtain ⟨hunlink, out, left, ends, hwalks⟩ := hcurrent pass rfl
      rw [SortSlot.call, SortSlot.next]
      dsimp only
      rcases hwalks.next with ⟨hnone, hwalks'⟩ | ⟨record, pass', unlinked, left', hsome, hfiles,
        hwalks'⟩
      · rw [hnone]
        refine ⟨_, _, rfl, ⟨hresident, hown, hruns, ?_⟩, rfl, rfl, fun _ _ => rfl, fun _ => .inl⟩
        intro _ heq
        obtain rfl := Option.some.inj heq
        exact ⟨hunlink, out, left, ends + 1, hwalks'⟩
      · obtain rfl : unlinked = [] := by
          have hsub := hfiles.unlinked
          rw [SortedPass.unlinked, if_neg (by rw [hunlink]; rintro ⟨⟩)] at hsub
          exact List.subset_nil.mp hsub
        rw [hsome]
        refine ⟨_, _, rfl, ⟨hresident, hown, hruns, ?_⟩, rfl, rfl, fun _ _ => rfl, fun _ => .inl⟩
        intro _ heq
        obtain rfl := Option.some.inj heq
        exact ⟨hfiles.unlinkExhausted.trans hunlink, out ++ [record], left', 0, hwalks'⟩

end

omit [LawfulSpillRecord Record] in
theorem SortSlot.called_drop (h : slot.Ok shared.disk)
    (hcharge : slot.charge ≤ shared.budget.charged) :
    ∃ slot' shared', slot.call fanIn shared .drop = (slot', shared') ∧ slot'.stage = .absent ∧
      slot.Called shared .drop slot' shared' := by
  obtain ⟨stage, pushed, results, errors⟩ := slot
  cases stage with
  | absent => exact ⟨_, _, rfl, rfl, h.called_self _ hcharge⟩
  | sorting sort =>
    obtain ⟨hholds, -⟩ := h
    refine ⟨_, _, rfl, rfl, trivial, congrArg _ hholds.residentBytes, rfl, ?_, (by rintro _ ⟨⟩)⟩
    exact (sameElsewhere_removeAll shared.disk fun path hmem =>
      (hholds.own path hmem).owns).of_location
  | streaming location pass =>
    refine ⟨_, _, rfl, rfl, trivial, rfl, rfl, ?_, (by rintro _ ⟨⟩)⟩
    refine (sameElsewhere_removeAll shared.disk fun path hmem => ?_).of_location
    rw [SortedPass.unlinked] at hmem
    split at hmem
    · exact h.1 path hmem
    · cases hmem
  | passes location passes current =>
    refine ⟨_, _, rfl, rfl, trivial, rfl, rfl, ?_, (by rintro _ ⟨⟩)⟩
    exact (sameElsewhere_removeAll shared.disk h.2.1).of_location

end

end

end Froe
