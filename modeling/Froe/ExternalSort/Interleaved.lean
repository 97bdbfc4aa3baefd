import Froe.ExternalSort.Shared
import Mathlib.Data.List.Sort

/-!
# Every interleaving sorts

The calls of several sorts on one budget come in any order.  As long as each sort has
its own location without old run files and every record fits the spill format, no call
fails, every pass yields what was pushed in ascending order, and the budget is charged
for exactly the records in memory.  A spill that is refused breaks the last: it has
drained the records but keeps their charge.
-/

namespace Froe

open SpillRecord

variable {ι : Type} [DecidableEq ι] {Record : ι → Type} [∀ i, SpillRecord (Record i)]

/-! ## The invariant -/

/-- A new sort has a location of its own without run files, and a pushed record fits the spill
format and the counter of the budget. -/
def SortSystem.Meets (system : SortSystem Record) : (Σ i, SortCall (Record i)) → Prop
  | ⟨_, .create location⟩ =>
    FreshFrom location system.shared.disk 0 ∧
      ∀ j, (system.slots j).stage.location? ≠ some location
  | ⟨_, .push record⟩ =>
    Fits record ∧ system.shared.budget.charged + residentSize record ≤ usizeMax
  | _ => True

def SortSystem.RunMeets (fanIn : Nat) : SortSystem Record → List (Σ i, SortCall (Record i)) → Prop
  | _, [] => True
  | system, event :: events => system.Meets event ∧ RunMeets fanIn (system.step fanIn event) events

structure SortSystem.Ok (system : SortSystem Record) : Prop where
  charged : system.shared.budget.charged = system.totalCharge
  slots : ∀ i, (system.slots i).Ok system.shared.disk
  distinct : ∀ i j location, (system.slots i).stage.location? = some location →
    (system.slots j).stage.location? = some location → i = j
  unused : ∀ i ∉ system.used, (system.slots i).stage = .absent
  errors : ∀ i, (system.slots i).errors = []

omit [DecidableEq ι] in
theorem SortSystem.ok_start (limit : Nat) (disk : Disk) :
    (SortSystem.start limit disk : SortSystem Record).Ok :=
  ⟨rfl, fun _ => trivial, nofun, fun _ _ => rfl, fun _ => rfl⟩

variable {system : SortSystem Record} {fanIn : Nat}

/-- The charge of one slot and that of the others. -/
theorem SortSystem.totalCharge_eq
    (h : ∀ i ∉ system.used, (system.slots i).stage = .absent) (i : ι) :
    system.totalCharge =
      (system.slots i).charge + ∑ j ∈ system.used.erase i, (system.slots j).charge := by
  by_cases hi : i ∈ system.used
  · exact (Finset.add_sum_erase system.used (fun j => (system.slots j).charge) hi).symm
  · have hzero : (system.slots i).charge = 0 := by
      rw [SortSlot.charge, h i hi]
    rw [hzero, Nat.zero_add, Finset.erase_eq_of_notMem hi, SortSystem.totalCharge]

theorem SortSystem.Ok.charge_le (h : system.Ok) (i : ι) :
    (system.slots i).charge ≤ system.shared.budget.charged := by
  rw [h.charged, totalCharge_eq h.unused i]
  exact Nat.le_add_right _ _

omit [DecidableEq ι] in
/-- The answers of the pass under way. -/
theorem SortSystem.Ok.walk (h : system.Ok) {i : ι}
    {pass : SortedPass (Record i)} (hpass : (system.slots i).stage.pass? = some pass) :
    ∃ out ends, SortedWalk (system.slots i).pushed (system.slots i).results out ends := by
  have hslot := h.slots i
  rw [SortSlot.Ok] at hslot
  cases hstage : (system.slots i).stage with
  | absent =>
    rw [hstage] at hpass
    cases hpass
  | sorting sort =>
    rw [hstage] at hpass
    cases hpass
  | streaming location other =>
    rw [hstage] at hslot
    obtain ⟨-, out, left, ends, hwalks⟩ := hslot
    exact ⟨out, ends, hwalks.sortedWalk⟩
  | passes location passes current =>
    rw [hstage] at hslot hpass
    obtain ⟨-, -, -, hcurrent⟩ := hslot
    obtain ⟨-, out, left, ends, hwalks⟩ := hcurrent pass hpass
    exact ⟨out, ends, hwalks.sortedWalk⟩

/-- A sort that is dropped takes its charge with it. -/
theorem SortSystem.Ok.charged_drop (h : system.Ok) (i : ι) :
    (system.step fanIn ⟨i, .drop⟩).shared.budget.charged + (system.slots i).charge =
      system.shared.budget.charged := by
  have hcharge := h.charge_le i
  obtain ⟨slot', shared', hcall, habsent, hcalled⟩ :=
    @SortSlot.called_drop (Record i) _ fanIn _ _ (h.slots i) hcharge
  have hstep : (system.step fanIn ⟨i, .drop⟩).shared = shared' := by
    rw [SortSystem.step, hcall]
  have hzero : slot'.charge = 0 := by
    rw [SortSlot.charge, habsent]
  rw [hstep, hcalled.charged, hzero]
  omega

variable [∀ i, LawfulSpillRecord (Record i)]

theorem SortSystem.Ok.call (hfanIn : 2 ≤ fanIn)
    (h : system.Ok) {i : ι} {call : SortCall (Record i)} (hmeets : system.Meets ⟨i, call⟩) :
    ∃ slot' shared', (system.slots i).call fanIn system.shared call = (slot', shared') ∧
      (system.slots i).Called system.shared call slot' shared' := by
  have hslot := h.slots i
  have hcharge := h.charge_le i
  cases call with
  | create location =>
    rw [SortSlot.call]
    cases hstage : (system.slots i).stage with
    | absent =>
      refine ⟨_, _, rfl, ⟨SortedRuns.holds_new hmeets.1, rfl⟩, ?_, rfl, fun _ _ => rfl, ?_⟩
      · have hzero : (system.slots i).charge = 0 := by
          rw [SortSlot.charge, hstage]
        rw [hzero]
        rfl
      · intro other heq
        exact .inr (congrArg _ (Option.some.inj heq))
    | sorting sort => exact ⟨_, _, rfl, hslot.called_self _ hcharge⟩
    | streaming other pass => exact ⟨_, _, rfl, hslot.called_self _ hcharge⟩
    | passes other passes current => exact ⟨_, _, rfl, hslot.called_self _ hcharge⟩
  | push record => exact SortSlot.called_push hslot hcharge hmeets.1 hmeets.2
  | intoSorted => exact SortSlot.called_intoSorted hfanIn hslot hcharge
  | intoSortedPasses => exact SortSlot.called_intoSortedPasses hfanIn hslot hcharge
  | pass => exact SortSlot.called_pass hslot hcharge
  | next => exact SortSlot.called_next hslot hcharge
  | drop =>
    obtain ⟨slot', shared', hcall, -, hcalled⟩ := SortSlot.called_drop hslot hcharge
    exact ⟨slot', shared', hcall, hcalled⟩

/-- A call keeps the invariant. -/
theorem SortSystem.Ok.step {fanIn : Nat} (hfanIn : 2 ≤ fanIn) {system : SortSystem Record}
    (h : system.Ok) {event : Σ i, SortCall (Record i)} (hmeets : system.Meets event) :
    (system.step fanIn event).Ok := by
  obtain ⟨i, call⟩ := event
  obtain ⟨slot', shared', hcall, hcalled⟩ := h.call hfanIn hmeets
  have hstep : system.step fanIn ⟨i, call⟩ =
      ⟨shared', Function.update system.slots i slot', insert i system.used⟩ := by
    rw [SortSystem.step, hcall]
  rw [hstep]
  have hunused : ∀ j ∉ insert i system.used,
      (Function.update system.slots i slot' j).stage = .absent := by
    intro j hj
    rw [Finset.mem_insert, not_or] at hj
    rw [Function.update_of_ne hj.1]
    exact h.unused j hj.2
  refine ⟨?_, fun j => ?_, fun j k location hj hk => ?_, hunused, fun j => ?_⟩
  · have hothers : ∑ j ∈ (insert i system.used).erase i,
        (Function.update system.slots i slot' j).charge =
        ∑ j ∈ system.used.erase i, (system.slots j).charge := by
      rw [Finset.erase_insert_eq_erase]
      refine Finset.sum_congr rfl fun j hj => ?_
      rw [Function.update_of_ne (Finset.ne_of_mem_erase hj)]
    rw [SortSystem.totalCharge_eq hunused i, hothers]
    dsimp only
    rw [Function.update_self, hcalled.charged, h.charged, SortSystem.totalCharge_eq h.unused i]
    omega
  · by_cases heq : j = i
    · subst heq
      dsimp only
      rw [Function.update_self]
      exact hcalled.ok
    · dsimp only
      rw [Function.update_of_ne heq]
      refine (h.slots j).congr fun location path hlocation hpath => ?_
      refine hcalled.elsewhere path fun other hother howns => heq ?_
      refine h.distinct j i location hlocation ?_
      rw [hother, howns.eq hpath]
  · -- the location of the called slot is its old one or a new one that no other slot has
    have hold : ∀ other, (slot'.stage.location? = some other) → ∀ k ≠ i,
        (system.slots k).stage.location? ≠ some other := by
      intro other hother k hk hlocation
      rcases hcalled.location other hother with hsame | rfl
      · exact hk (h.distinct k i other hlocation hsame)
      · exact hmeets.2 k hlocation
    by_cases hji : j = i
    · by_cases hki : k = i
      · rw [hji, hki]
      · subst hji
        dsimp only at hj hk
        rw [Function.update_self] at hj
        rw [Function.update_of_ne hki] at hk
        exact absurd hk (hold location hj k hki)
    · dsimp only at hj hk
      rw [Function.update_of_ne hji] at hj
      by_cases hki : k = i
      · subst hki
        rw [Function.update_self] at hk
        exact absurd hj (hold location hk j hji)
      · rw [Function.update_of_ne hki] at hk
        exact h.distinct j k location hj hk
  · by_cases heq : j = i
    · subst heq
      dsimp only
      rw [Function.update_self, hcalled.errors]
      exact h.errors j
    · dsimp only
      rw [Function.update_of_ne heq]
      exact h.errors j

theorem SortSystem.Ok.run (hfanIn : 2 ≤ fanIn)
    (h : system.Ok) {events : List (Σ i, SortCall (Record i))}
    (hmeets : system.RunMeets fanIn events) : (system.run fanIn events).Ok := by
  induction events generalizing system with
  | nil => exact h
  | cons event events ih => exact ih (h.step hfanIn hmeets.1) hmeets.2

/-! ## Runs -/

/-- In every run whose calls meet the condition, no call has failed, every walk has yielded the
pushed records in ascending order, all of them once it has been asked more often than there are
records, the budget is charged for the records in memory, and a dropped sort gives its charge
back. -/
theorem sortSystem_run_of_meets {fanIn : Nat} (hfanIn : 2 ≤ fanIn) (limit : Nat) (disk : Disk)
    {events : List (Σ i, SortCall (Record i))}
    (hmeets : (SortSystem.start limit disk).RunMeets fanIn events) :
    ((SortSystem.start limit disk).run fanIn events).shared.budget.charged =
        ((SortSystem.start limit disk).run fanIn events).totalCharge ∧
      (∀ i, (((SortSystem.start limit disk).run fanIn events).slots i).errors = []) ∧
      (∀ i pass, (((SortSystem.start limit disk).run fanIn events).slots i).stage.pass? = some pass →
        ∃ out ends, SortedWalk (((SortSystem.start limit disk).run fanIn events).slots i).pushed
          (((SortSystem.start limit disk).run fanIn events).slots i).results out ends) ∧
      ∀ i, (((SortSystem.start limit disk).run fanIn events).step fanIn
            ⟨i, .drop⟩).shared.budget.charged +
          (((SortSystem.start limit disk).run fanIn events).slots i).charge =
        ((SortSystem.start limit disk).run fanIn events).shared.budget.charged := by
  have hok := (SortSystem.ok_start limit disk).run hfanIn hmeets
  exact ⟨hok.charged, hok.errors, fun _ _ => hok.walk, hok.charged_drop⟩

/-! ## Byte strings -/

/-- A record whose ordering is its bytes. -/
instance : SpillRecord Bytes where
  cmp := List.compareLex compare
  encode record := record
  decode bytes := .ok bytes
  residentSize record := record.length
  sortUnstable records := records.insertionSort fun a b => (List.compareLex compare a b).isLE

instance : LawfulSpillRecord Bytes where
  transCmp := inferInstanceAs (Std.TransCmp (List.compareLex compare))
  decode_encode _ _ := rfl
  sort_perm records := List.perm_insertionSort _ records
  sort_ascending records := by
    have htotal : Std.Total fun a b : Bytes => (List.compareLex compare a b).isLE = true :=
      ⟨fun a b => by
        rcases hcmp : List.compareLex compare a b with _ | _ | _
        · exact .inl rfl
        · exact .inl rfl
        · rw [@Std.OrientedCmp.eq_swap _ (List.compareLex compare), hcmp]
          exact .inr rfl⟩
    have htrans : IsTrans Bytes fun a b => (List.compareLex compare a b).isLE = true :=
      ⟨fun _ _ _ hab hbc => Std.TransCmp.isLE_trans hab hbc⟩
    exact List.pairwise_insertionSort _ records

def entriesLocation : RunLocation := ⟨"work", "entries"⟩

def nodesLocation : RunLocation := ⟨"work", "nodes"⟩

/-- Calls of two sorts in turn, one of which spills more runs than two. -/
def spillingCalls : List (Σ _ : Bool, SortCall Bytes) :=
  [⟨false, .create entriesLocation⟩, ⟨true, .create nodesLocation⟩, ⟨false, .push [2]⟩,
    ⟨true, .push [5]⟩, ⟨false, .push [3]⟩, ⟨true, .push [4]⟩, ⟨false, .push [1]⟩,
    ⟨false, .intoSorted⟩, ⟨true, .intoSorted⟩, ⟨false, .next⟩, ⟨true, .next⟩, ⟨false, .next⟩,
    ⟨true, .next⟩, ⟨false, .next⟩, ⟨false, .next⟩]

/-- With a fan-in of two, the three runs take a merge round. -/
theorem sortSystem_run_spilling :
    let system := (SortSystem.start 0 (fun _ => none) : SortSystem fun _ : Bool => Bytes).run
      2 spillingCalls
    system.shared.budget.charged = system.totalCharge ∧
      (system.slots false).results = [some (.ok [1]), some (.ok [2]), some (.ok [3]), none] ∧
      (system.slots true).results = [some (.ok [4]), some (.ok [5])] := by
  have hmeets : (SortSystem.start 0 (fun _ => none) : SortSystem fun _ : Bool => Bytes).RunMeets
      2 spillingCalls :=
    ⟨⟨fun _ _ => rfl, nofun⟩, ⟨fun _ _ => rfl, by decide +kernel⟩, ⟨by decide, by decide +kernel⟩,
      ⟨by decide, by decide +kernel⟩, ⟨by decide, by decide +kernel⟩,
      ⟨by decide, by decide +kernel⟩, ⟨by decide, by decide +kernel⟩, trivial, trivial, trivial,
      trivial, trivial, trivial, trivial, trivial, trivial⟩
  obtain ⟨hcharged, -⟩ := sortSystem_run_of_meets le_rfl 0 _ hmeets
  exact ⟨hcharged, by decide +kernel, by decide +kernel⟩

/-- A directory in which an earlier run has left a file. -/
def leftOverDisk : Disk :=
  fun path => if path = entriesLocation.runPath 0 then some [108, 101, 102, 116] else none

/-- A spill that is refused leaves the charge of records that are gone. -/
theorem sortSystem_charged_after_refusal :
    let system := (SortSystem.start 0 leftOverDisk : SortSystem fun _ : Unit => Bytes).run
      maximumFanIn [⟨(), .create entriesLocation⟩, ⟨(), .push [1]⟩]
    system.shared.budget.charged = 1 ∧ system.totalCharge = 0 ∧
      (system.slots ()).errors = [.alreadyExists (entriesLocation.runPath 0)] := by
  decide +kernel

end Froe
