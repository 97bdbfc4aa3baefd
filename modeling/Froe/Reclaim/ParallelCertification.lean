import Froe.Reclaim.Certificate
import Mathlib.Logic.Relation

/-!
# Certifying archives in parallel

Workers share a counter of the next archive, a flag that the pass has failed and
the failure to report.  A worker reads the flag, claims the next archive,
certifies it and, when that fails, records the failure and raises the flag; it
ends when it sees the flag or when there is nothing left to claim.

A schedule is any interleaving of these steps.  The load of the flag is relaxed,
so that a worker may miss a flag that was just raised.  Whatever the schedule, the
pass ends, examines no archive twice, and reports what a single worker would:
the failure of the lowest archive that fails
(`certifyArchivesInParallel_eq_sequential`).
-/

namespace Froe

section

variable {α ε : Type}

/-! ## The pass -/

/-- What the workers share. -/
structure ArchiveCertificationPass (ε : Type) where
  /-- The next archive no worker has claimed yet. -/
  next : Nat
  certified : Nat
  failed : Bool
  failure : Option (Nat × ε)
  /-- The positions that have been certified, the last one first.  The program does not keep
  them. -/
  examined : List Nat

/-- Where a worker stands. -/
inductive CertificationWorker (ε : Type) where
  /-- Before the load of the flag. -/
  | ready
  /-- Between the load and the claim. -/
  | admitted
  /-- Between the claim and the end of the certification. -/
  | certifying (position : Nat)
  /-- With a failure to record. -/
  | recording (position : Nat) (error : ε)
  /-- Between the record of a failure and the flag. -/
  | flagging
  | finished

namespace ArchiveCertificationPass

/-- The pass before any worker starts. -/
def new : ArchiveCertificationPass ε := ⟨0, 0, false, none, []⟩

/-- Records a failure, keeping whichever is lowest. -/
def recordFailure (pass : ArchiveCertificationPass ε) (position : Nat) (error : ε) :
    ArchiveCertificationPass ε :=
  match pass.failure with
  | none => { pass with failure := some (position, error) }
  | some (reported, _) =>
    if position < reported then { pass with failure := some (position, error) } else pass

/-- What the pass reports. -/
def result (pass : ArchiveCertificationPass ε) : Except ε Unit :=
  match pass.failure with
  | none => .ok ()
  | some (_, error) => .error error

end ArchiveCertificationPass

section

variable (certify : α → Except ε Unit) (archives : List α)

inductive CertificationWorker.Step : ArchiveCertificationPass ε → CertificationWorker ε →
    ArchiveCertificationPass ε → CertificationWorker ε → Prop
  | enter {pass} : Step pass .ready pass .admitted
  | stop {pass} (h : pass.failed = true) : Step pass .ready pass .finished
  | claim {pass archive} (h : archives[pass.next]? = some archive) :
      Step pass .admitted { pass with next := pass.next + 1 } (.certifying pass.next)
  | exhausted {pass} (h : archives[pass.next]? = none) :
      Step pass .admitted { pass with next := pass.next + 1 } .finished
  | succeed {pass position archive} (harchive : archives[position]? = some archive)
      (h : certify archive = .ok ()) :
      Step pass (.certifying position)
        { pass with
          certified := pass.certified + 1
          examined := position :: pass.examined } .ready
  | fail {pass position archive error} (harchive : archives[position]? = some archive)
      (h : certify archive = .error error) :
      Step pass (.certifying position) { pass with examined := position :: pass.examined }
        (.recording position error)
  | record {pass position error} :
      Step pass (.recording position error) (pass.recordFailure position error) .flagging
  | flag {pass} : Step pass .flagging { pass with failed := true } .ready

abbrev CertificationState (ε : Type) := ArchiveCertificationPass ε × List (CertificationWorker ε)

/-- A step of any worker. -/
inductive CertificationStep : CertificationState ε → CertificationState ε → Prop
  | worker {pass pass' before worker worker' behind}
      (h : CertificationWorker.Step certify archives pass worker pass' worker') :
      CertificationStep (pass, before ++ worker :: behind) (pass', before ++ worker' :: behind)

/-- The states a schedule of some workers reaches. -/
def CertificationReaches (workers : Nat) (state : CertificationState ε) : Prop :=
  Relation.ReflTransGen (CertificationStep certify archives)
    (.new, List.replicate workers .ready) state

end

/-- Every worker has ended. -/
def CertificationFinished (state : CertificationState ε) : Prop :=
  ∀ worker ∈ state.2, worker = .finished

/-! ## The invariant -/

/-- The position a worker has claimed and not examined. -/
def CertificationWorker.held : CertificationWorker ε → Option Nat
  | .certifying position => some position
  | _ => none

variable {certify : α → Except ε Unit} {archives : List α}

/-- What holds in every state of every schedule. -/
structure CertificationInvariant (certify : α → Except ε Unit) (archives : List α)
    (pass : ArchiveCertificationPass ε) (workers : List (CertificationWorker ε)) : Prop where
  /-- Every claimed position was examined or is held by exactly one worker. -/
  claimed : (pass.examined ++ workers.filterMap CertificationWorker.held).Perm
    (List.range (min pass.next archives.length))
  /-- The failure to report is one. -/
  genuine : ∀ position error, pass.failure = some (position, error) → position < pass.next ∧
    ∃ archive, archives[position]? = some archive ∧ certify archive = .error error
  /-- A failure that was seen is recorded, or about to be. -/
  recorded : ∀ position ∈ pass.examined, ∀ archive error, archives[position]? = some archive →
    certify archive = .error error →
    (∃ reported error', pass.failure = some (reported, error') ∧ reported ≤ position) ∨
      .recording position error ∈ workers
  /-- What a worker records is a failure. -/
  pending : ∀ position error, .recording position error ∈ workers → position < pass.next ∧
    ∃ archive, archives[position]? = some archive ∧ certify archive = .error error
  /-- Only a failure raises the flag. -/
  flagged : pass.failed = true ∨ .flagging ∈ workers → pass.failure ≠ none
  /-- A worker ends when there is nothing to claim, or after a failure. -/
  ended : .finished ∈ workers → archives.length ≤ pass.next ∨ pass.failure ≠ none

theorem ArchiveCertificationPass.recordFailure_spec (pass : ArchiveCertificationPass ε)
    (position : Nat) (error : ε) :
    ∃ reported error', pass.recordFailure position error =
        { pass with failure := some (reported, error') } ∧ reported ≤ position ∧
      (∀ before error'', pass.failure = some (before, error'') → reported ≤ before) ∧
      ((reported = position ∧ error' = error) ∨ pass.failure = some (reported, error')) := by
  unfold recordFailure
  split
  · rename_i hnone
    refine ⟨position, error, rfl, le_rfl, fun before error'' h => ?_, .inl ⟨rfl, rfl⟩⟩
    rw [hnone] at h
    cases h
  · rename_i reported error' hsome
    split
    · rename_i hlt
      refine ⟨position, error, rfl, le_rfl, fun before error'' h => ?_, .inl ⟨rfl, rfl⟩⟩
      rw [hsome] at h
      cases h
      exact hlt.le
    · rename_i hge
      refine ⟨reported, error', ?_, not_lt.mp hge, fun before error'' h => ?_, .inr hsome⟩
      · rw [← hsome]
      · rw [hsome] at h
        cases h
        exact le_rfl

section

variable {pass pass' : ArchiveCertificationPass ε}
  {before behind : List (CertificationWorker ε)} {worker worker' : CertificationWorker ε}

theorem mem_middle {other : CertificationWorker ε} :
    other ∈ before ++ worker :: behind ↔ other = worker ∨ other ∈ before ++ behind := by
  rw [List.mem_append, List.mem_cons, List.mem_append]
  tauto

theorem held_middle :
    (pass.examined ++ (before ++ worker :: behind).filterMap CertificationWorker.held).Perm
      (worker.held.toList ++
        (pass.examined ++ (before ++ behind).filterMap CertificationWorker.held)) := by
  have hmiddle : (before ++ worker :: behind).Perm (worker :: (before ++ behind)) :=
    List.perm_middle
  have hcons : (worker :: (before ++ behind)).filterMap CertificationWorker.held =
      worker.held.toList ++ (before ++ behind).filterMap CertificationWorker.held := by
    cases hheld : worker.held with
    | none => rw [List.filterMap_cons, hheld]; rfl
    | some position => rw [List.filterMap_cons, hheld]; rfl
  refine ((hmiddle.filterMap _).append_left _).trans ?_
  rw [hcons]
  exact List.perm_append_comm_assoc ..

/-- The claimed positions, when a worker goes on without a claim. -/
theorem CertificationInvariant.claimed_of_held
    (h : CertificationInvariant certify archives pass (before ++ worker :: behind))
    (hnext : min pass'.next archives.length = min pass.next archives.length)
    (hperm : (worker'.held.toList ++ pass'.examined).Perm
      (worker.held.toList ++ pass.examined)) :
    (pass'.examined ++ (before ++ worker' :: behind).filterMap CertificationWorker.held).Perm
      (List.range (min pass'.next archives.length)) := by
  rw [hnext]
  refine List.Perm.trans ?_ h.claimed
  refine held_middle.trans (List.Perm.trans ?_ held_middle.symm)
  rw [← List.append_assoc, ← List.append_assoc]
  exact hperm.append_right _

/-- A claimed position is below the counter and one of an archive. -/
theorem CertificationInvariant.of_certifying {position : Nat}
    (h : CertificationInvariant certify archives pass (before ++ .certifying position :: behind)) :
    position < pass.next ∧ position < archives.length := by
  have hheld : position ∈ pass.examined ++
      (before ++ .certifying position :: behind).filterMap CertificationWorker.held :=
    List.mem_append_right _ (List.mem_filterMap.mpr ⟨_, mem_middle.mpr (.inl rfl), rfl⟩)
  have hrange := h.claimed.subset hheld
  rw [List.mem_range] at hrange
  exact lt_min_iff.mp hrange

/-- What a step must do for the invariant to hold: the other workers stay as they are, the failure
to report only moves down, and the worker itself accounts for what it leaves and enters. -/
theorem CertificationInvariant.replace
    (h : CertificationInvariant certify archives pass (before ++ worker :: behind))
    (hclaimed : (pass'.examined ++
      (before ++ worker' :: behind).filterMap CertificationWorker.held).Perm
        (List.range (min pass'.next archives.length)))
    (hgenuine : ∀ position error, pass'.failure = some (position, error) →
      pass.failure = some (position, error) ∨ worker = .recording position error)
    (hlower : ∀ reported error, pass.failure = some (reported, error) →
      ∃ reported' error', pass'.failure = some (reported', error') ∧ reported' ≤ reported)
    (hexamined : ∀ position ∈ pass'.examined, position ∈ pass.examined ∨
      ∀ archive error, archives[position]? = some archive → certify archive = .error error →
        worker' = .recording position error)
    (hrecorded : ∀ position error, worker = .recording position error →
      ∃ reported error', pass'.failure = some (reported, error') ∧ reported ≤ position)
    (hpending : ∀ position error, worker' = .recording position error →
      position < pass'.next ∧
        ∃ archive, archives[position]? = some archive ∧ certify archive = .error error)
    (hflagged : pass'.failed = true ∨ worker' = .flagging → pass.failed = true ∨
      worker = .flagging ∨ pass'.failure ≠ none)
    (hnext : pass.next ≤ pass'.next)
    (hended : worker' = .finished → archives.length ≤ pass'.next ∨ pass'.failure ≠ none) :
    CertificationInvariant certify archives pass' (before ++ worker' :: behind) := by
  have hstays : pass.failure ≠ none → pass'.failure ≠ none := by
    intro hne
    obtain ⟨⟨reported, error⟩, hsome⟩ := Option.ne_none_iff_exists'.mp hne
    obtain ⟨reported', error', hsome', -⟩ := hlower reported error hsome
    rw [hsome']
    nofun
  refine ⟨hclaimed, ?_, ?_, ?_, ?_, ?_⟩
  · intro position error hsome
    rcases hgenuine position error hsome with hsome | rfl
    · obtain ⟨hlt, harchive⟩ := h.genuine position error hsome
      exact ⟨lt_of_lt_of_le hlt hnext, harchive⟩
    · obtain ⟨hlt, harchive⟩ := h.pending position error (mem_middle.mpr (.inl rfl))
      exact ⟨lt_of_lt_of_le hlt hnext, harchive⟩
  · intro position hmem archive error harchive herror
    rcases hexamined position hmem with hmem | hnew
    · rcases h.recorded position hmem archive error harchive herror with
        ⟨reported, error', hsome, hle⟩ | hrecording
      · obtain ⟨reported', error'', hsome', hle'⟩ := hlower reported error' hsome
        exact .inl ⟨reported', error'', hsome', hle'.trans hle⟩
      · rcases mem_middle.mp hrecording with heq | hmem
        · exact .inl (hrecorded position error heq.symm)
        · exact .inr (mem_middle.mpr (.inr hmem))
    · exact .inr (mem_middle.mpr (.inl (hnew archive error harchive herror).symm))
  · intro position error hmem
    rcases mem_middle.mp hmem with heq | hmem
    · exact hpending position error heq.symm
    · obtain ⟨hlt, harchive⟩ := h.pending position error (mem_middle.mpr (.inr hmem))
      exact ⟨lt_of_lt_of_le hlt hnext, harchive⟩
  · intro hor
    have hcases : (pass'.failed = true ∨ worker' = .flagging) ∨
        .flagging ∈ before ++ behind := by
      rcases hor with hfailed | hmem
      · exact .inl (.inl hfailed)
      · rcases mem_middle.mp hmem with heq | hmem
        · exact .inl (.inr heq.symm)
        · exact .inr hmem
    rcases hcases with hnew | hmem
    · rcases hflagged hnew with hfailed | rfl | hne
      · exact hstays (h.flagged (.inl hfailed))
      · exact hstays (h.flagged (.inr (mem_middle.mpr (.inl rfl))))
      · exact hne
    · exact hstays (h.flagged (.inr (mem_middle.mpr (.inr hmem))))
  · intro hmem
    rcases mem_middle.mp hmem with heq | hmem
    · exact hended heq.symm
    · rcases h.ended (mem_middle.mpr (.inr hmem)) with hle | hne
      · exact .inl (hle.trans hnext)
      · exact .inr (hstays hne)

theorem CertificationWorker.Step.invariant
    (hstep : CertificationWorker.Step certify archives pass worker pass' worker')
    (h : CertificationInvariant certify archives pass (before ++ worker :: behind)) :
    CertificationInvariant certify archives pass' (before ++ worker' :: behind) := by
  have hsame : ∀ reported error, pass.failure = some (reported, error) →
      ∃ reported' error', pass.failure = some (reported', error') ∧ reported' ≤ reported :=
    fun reported error hsome => ⟨reported, error, hsome, le_rfl⟩
  cases hstep with
  | enter =>
    exact h.replace (h.claimed_of_held rfl (.refl _)) (fun _ _ => .inl) hsame (fun _ => .inl)
      nofun nofun (fun hor => .inl (hor.resolve_right nofun)) le_rfl nofun
  | stop hfailed =>
    exact h.replace (h.claimed_of_held rfl (.refl _)) (fun _ _ => .inl) hsame (fun _ => .inl)
      nofun nofun (fun hor => .inl (hor.resolve_right nofun)) le_rfl
      fun _ => .inr (h.flagged (.inl hfailed))
  | claim harchive =>
    refine h.replace ?_ (fun _ _ => .inl) hsame (fun _ => .inl) nofun nofun
      (fun hor => .inl (hor.resolve_right nofun)) (Nat.le_succ _) nofun
    obtain ⟨hlt, -⟩ := List.getElem?_eq_some_iff.mp harchive
    have hold := held_middle.symm.trans h.claimed
    rw [min_eq_left hlt.le] at hold
    dsimp only
    rw [min_eq_left (Nat.succ_le_of_lt hlt), List.range_succ]
    exact held_middle.trans ((hold.cons pass.next).trans (List.perm_append_singleton _ _).symm)
  | exhausted hnone =>
    have hle : archives.length ≤ pass.next := List.getElem?_eq_none_iff.mp hnone
    refine h.replace (h.claimed_of_held ?_ (.refl _)) (fun _ _ => .inl) hsame (fun _ => .inl)
      nofun nofun (fun hor => .inl (hor.resolve_right nofun)) (Nat.le_succ _)
      fun _ => .inl (hle.trans (Nat.le_succ _))
    rw [min_eq_right hle, min_eq_right (hle.trans (Nat.le_succ _))]
  | succeed harchive hok =>
    refine h.replace (h.claimed_of_held rfl (.refl _)) (fun _ _ => .inl) hsame ?_ nofun nofun
      (fun hor => .inl (hor.resolve_right nofun)) le_rfl nofun
    intro position hmem
    rcases List.mem_cons.mp hmem with rfl | hmem
    · refine .inr fun archive error harchive' herror => ?_
      rw [harchive] at harchive'
      rw [← Option.some.inj harchive', hok] at herror
      cases herror
    · exact .inl hmem
  | fail harchive herror =>
    refine h.replace (h.claimed_of_held rfl (.refl _)) (fun _ _ => .inl) hsame ?_ nofun ?_
      (fun hor => .inl (hor.resolve_right nofun)) le_rfl nofun
    · intro position hmem
      rcases List.mem_cons.mp hmem with rfl | hmem
      · refine .inr fun archive error harchive' herror' => ?_
        rw [harchive] at harchive'
        rw [← Option.some.inj harchive', herror] at herror'
        rw [Except.error.inj herror']
      · exact .inl hmem
    · intro position error heq
      cases heq
      exact ⟨(h.of_certifying).1, _, harchive, herror⟩
  | @record position error =>
    obtain ⟨reported, error', hpass, hle, hlower, hcases⟩ := pass.recordFailure_spec position error
    rw [hpass]
    refine h.replace (h.claimed_of_held rfl (.refl _)) ?_ ?_ (fun _ => .inl) ?_ nofun
      (fun _ => .inr (.inr nofun)) le_rfl nofun
    · intro position' error'' hsome
      cases hsome
      rcases hcases with ⟨rfl, rfl⟩ | hsome
      · exact .inr rfl
      · exact .inl hsome
    · exact fun before error'' hsome => ⟨reported, error', rfl, hlower before error'' hsome⟩
    · intro position' error'' heq
      cases heq
      exact ⟨reported, error', rfl, hle⟩
  | flag =>
    exact h.replace (h.claimed_of_held rfl (.refl _)) (fun _ _ => .inl) hsame (fun _ => .inl)
      nofun nofun (fun _ => .inr (.inl rfl)) le_rfl nofun

end

/-- The invariant holds in every state of every schedule. -/
theorem CertificationReaches.invariant {workers : Nat} {state : CertificationState ε}
    (h : CertificationReaches certify archives workers state) :
    CertificationInvariant certify archives state.1 state.2 := by
  induction h with
  | refl =>
    have hready : ∀ worker ∈ List.replicate workers (.ready : CertificationWorker ε),
        worker = .ready := fun worker hmem => List.eq_of_mem_replicate hmem
    refine ⟨?_, nofun, nofun, fun position error hmem => ?_, fun hor => ?_, fun hmem => ?_⟩
    · have hnone : (List.replicate workers (.ready : CertificationWorker ε)).filterMap
          CertificationWorker.held = [] := by
        rw [List.filterMap_eq_nil_iff]
        intro worker hmem
        rw [hready worker hmem]
        rfl
      dsimp only [ArchiveCertificationPass.new]
      rw [hnone, Nat.zero_min]
      exact .refl _
    · cases hready _ hmem
    · rcases hor with hfailed | hmem
      · cases hfailed
      · cases hready _ hmem
    · cases hready _ hmem
  | tail _ hstep ih =>
    cases hstep with
    | worker hstep => exact hstep.invariant ih

/-! ## The end of a pass -/

/-- How many steps a worker takes before it claims again, at most. -/
def CertificationWorker.weight : CertificationWorker ε → Nat
  | .ready => 2
  | .admitted => 1
  | .certifying _ => 5
  | .recording _ _ => 4
  | .flagging => 3
  | .finished => 0

open CertificationWorker (weight)

/-- How many steps a pass takes from a state on, at most. -/
def certificationMeasure (archives : List α) (state : CertificationState ε) : Nat :=
  6 * (archives.length - state.1.next) + (state.2.map CertificationWorker.weight).sum

section

variable {state : CertificationState ε}

theorem CertificationStep.measure {state' : CertificationState ε}
    (h : CertificationStep certify archives state state') :
    certificationMeasure archives state' < certificationMeasure archives state := by
  cases h with
  | @worker pass pass' before worker worker' behind hstep =>
    simp only [certificationMeasure, List.map_append, List.map_cons, List.sum_append,
      List.sum_cons]
    cases hstep with
    | claim harchive =>
      obtain ⟨hlt, -⟩ := List.getElem?_eq_some_iff.mp harchive
      simp only [weight]
      omega
    | exhausted hnone =>
      simp only [weight]
      omega
    | record =>
      obtain ⟨reported, error', hpass, -⟩ := pass.recordFailure_spec _ _
      rw [hpass]
      simp only [weight]
      omega
    | _ =>
      simp only [weight]
      omega

/-- A worker that has not ended can go on. -/
theorem exists_certificationStep {workers : Nat}
    (hreaches : CertificationReaches certify archives workers state)
    (h : ¬ CertificationFinished state) :
    ∃ state', CertificationStep certify archives state state' := by
  obtain ⟨pass, all⟩ := state
  simp only [CertificationFinished, not_forall] at h
  obtain ⟨worker, hmem, hne⟩ := h
  obtain ⟨before, behind, rfl⟩ := List.append_of_mem hmem
  cases worker with
  | ready => exact ⟨_, .worker .enter⟩
  | admitted =>
    cases harchive : archives[pass.next]? with
    | none => exact ⟨_, .worker (.exhausted harchive)⟩
    | some archive => exact ⟨_, .worker (.claim harchive)⟩
  | certifying position =>
    obtain ⟨-, hlt⟩ := hreaches.invariant.of_certifying
    have harchive : archives[position]? = some archives[position] := List.getElem?_eq_getElem hlt
    cases hcertify : certify archives[position] with
    | ok _ => exact ⟨_, .worker (.succeed harchive hcertify)⟩
    | error error => exact ⟨_, .worker (.fail harchive hcertify)⟩
  | recording position error => exact ⟨_, .worker .record⟩
  | flagging => exact ⟨_, .worker .flag⟩
  | finished => exact absurd rfl hne

theorem CertificationReaches.length_workers {workers : Nat}
    (h : CertificationReaches certify archives workers state) : state.2.length = workers := by
  induction h with
  | refl => exact List.length_replicate
  | tail _ hstep ih =>
    cases hstep with
    | worker _ =>
      rw [List.length_append, List.length_cons] at ih ⊢
      exact ih

theorem CertificationFinished.held (h : CertificationFinished state) :
    state.2.filterMap CertificationWorker.held = [] := by
  rw [List.filterMap_eq_nil_iff]
  intro worker hmem
  rw [h worker hmem]
  rfl

end

section

variable {state : CertificationState ε}

/-- A finished pass has seen no failure below the one it reports. -/
theorem CertificationInvariant.lowest (h : CertificationInvariant certify archives state.1 state.2)
    (hfinished : CertificationFinished state) {position : Nat} (hlt : position < state.1.next)
    {archive : α} {error : ε} (harchive : archives[position]? = some archive)
    (herror : certify archive = .error error) :
    ∃ reported error', state.1.failure = some (reported, error') ∧ reported ≤ position := by
  obtain ⟨hbound, -⟩ := List.getElem?_eq_some_iff.mp harchive
  have hexamined : position ∈ state.1.examined := by
    have hrange := h.claimed.symm.subset (List.mem_range.mpr (lt_min hlt hbound))
    rwa [hfinished.held, List.append_nil] at hrange
  rcases h.recorded position hexamined archive error harchive herror with hleft | hmem
  · exact hleft
  · cases hfinished _ hmem

section

variable {workers : Nat} (h : CertificationReaches certify archives (workers + 1) state)
  (hfinished : CertificationFinished state)
include h hfinished

/-- Without a failure to report, every archive certifies. -/
theorem CertificationReaches.all_certify (hnone : state.1.failure = none) :
    ∀ archive ∈ archives, certify archive = .ok () := by
  have hinvariant := h.invariant
  have hsome : .finished ∈ state.2 := by
    obtain ⟨worker, hmem⟩ := List.exists_mem_of_length_pos
      (show 0 < state.2.length by rw [h.length_workers]; exact Nat.succ_pos _)
    exact hfinished worker hmem ▸ hmem
  have hall : archives.length ≤ state.1.next :=
    (hinvariant.ended hsome).resolve_right fun hne => hne hnone
  intro archive hmem
  obtain ⟨position, hlt, rfl⟩ := List.getElem_of_mem hmem
  cases hcertify : certify archives[position] with
  | ok _ => rfl
  | error error =>
    obtain ⟨reported, error', hfailure, -⟩ := hinvariant.lowest hfinished
      (lt_of_lt_of_le hlt hall) (List.getElem?_eq_getElem hlt) hcertify
    rw [hnone] at hfailure
    cases hfailure

/-- The failure to report is that of the lowest archive that fails. -/
theorem CertificationReaches.reported {position : Nat} {error : ε}
    (hfailure : state.1.failure = some (position, error)) :
    ∃ archive, archives[position]? = some archive ∧ certify archive = .error error ∧
      ∀ earlier < position, ∀ archive', archives[earlier]? = some archive' →
        certify archive' = .ok () := by
  have hinvariant := h.invariant
  obtain ⟨hnext, archive, harchive, herror⟩ := hinvariant.genuine position error hfailure
  refine ⟨archive, harchive, herror, fun earlier hearlier archive' harchive' => ?_⟩
  cases hcertify : certify archive' with
  | ok _ => rfl
  | error error' =>
    obtain ⟨reported, error'', hreported, hle⟩ := hinvariant.lowest hfinished
      (hearlier.trans hnext) harchive' hcertify
    rw [hfailure] at hreported
    cases hreported
    exact absurd hle (not_le.mpr hearlier)

end

end

end

/-! ## The certification of a store -/

/-- Whatever the schedule of the workers: the pass ends, no archive is certified twice, it
succeeds if and only if every archive certifies, and otherwise reports the failure of the lowest
archive that fails. -/
theorem certifyArchivesInParallel_eq_sequential (provider : SegmentProvider)
    (archives : List TarArchiveReader) (workers : Nat) :
    WellFounded (fun state' state =>
      CertificationStep (certifyActiveArchive provider) archives state state') ∧
    ∀ state, CertificationReaches (certifyActiveArchive provider) archives (workers + 1) state →
      state.1.examined.Nodup ∧
      (¬ CertificationFinished state →
        ∃ state', CertificationStep (certifyActiveArchive provider) archives state state') ∧
      (CertificationFinished state →
        (state.1.result = .ok () ↔
          ∀ archive ∈ archives, certifyActiveArchive provider archive = .ok ()) ∧
        ∀ error, state.1.result = .error error ↔
          ∃ (position : Nat) (archive : TarArchiveReader), archives[position]? = some archive ∧
            certifyActiveArchive provider archive = .error error ∧
            ∀ earlier < position, ∀ archive', archives[earlier]? = some archive' →
              certifyActiveArchive provider archive' = .ok ()) := by
  refine ⟨?_, fun state hreaches => ⟨?_, exists_certificationStep hreaches, fun hfinished => ?_⟩⟩
  · exact Subrelation.wf CertificationStep.measure
      (InvImage.wf (certificationMeasure archives) Nat.lt_wfRel.wf)
  · have hnodup := hreaches.invariant.claimed.nodup_iff.mpr List.nodup_range
    exact hnodup.of_append_left
  · cases hfailure : state.1.failure with
    | none =>
      have hall := hreaches.all_certify hfinished hfailure
      have hresult : state.1.result = .ok () := by
        rw [ArchiveCertificationPass.result, hfailure]
      refine ⟨iff_of_true hresult hall, fun error => iff_of_false ?_ ?_⟩
      · rw [hresult]
        nofun
      · rintro ⟨position, archive, harchive, herror, -⟩
        rw [hall archive (List.mem_of_getElem? harchive)] at herror
        cases herror
    | some failure =>
      obtain ⟨position, error⟩ := failure
      obtain ⟨archive, harchive, herror, hlowest⟩ := hreaches.reported hfinished hfailure
      have hresult : state.1.result = .error error := by
        rw [ArchiveCertificationPass.result, hfailure]
      refine ⟨iff_of_false ?_ fun hall => ?_, fun error' => ⟨fun heq => ?_, ?_⟩⟩
      · rw [hresult]
        nofun
      · rw [hall archive (List.mem_of_getElem? harchive)] at herror
        cases herror
      · obtain rfl : error = error' := Except.error.inj (hresult.symm.trans heq)
        exact ⟨position, archive, harchive, herror, hlowest⟩
      · rintro ⟨position', archive', harchive', herror', hlowest'⟩
        obtain rfl : position = position' := by
          refine Nat.le_antisymm (not_lt.mp fun hlt => ?_) (not_lt.mp fun hlt => ?_)
          · rw [hlowest position' hlt archive' harchive'] at herror'
            cases herror'
          · rw [hlowest' position hlt archive harchive] at herror
            cases herror
        rw [harchive] at harchive'
        rw [← Option.some.inj harchive', herror] at herror'
        rw [hresult, Except.error.inj herror']

section

variable {α ε : Type} {certify : α → Except ε Unit} {archives : List α}
  {pass pass' : ArchiveCertificationPass ε} {worker worker' other : CertificationWorker ε}

/-- A step of the first of two workers. -/
theorem CertificationStep.first
    (h : CertificationWorker.Step certify archives pass worker pass' worker') :
    CertificationStep certify archives (pass, [worker, other]) (pass', [worker', other]) :=
  @CertificationStep.worker α ε certify archives pass pass' [] worker worker' [other] h

/-- A step of the second of two workers. -/
theorem CertificationStep.second
    (h : CertificationWorker.Step certify archives pass worker pass' worker') :
    CertificationStep certify archives (pass, [other, worker]) (pass', [other, worker']) :=
  @CertificationStep.worker α ε certify archives pass pass' [other] worker worker' [] h

end

/-- An archive without an index does not certify. -/
def recoveredArchive (fileName : String) : TarArchiveReader :=
  ⟨fileName, [], .recovered "no index" []⟩

/-- Two archives that do not certify. -/
def recoveredArchives : List TarArchiveReader :=
  [recoveredArchive "data00000a.tar", recoveredArchive "data00001a.tar"]

/-- The second archive fails first, and the failure of the first one is still the result. -/
theorem certifyArchivesInParallel_recovered :
    ∃ state error, CertificationReaches (certifyActiveArchive fun _ => .error (.inputOutput ""))
      recoveredArchives 2 state ∧ CertificationFinished state ∧
      certifyActiveArchive (fun _ => .error (.inputOutput ""))
        (recoveredArchive "data00000a.tar") = .error error ∧
      state.1.result = .error error := by
  obtain ⟨error, herror⟩ : ∃ error, certifyActiveArchive (fun _ => .error (.inputOutput ""))
      (recoveredArchive "data00000a.tar") = .error error := ⟨_, rfl⟩
  obtain ⟨later, hlater⟩ : ∃ later, certifyActiveArchive (fun _ => .error (.inputOutput ""))
      (recoveredArchive "data00001a.tar") = .error later := ⟨_, rfl⟩
  have hreaches : CertificationReaches (certifyActiveArchive fun _ => .error (.inputOutput ""))
      recoveredArchives (1 + 1)
      (⟨2, 0, true, some (0, error), [0, 1]⟩, [.finished, .finished]) := by
    refine .head (.first .enter) (.head (.second .enter) ?_)
    refine .head (.first (.claim rfl)) (.head (.second (.claim rfl)) ?_)
    refine .head (.second (.fail rfl hlater)) (.head (.second .record) ?_)
    refine .head (.second .flag) (.head (.second (.stop rfl)) ?_)
    refine .head (.first (.fail rfl herror)) (.head (.first .record) ?_)
    exact .head (.first .flag) (.head (.first (.stop rfl)) .refl)
  have hfinished : ∀ worker ∈ ([.finished, .finished] : List (CertificationWorker Error)),
      worker = .finished := by
    intro worker hmem
    rcases List.mem_cons.mp hmem with rfl | hmem
    · rfl
    · exact List.mem_singleton.mp hmem
  refine ⟨_, error, hreaches, hfinished, herror, ?_⟩
  obtain ⟨-, hspec⟩ := certifyArchivesInParallel_eq_sequential
    (fun _ => .error (.inputOutput "")) recoveredArchives 1
  obtain ⟨-, -, hresult⟩ := hspec _ hreaches
  exact ((hresult hfinished).2 error).mpr
    ⟨0, recoveredArchive "data00000a.tar", rfl, herror,
      fun earlier hlt => absurd hlt (Nat.not_lt_zero _)⟩

end Froe
