import Mathlib.Data.Finset.Card
import Mathlib.Logic.Relation

/-!
# The repository lock

A guard holds a record lock on the inode that `repo.lock` names.  Record locks belong to a
process, and closing any descriptor of an inode gives up the process's lock on it, so a process
also registers the inodes it has claimed.  Between two system calls of an acquisition other
processes take steps, or die.  Whatever they do, all guards hold distinct inodes, each with its
lock (`locked_run`), as long as no `fstat` fails (`fstat_failure_unlocks`).  While nobody else
touches the names a path has one guard at most (`guarded_run`).
-/

namespace Froe.RepositoryLock

/-- The device and the inode of a file. -/
abbrev LockIdentity := UInt64 × UInt64

/-! ## An acquisition -/

/-- The system call an acquisition waits for. -/
inductive Point
  | look
  | openExisting
  /-- The `fstat` of what the path named when it was opened, a registered inode or not. -/
  | stat (inode : LockIdentity)
  | lookAgain (inode : LockIdentity)
  | create (tries : Nat)
  | link (inode : LockIdentity)
  | verify (inode : LockIdentity)
  | lock (inode : LockIdentity) (staged : Bool)
  | unstage (inode : LockIdentity)

/-- What a call of the system gives. -/
inductive Answer
  | done
  | entry (inode : LockIdentity)
  | notFound
  | alreadyExists
  | failed

/-- How an acquisition goes on, and what it closes. -/
inductive Next
  | goTo (point : Point)
  | again (closing : Option LockIdentity)
  | fail (closing : Option LockIdentity)
  | register (inode : LockIdentity) (staged : Bool)
  | unregister (inode : LockIdentity)
  | succeed (inode : LockIdentity)

namespace Point

/-- What is open and not registered. -/
def held : Point → Option LockIdentity
  | lookAgain inode | link inode | verify inode => some inode
  | _ => none

/-- The inode that the process has registered here. -/
def registered : Point → Option LockIdentity
  | lock inode _ | unstage inode => some inode
  | _ => none

end Point

variable (regular : LockIdentity → Bool)

/-- `acquire` and `open_or_publish_lock_file`, from the answer to a call to the next call. -/
def acquire (registry : Finset LockIdentity) : Point → Answer → Next
  | .look, .notFound => .goTo (.create 0)
  | .look, .entry inode =>
    if regular inode ∧ inode ∉ registry then .goTo .openExisting else .fail none
  | .openExisting, .notFound => .again none
  | .openExisting, .entry inode => .goTo (.stat inode)
  | .stat inode, .done =>
    if regular inode = false then .fail (some inode)
    -- closing it would give up the lock of the guard that has it
    else if inode ∈ registry then .fail none
    else .goTo (.lookAgain inode)
  | .lookAgain inode, .entry current =>
    if regular current = false then .fail (some inode)
    else if current = inode then .register inode false
    else .again (some inode)
  | .lookAgain inode, .notFound => .again (some inode)
  | .create _, .entry inode => .goTo (.link inode)
  | .create tries, .alreadyExists =>
    if tries + 1 < 1000 then .goTo (.create (tries + 1)) else .fail none
  | .link inode, .done => .goTo (.verify inode)
  | .link inode, .alreadyExists => .again (some inode)
  | .verify inode, .entry current =>
    if regular current ∧ current = inode then .register inode true
    else .fail (some inode)
  | .lock inode staged, .done =>
    if staged then .goTo (.unstage inode) else .succeed inode
  | .unstage inode, .done => .succeed inode
  | .lock inode _, _ | .unstage inode, _ => .unregister inode
  -- the descriptor is closed before the registry has been asked
  | .stat inode, _ => .fail (some inode)
  | point, _ => .fail point.held

/-- The inode whose descriptor is closed on this way. -/
def Next.closing : Next → Option LockIdentity
  | again closing | fail closing => closing
  | unregister inode => some inode
  | goTo _ | register _ _ | succeed _ => none

/-! ## A process -/

variable {Process Path : Type}

section

variable [DecidableEq Process] {owner : LockIdentity → Option Process} {p q : Process}
  {inode : LockIdentity}

/-- The record locks after a process closed a descriptor. -/
def released (owner : LockIdentity → Option Process) (p : Process)
    (closing : Option LockIdentity) (inode : LockIdentity) : Option Process :=
  if closing = some inode ∧ owner inode = some p then none else owner inode

theorem released_of_ne (hne : q ≠ p) (h : owner inode = some q)
    (closing : Option LockIdentity) : released owner p closing inode = some q := by
  rw [released, if_neg fun hcase => hne (Option.some.inj (h.symm.trans hcase.2))]
  exact h

theorem released_none : released owner p none = owner :=
  funext fun _ => if_neg fun h => Option.some_ne_none _ h.1.symm

end

/-- An acquisition or a drop keeps the registry to itself, so a process has one at a time. -/
structure Session (Path : Type) where
  registry : Finset LockIdentity := ∅
  guards : List (Path × LockIdentity) := []
  acquiring : Option (Path × Nat × Point) := none

namespace Session

/-- The session after a call. -/
def after (session : Session Path) (path : Path) (attempts : Nat) : Next → Session Path
  | .goTo point => { session with acquiring := some (path, attempts, point) }
  | .again _ =>
    { session with
      acquiring := if attempts < 1000 then some (path, attempts + 1, .look) else none }
  | .fail _ => { session with acquiring := none }
  | .register inode staged =>
    { session with
      registry := insert inode session.registry
      acquiring := some (path, attempts, .lock inode staged) }
  | .unregister inode =>
    { session with registry := session.registry.erase inode, acquiring := none }
  | .succeed inode =>
    { session with guards := (path, inode) :: session.guards, acquiring := none }

/-- The guards, and the inode an acquisition has registered. -/
def claims (session : Session Path) : List (Path × LockIdentity) :=
  (session.acquiring.bind fun a => a.2.2.registered.map (a.1, ·)).toList ++ session.guards

/-- What holds of a process in every state of every run. -/
structure Kept (outsiders : Bool) (names : Path → Option LockIdentity)
    (owner : LockIdentity → Option Process) (p : Process) (session : Session Path) : Prop where
  distinct : (session.claims.map Prod.snd).Nodup
  registry : session.registry = (session.claims.map Prod.snd).toFinset
  regular : ∀ claim ∈ session.claims, regular claim.2 = true
  named : outsiders = false → ∀ claim ∈ session.claims, names claim.1 = some claim.2
  owned : ∀ guard ∈ session.guards, owner guard.2 = some p
  /-- Closing what an acquisition has open takes no guard's lock. -/
  held : ∀ a ∈ session.acquiring, ∀ inode ∈ a.2.2.held, inode ∉ session.registry
  locked : ∀ a ∈ session.acquiring, ∀ inode, a.2.2 = .unstage inode → owner inode = some p

variable {regular} {outsiders : Bool} {names names' : Path → Option LockIdentity}
  {owner owner' : LockIdentity → Option Process} {p : Process} {session : Session Path}
  {path : Path} {attempts : Nat} {point : Point} {inode : LockIdentity}

theorem claims_acquiring (h : session.acquiring = some (path, attempts, point)) :
    session.claims = (point.registered.map (path, ·)).toList ++ session.guards := by
  rw [claims, h]
  rfl

theorem Kept.empty : Kept regular outsiders names owner p {} := by
  refine ⟨List.nodup_nil, rfl, ?_, fun _ => ?_, ?_, ?_, ?_⟩ <;> rintro _ ⟨⟩

section

variable (h : session.Kept regular outsiders names owner p)
include h

theorem Kept.mem_registry {claim : Path × LockIdentity} (hclaim : claim ∈ session.claims) :
    claim.2 ∈ session.registry := by
  rw [h.registry, List.mem_toFinset]
  exact List.mem_map_of_mem hclaim

theorem Kept.registered (hpoint : session.acquiring = some (path, attempts, point))
    (hinode : point.registered = some inode) : inode ∈ session.registry := by
  have hclaim : (path, inode) ∈ session.claims := by
    rw [claims_acquiring hpoint, hinode]
    exact List.mem_cons_self
  exact h.mem_registry hclaim

theorem Kept.guards_distinct : (session.guards.map Prod.snd).Nodup :=
  h.distinct.sublist ((List.sublist_append_right ..).map _)

theorem Kept.frame
    (hnames : outsiders = false → ∀ path inode, names path = some inode →
      names' path = some inode)
    (howner : ∀ inode ∈ session.registry, owner inode = some p →
      owner' inode = some p) : session.Kept regular outsiders names' owner' p :=
  { h with
    named := fun hout claim hclaim => hnames hout _ _ (h.named hout claim hclaim)
    owned := fun guard hguard => howner _
      (h.mem_registry (List.mem_append_right _ hguard)) (h.owned guard hguard)
    locked := fun a ha inode hinode => howner _
      (h.registered (Option.mem_def.mp ha) (hinode ▸ rfl)) (h.locked a ha inode hinode) }

/-- The claims may pass from the acquisition to the guards. -/
theorem Kept.goTo {acquiring : Option (Path × Nat × Point)} {guards : List (Path × LockIdentity)}
    (hclaims : claims { session with acquiring, guards } = session.claims)
    (howned : ∀ guard ∈ guards, owner guard.2 = some p)
    (hheld : ∀ a ∈ acquiring, ∀ inode ∈ a.2.2.held, inode ∉ session.registry)
    (hlocked : ∀ a ∈ acquiring, ∀ inode, a.2.2 = .unstage inode → owner inode = some p) :
    Kept regular outsiders names owner p { session with acquiring, guards } where
  distinct := hclaims ▸ h.distinct
  registry := hclaims ▸ h.registry
  regular := hclaims ▸ h.regular
  named := hclaims ▸ h.named
  owned := howned
  held := hheld
  locked := hlocked

theorem Kept.register (hpoint : session.acquiring = some (path, attempts, point))
    (hfree : point.registered = none) (hheld : point.held = some inode)
    (hregular : regular inode = true) (hnames : names path = some inode) (staged : Bool) :
    Kept regular outsiders names owner p
      (session.after path attempts (.register inode staged)) := by
  have hclaims : session.claims = session.guards := by
    rw [claims_acquiring hpoint, hfree]
    rfl
  have hnew : inode ∉ session.registry := h.held _ hpoint _ hheld
  constructor
  · refine List.nodup_cons.mpr ⟨fun hmem => hnew ?_, hclaims ▸ h.distinct⟩
    rw [h.registry, hclaims]
    exact List.mem_toFinset.mpr hmem
  · rw [after, h.registry, hclaims]
    exact List.toFinset_cons.symm
  · exact List.forall_mem_cons.mpr ⟨hregular, hclaims ▸ h.regular⟩
  · exact fun hout => List.forall_mem_cons.mpr ⟨hnames, hclaims ▸ h.named hout⟩
  · exact h.owned
  · rintro _ ⟨⟩ _ ⟨⟩
  · rintro _ ⟨⟩ _ ⟨⟩

end

variable [DecidableEq Process] (h : session.Kept regular outsiders names owner p)
include h

theorem Kept.close {closing : Option LockIdentity}
    (hclosing : ∀ inode ∈ closing, inode ∉ session.registry) :
    session.Kept regular outsiders names (released owner p closing) p := by
  refine h.frame (fun _ _ _ => id) fun inode hinode howner => ?_
  rw [released, if_neg fun hcase => hclosing inode hcase.1 hinode]
  exact howner

/-- A claim is given up with its descriptor. -/
theorem Kept.unclaim {claim : Path × LockIdentity} {guards : List (Path × LockIdentity)}
    (hclaims : session.claims.Perm (claim :: guards)) (hguards : guards ⊆ session.guards) :
    Kept regular outsiders names (released owner p (some claim.2)) p
      ⟨session.registry.erase claim.2, guards, none⟩ := by
  have hdistinct := List.nodup_cons.mp ((hclaims.map Prod.snd).nodup_iff.mp h.distinct)
  have hrest : guards ⊆ session.claims := fun _ hguard =>
    hclaims.mem_iff.mpr (List.mem_cons_of_mem _ hguard)
  have hkept : Kept regular outsiders names owner p
      ⟨session.registry.erase claim.2, guards, none⟩ := by
    refine ⟨hdistinct.2, ?_, fun guard hguard => h.regular _ (hrest hguard),
      fun hout guard hguard => h.named hout _ (hrest hguard),
      fun guard hguard => h.owned _ (hguards hguard), ?_, ?_⟩
    · rw [h.registry, List.toFinset_eq_of_perm _ _ (hclaims.map Prod.snd), List.map_cons,
        List.toFinset_cons, Finset.erase_insert fun hmem => hdistinct.1 (List.mem_toFinset.mp hmem)]
      rfl
    · rintro _ ⟨⟩
    · rintro _ ⟨⟩
  refine hkept.close ?_
  rintro _ ⟨⟩
  exact Finset.notMem_erase _ _

theorem Kept.fail (hpoint : session.acquiring = some (path, attempts, point))
    (hfree : point.registered = none) {closing : Option LockIdentity}
    (hclosing : ∀ inode ∈ closing, inode ∉ session.registry) :
    Kept regular outsiders names (released owner p closing) p
      (session.after path attempts (.fail closing)) := by
  have hclosed := h.close hclosing
  refine hclosed.goTo ?_ hclosed.owned ?_ ?_
  · rw [claims_acquiring hpoint, hfree]
    rfl
  · rintro _ ⟨⟩
  · rintro _ ⟨⟩

end Session

/-! ## An acquisition ends -/

/-- The most calls an attempt has left. -/
def Point.callsLeft : Point → Nat
  | look => 1006
  | create tries => 5 + (1000 - tries)
  | openExisting => 5
  | stat _ | link _ => 4
  | lookAgain _ | verify _ => 3
  | lock .. => 2
  | unstage _ => 1

/-- A bound on the calls that are left on this way. -/
def Next.callsLeft : Next → Nat
  | goTo point => point.callsLeft
  | register .. => 2
  | _ => 0

theorem Point.callsLeft_pos (point : Point) : 0 < point.callsLeft := by
  cases point <;> rw [callsLeft] <;> omega

theorem Point.callsLeft_le (point : Point) : point.callsLeft ≤ 1006 := by
  cases point <;> rw [callsLeft] <;> omega

theorem acquire_callsLeft (registry : Finset LockIdentity) (point : Point) (answer : Answer) :
    (acquire regular registry point answer).callsLeft < point.callsLeft := by
  fun_cases acquire regular registry point answer
  all_goals first
    | exact Point.callsLeft_pos _
    | simp only [Next.callsLeft, Point.callsLeft]; omega

namespace Session

/-- The session when its calls have had these answers. -/
def calls (session : Session Path) : List Answer → Session Path
  | [] => session
  | answer :: answers =>
    match session.acquiring with
    | none => session
    | some (path, attempts, point) =>
      (session.after path attempts (acquire regular session.registry point answer)).calls answers

/-- A bound on the calls of an acquisition that are left. -/
def callsLeft (session : Session Path) : Nat :=
  match session.acquiring with
  | none => 0
  | some (_, attempts, point) => (1000 - attempts) * 1006 + point.callsLeft

theorem callsLeft_after (session : Session Path) (path : Path) (attempts : Nat) (next : Next) :
    (session.after path attempts next).callsLeft ≤ (1000 - attempts) * 1006 + next.callsLeft := by
  cases next with
  | again closing =>
    rw [after, callsLeft]
    split_ifs with hattempts
    · dsimp only [Point.callsLeft, Next.callsLeft]
      omega
    · exact Nat.zero_le _
  | goTo point => exact le_rfl
  | register inode staged => exact le_rfl
  | _ => exact Nat.zero_le _

theorem callsLeft_le (session : Session Path) : session.callsLeft ≤ 1007006 := by
  rw [callsLeft]
  split
  · exact Nat.zero_le _
  · rename_i attempts point _
    have := point.callsLeft_le
    omega

theorem calls_none (answers : List Answer) (session : Session Path)
    (h : session.callsLeft ≤ answers.length) :
    (session.calls regular answers).acquiring = none := by
  induction answers generalizing session with
  | nil =>
    rw [calls]
    cases hpoint : session.acquiring with
    | none => rfl
    | some a =>
      have hpositive := a.2.2.callsLeft_pos
      rw [callsLeft, hpoint] at h
      exact absurd (Nat.le_trans (Nat.le_add_left ..) h) (Nat.not_le.mpr hpositive)
  | cons answer answers ih =>
    rw [calls]
    split
    · assumption
    · rename_i path attempts point hpoint
      have hafter := callsLeft_after session path attempts
        (acquire regular session.registry point answer)
      have hless := acquire_callsLeft regular session.registry point answer
      rw [callsLeft, hpoint, List.length_cons] at h
      dsimp only at h
      exact ih _ (by omega)

/-- Whatever answers it gets, an acquisition ends. -/
theorem calls_end (session : Session Path) (answers : List Answer)
    (h : 1007006 ≤ answers.length) : (session.calls regular answers).acquiring = none :=
  calls_none regular answers session (session.callsLeft_le.trans h)

/-- The file is gone at each open. -/
theorem calls_end_gone :
    (calls (fun _ => true) { acquiring := some ((), 1, .look) }
      (List.replicate 503503 [.entry (1, 1), .notFound]).flatten).acquiring = none :=
  calls_end _ _ _ <| by
    rw [List.length_flatten, List.map_replicate, List.sum_replicate_nat]
    decide

end Session


/-! ## The system -/

/-- Names, locks and the sessions of all processes. -/
structure System (Process Path : Type) where
  names : Path → Option LockIdentity
  owner : LockIdentity → Option Process
  sessions : Process → Session Path

namespace System

/-- When the operating system may give an answer.  A new inode is not one that is open. -/
def Admits (fstatFails : Bool) (s : System Process Path) (p : Process) (path : Path) :
    Point → Answer → Prop
  | .stat _, .failed => fstatFails = true
  | _, .failed => True
  | .look, .notFound | .openExisting, .notFound | .lookAgain _, .notFound
  | .verify _, .notFound => s.names path = none
  | .look, .entry inode | .openExisting, .entry inode | .lookAgain _, .entry inode
  | .verify _, .entry inode => s.names path = some inode
  | .create _, .entry inode => inode ∉ (s.sessions p).registry
  | .create _, .alreadyExists | .stat _, .done | .unstage _, .done => True
  | .link _, .done => s.names path = none
  | .link _, .alreadyExists => s.names path ≠ none
  | .lock inode _, .done => s.owner inode = none ∨ s.owner inode = some p
  | _, _ => False

/-- `validate_path_identity`, of the lock file alone. -/
def validatePathIdentity (s : System Process Path) (guard : Path × LockIdentity) : Bool :=
  (s.names guard.1).any fun inode => regular inode && inode = guard.2

/-- What an acquisition may do next. -/
def Fits (s : System Process Path) (p : Process) (session : Session Path) (path : Path)
    (point : Point) : Next → Prop
  | .goTo point' => point'.registered = point.registered ∧
      (∀ inode ∈ point'.held, inode ∉ session.registry) ∧
      ∀ inode, point' = .unstage inode → s.owner inode = some p
  | .again closing | .fail closing => point.registered = none ∧
      ∀ inode ∈ closing, inode ∉ session.registry
  | .register inode _ => point.registered = none ∧ point.held = some inode ∧
      regular inode = true ∧ s.names path = some inode
  | .unregister inode => point.registered = some inode
  | .succeed inode => point.registered = some inode ∧ s.owner inode = some p

/-- What holds in every state of every run. -/
def Sound (regular : LockIdentity → Bool) (outsiders : Bool) (s : System Process Path) : Prop :=
  ∀ q, (s.sessions q).Kept regular outsiders s.names s.owner q

section

variable {regular} {outsiders : Bool} {s : System Process Path} {p : Process} {path : Path}
  {attempts : Nat} {point : Point} {answer : Answer}

theorem Sound.exclusive (h : Sound regular outsiders s) {q : Process}
    {guard other : Path × LockIdentity} (hguard : guard ∈ (s.sessions p).guards)
    (hother : other ∈ (s.sessions q).guards) (heq : guard.2 = other.2) : p = q ∧ guard = other := by
  have hp := (h p).owned guard hguard
  rw [heq, (h q).owned other hother] at hp
  obtain rfl := Option.some.inj hp
  exact ⟨rfl, List.inj_on_of_nodup_map (h _).guards_distinct hguard hother heq⟩

theorem validatePathIdentity_iff {guard : Path × LockIdentity} :
    s.validatePathIdentity regular guard = true ↔
      s.names guard.1 = some guard.2 ∧ regular guard.2 = true := by
  rw [validatePathIdentity, Option.any_eq_true]
  constructor
  · rintro ⟨inode, hname, hvalid⟩
    obtain ⟨hregular, rfl⟩ := by simpa using hvalid
    exact ⟨hname, hregular⟩
  · exact fun h => ⟨_, h.1, by simp [h.2]⟩

section

variable [DecidableEq Path]

/-- What a call does to names and locks. -/
def effect (s : System Process Path) (p : Process) (path : Path) :
    Point → Answer → System Process Path
  | .link inode, .done => { s with names := Function.update s.names path (some inode) }
  | .lock inode _, .done => { s with owner := Function.update s.owner inode (some p) }
  | _, _ => s

theorem fits_acquire
    (hregular : ∀ inode ∈ (s.sessions p).registry, regular inode = true)
    (hheld : ∀ inode ∈ point.held, inode ∉ (s.sessions p).registry)
    (hlocked : ∀ inode, point = .unstage inode → s.owner inode = some p)
    (hanswer : s.Admits false p path point answer) :
    (s.effect p path point answer).Fits regular p (s.sessions p) path point
      (acquire regular (s.sessions p).registry point answer) := by
  fun_cases acquire regular (s.sessions p).registry point answer
  case case6 inode hirregular =>
    refine ⟨rfl, fun other hother hmem => ?_⟩
    cases hother
    exact absurd (hregular _ hmem) (by rw [hirregular]; decide)
  case case18 inode current hcurrent =>
    obtain ⟨hcurrent, rfl⟩ := hcurrent
    exact ⟨rfl, rfl, hcurrent, hanswer⟩
  case case25 inode hnotdone =>
    cases answer with
    | done => exact absurd rfl hnotdone
    | failed => exact absurd hanswer Bool.false_ne_true
    | _ => exact hanswer.elim
  all_goals simp_all [Fits, Point.held, Point.registered, Admits, effect]

theorem effect_sessions : (s.effect p path point answer).sessions = s.sessions := by
  unfold effect
  split <;> rfl

theorem Sound.effect (h : Sound regular outsiders s)
    (hanswer : s.Admits false p path point answer) :
    Sound regular outsiders (s.effect p path point answer) := by
  intro q
  rw [effect_sessions]
  unfold System.effect
  split
  · refine (h q).frame (fun _ other inode hother => ?_) fun _ _ => id
    have hne : other ≠ path := by
      rintro rfl
      cases hother.symm.trans hanswer
    exact (Function.update_of_ne hne ..).trans hother
  · rename_i inode staged
    refine (h q).frame (fun _ _ _ => id) fun other _ howner => ?_
    rcases eq_or_ne other inode with rfl | hne
    · refine (Function.update_self ..).trans ?_
      rcases hanswer with hnone | hsome
      · cases hnone.symm.trans howner
      · exact hsome.symm.trans howner
    · exact (Function.update_of_ne hne ..).trans howner
  · exact h q

end

section

variable [DecidableEq Process]

/-- Puts a session back and closes a descriptor. -/
def put (s : System Process Path) (p : Process) (closing : Option LockIdentity)
    (session : Session Path) : System Process Path :=
  { s with
    owner := released s.owner p closing
    sessions := Function.update s.sessions p session }

theorem kept_after {next : Next} {session : Session Path}
    (h : session.Kept regular outsiders s.names s.owner p)
    (hpoint : session.acquiring = some (path, attempts, point))
    (hnext : s.Fits regular p session path point next) :
    (session.after path attempts next).Kept regular outsiders s.names
      (released s.owner p next.closing) p := by
  cases next with
  | goTo point' =>
    obtain ⟨hregistered, hheld, hlocked⟩ := hnext
    rw [Next.closing, released_none]
    refine h.goTo ?_ h.owned ?_ ?_
    · rw [Session.claims_acquiring hpoint, ← hregistered]
      rfl
    · rintro _ ⟨⟩
      exact hheld
    · rintro _ ⟨⟩
      exact hlocked
  | again closing =>
    have hstopped := h.fail hpoint hnext.1 hnext.2
    by_cases hattempts : attempts < 1000
    · rw [Session.after, if_pos hattempts]
      refine hstopped.goTo rfl hstopped.owned ?_ ?_
      · rintro _ ⟨⟩ _ ⟨⟩
      · rintro _ ⟨⟩ _ ⟨⟩
    · rw [Session.after, if_neg hattempts]
      exact hstopped
  | fail closing => exact h.fail hpoint hnext.1 hnext.2
  | register inode staged =>
    obtain ⟨hfree, hheld, hregular, hnames⟩ := hnext
    rw [Next.closing, released_none]
    exact h.register hpoint hfree hheld hregular hnames staged
  | unregister inode =>
    have hclaims : session.claims.Perm ((path, inode) :: session.guards) := by
      rw [Session.claims_acquiring hpoint, hnext]
      rfl
    exact h.unclaim hclaims fun _ => id
  | succeed inode =>
    rw [Next.closing, released_none]
    refine h.goTo ?_ (List.forall_mem_cons.mpr ⟨hnext.2, h.owned⟩) ?_ ?_
    · rw [Session.claims_acquiring hpoint, hnext.1]
      rfl
    · rintro _ ⟨⟩
    · rintro _ ⟨⟩

theorem Sound.put (h : Sound regular outsiders s) {closing : Option LockIdentity}
    {session : Session Path}
    (hsession : session.Kept regular outsiders s.names (released s.owner p closing) p) :
    Sound regular outsiders (s.put p closing session) := by
  intro q
  rcases eq_or_ne q p with rfl | hne
  · dsimp only [System.put]
    rw [Function.update_self]
    exact hsession
  · dsimp only [System.put]
    rw [Function.update_of_ne hne]
    exact (h q).frame (fun _ _ _ => id) fun _ _ howner => released_of_ne hne howner _

end

end

/-! ## Runs -/

variable [DecidableEq Process] [DecidableEq Path]

/-- A step of any process.  With `outsiders`, the names may change at will; with `fstatFails`,
the `fstat` of an open descriptor may fail. -/
inductive Step (outsiders fstatFails : Bool) :
    System Process Path → System Process Path → Prop
  | acquire {s} (p path) (hidle : (s.sessions p).acquiring = none) :
      Step outsiders fstatFails s
        (s.put p none { s.sessions p with acquiring := some (path, 1, .look) })
  | call {s path attempts point next} (p : Process) (answer : Answer)
      (hpoint : (s.sessions p).acquiring = some (path, attempts, point))
      (hanswer : s.Admits fstatFails p path point answer)
      (hnext : RepositoryLock.acquire regular (s.sessions p).registry point answer = next) :
      Step outsiders fstatFails s ((s.effect p path point answer).put p next.closing
        ((s.sessions p).after path attempts next))
  | drop {s p guard} (hidle : (s.sessions p).acquiring = none)
      (hguard : guard ∈ (s.sessions p).guards) :
      Step outsiders fstatFails s (s.put p (some guard.2)
        ⟨(s.sessions p).registry.erase guard.2, (s.sessions p).guards.erase guard, none⟩)
  /-- The end of a process closes everything. -/
  | exit {s p} :
      Step outsiders fstatFails s { s with
        owner := fun inode => released s.owner p (some inode) inode
        sessions := Function.update s.sessions p {} }
  | outside {s} (names) (h : outsiders = true) : Step outsiders fstatFails s { s with names }
  /-- A process without guards takes or gives up a lock by itself, as Oak does. -/
  | foreign {s p inode owner} (hidle : s.sessions p = {})
      (hbefore : s.owner inode = none ∨ s.owner inode = some p)
      (hafter : owner = none ∨ owner = some p) :
      Step outsiders fstatFails s { s with owner := Function.update s.owner inode owner }

/-- Every run starts without guards. -/
def Reachable (outsiders fstatFails : Bool) (s : System Process Path) : Prop :=
  ∃ start : System Process Path, (∀ p, start.sessions p = {}) ∧
    Relation.ReflTransGen (Step regular outsiders fstatFails) start s

variable {regular} {outsiders fstatFails : Bool} {s t : System Process Path} {p : Process}

theorem Sound.step (h : Sound regular outsiders s) (hstep : Step regular outsiders false s t) :
    Sound regular outsiders t := by
  cases hstep with
  | acquire p path hidle =>
    refine h.put ?_
    rw [released_none]
    refine (h _).goTo ?_ (h _).owned ?_ ?_
    · rw [Session.claims, Session.claims, hidle]
      rfl
    · rintro _ ⟨⟩ _ ⟨⟩
    · rintro _ ⟨⟩ _ ⟨⟩
  | call p answer hpoint hanswer hnext =>
    have heffect := h.effect hanswer
    refine heffect.put (kept_after (effect_sessions (s := s) ▸ heffect p) hpoint ?_)
    rw [← hnext]
    refine fits_acquire (fun inode hinode => ?_) ((h p).held _ hpoint)
      ((h p).locked _ hpoint) hanswer
    rw [(h p).registry, List.mem_toFinset] at hinode
    obtain ⟨claim, hclaim, rfl⟩ := List.mem_map.mp hinode
    exact (h p).regular claim hclaim
  | drop hidle hguard =>
    refine h.put ((h _).unclaim ?_ (List.erase_subset ..))
    rw [Session.claims, hidle]
    exact List.perm_cons_erase hguard
  | @exit p =>
    intro q
    rcases eq_or_ne q p with rfl | hne
    · dsimp only
      rw [Function.update_self]
      exact .empty
    · dsimp only
      rw [Function.update_of_ne hne]
      exact (h q).frame (fun _ _ _ => id) fun _ _ howner => released_of_ne hne howner _
  | outside names hout =>
    refine fun q => (h q).frame (fun hno => ?_) fun _ _ => id
    cases hno.symm.trans hout
  | @foreign p inode owner hidle hbefore hafter =>
    intro q
    rcases eq_or_ne q p with rfl | hne
    · rw [hidle]
      exact .empty
    · refine (h q).frame (fun _ _ _ => id) fun other _ howner => ?_
      refine (Function.update_of_ne ?_ ..).trans howner
      rintro rfl
      rcases hbefore with hnone | hsome
      · cases hnone.symm.trans howner
      · exact hne (Option.some.inj (howner.symm.trans hsome))

theorem Reachable.tail (h : Reachable regular outsiders fstatFails s)
    (hstep : Step regular outsiders fstatFails s t) :
    Reachable regular outsiders fstatFails t := by
  obtain ⟨start, hstart, hsteps⟩ := h
  exact ⟨start, hstart, hsteps.tail hstep⟩

theorem Reachable.sound (h : Reachable regular outsiders false s) : Sound regular outsiders s := by
  obtain ⟨start, hstart, hsteps⟩ := h
  induction hsteps with
  | refl =>
    intro q
    rw [hstart]
    exact .empty
  | tail _ hstep ih => exact ih.step hstep

/-- An `fstat` that fails gives up a lock: the name comes to stand for the inode of a guard
between the look and the open. -/
theorem fstat_failure_unlocks : ∃ s : System Bool Unit, Reachable (fun _ => true) true true s ∧
    ∃ guard ∈ (s.sessions true).guards, s.owner guard.2 = none := by
  have h₀ : Reachable (fun _ => true) true true
      (⟨fun _ => some (0, 1), fun _ => none, fun _ => {}⟩ : System Bool Unit) :=
    ⟨_, fun _ => rfl, .refl⟩
  have h₁ := h₀.tail (.acquire true () rfl)
  have h₂ := h₁.tail (.call true (.entry (0, 1)) rfl rfl rfl)
  have h₃ := h₂.tail (.call true (.entry (0, 1)) rfl rfl rfl)
  have h₄ := h₃.tail (.call true .done rfl trivial rfl)
  have h₅ := h₄.tail (.call true (.entry (0, 1)) rfl rfl rfl)
  have h₆ := h₅.tail (.call true .done rfl (.inl rfl) rfl)
  have h₇ := h₆.tail (.outside (fun _ => some (0, 2)) rfl)
  have h₈ := h₇.tail (.acquire true () rfl)
  have h₉ := h₈.tail (.call true (.entry (0, 2)) rfl rfl rfl)
  have h₁₀ := h₉.tail (.outside (fun _ => some (0, 1)) rfl)
  have h₁₁ := h₁₀.tail (.call true (.entry (0, 1)) rfl rfl rfl)
  exact ⟨_, h₁₁.tail (.call true .failed rfl rfl rfl), _, List.mem_cons_self, rfl⟩

/-! ## Exclusion -/

/-- In every run without a failing `fstat` the guards of all processes hold distinct inodes, each
with the record lock, and a process without an acquisition has registered the inodes of its
guards and no other. -/
theorem locked_run (h : Reachable regular outsiders false s) :
    (∀ p, ((s.sessions p).guards.map Prod.snd).Nodup ∧
      (∀ guard ∈ (s.sessions p).guards, s.owner guard.2 = some p) ∧
      ((s.sessions p).acquiring = none →
        (s.sessions p).registry = ((s.sessions p).guards.map Prod.snd).toFinset)) ∧
    ∀ p q, ∀ guard ∈ (s.sessions p).guards, ∀ other ∈ (s.sessions q).guards,
      guard.2 = other.2 → p = q ∧ guard = other := by
  refine ⟨fun p => ⟨(h.sound p).guards_distinct, (h.sound p).owned, fun hidle => ?_⟩,
    fun p q guard hguard other hother => h.sound.exclusive hguard hother⟩
  rw [(h.sound p).registry, Session.claims, hidle]
  rfl

/-- A guard whose path is valid excludes every other one of that path, in all processes.  Unless
somebody else touches the names, all guards stay valid. -/
theorem guarded_run (h : Reachable regular outsiders false s) :
    (outsiders = false → ∀ p, ∀ guard ∈ (s.sessions p).guards,
      s.validatePathIdentity regular guard = true) ∧
    ∀ p q, ∀ guard ∈ (s.sessions p).guards, ∀ other ∈ (s.sessions q).guards,
      guard.1 = other.1 → s.validatePathIdentity regular guard = true →
      s.validatePathIdentity regular other = true → p = q ∧ guard = other := by
  constructor
  · intro hout p guard hguard
    have hclaim : guard ∈ (s.sessions p).claims := List.mem_append_right _ hguard
    exact validatePathIdentity_iff.mpr
      ⟨(h.sound p).named hout _ hclaim, (h.sound p).regular _ hclaim⟩
  · intro p q guard hguard other hother hpath hvalid hvalid'
    have hname := (validatePathIdentity_iff.mp hvalid).1
    rw [hpath, (validatePathIdentity_iff.mp hvalid').1] at hname
    exact h.sound.exclusive hguard hother (Option.some.inj hname).symm

/-- One process creates the file and holds it. -/
theorem reachable_guarded : ∃ s : System Bool Unit, Reachable (fun _ => true) false false s ∧
    ((), 0, 1) ∈ (s.sessions true).guards := by
  have h₀ : Reachable (fun _ => true) false false
      (⟨fun _ => none, fun _ => none, fun _ => {}⟩ : System Bool Unit) :=
    ⟨_, fun _ => rfl, .refl⟩
  have h₁ := h₀.tail (.acquire true () rfl)
  have h₂ := h₁.tail (.call true .notFound rfl rfl rfl)
  have h₃ := h₂.tail (.call true (.entry (0, 1)) rfl (Finset.notMem_empty _) rfl)
  have h₄ := h₃.tail (.call true .done rfl rfl rfl)
  have h₅ := h₄.tail (.call true (.entry (0, 1)) rfl rfl rfl)
  have h₆ := h₅.tail (.call true .done rfl (.inl rfl) rfl)
  exact ⟨_, h₆.tail (.call true .done rfl trivial rfl), List.mem_cons_self⟩

theorem locked_run_guarded : ∃ s : System Bool Unit, s.owner (0, 1) = some true := by
  obtain ⟨s, h, hguard⟩ := reachable_guarded
  exact ⟨s, ((locked_run h).1 true).2.1 _ hguard⟩

theorem guarded_run_guarded : ∃ s : System Bool Unit,
    s.validatePathIdentity (fun _ => true) ((), 0, 1) = true := by
  obtain ⟨s, h, hguard⟩ := reachable_guarded
  exact ⟨s, (guarded_run h).1 rfl true _ hguard⟩

end System

end Froe.RepositoryLock
