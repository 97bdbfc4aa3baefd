import Mathlib.Algebra.BigOperators.Group.Finset.Basic
import Mathlib.Algebra.Order.BigOperators.Group.Finset
import Mathlib.Algebra.Ring.Nat
import Mathlib.Data.Fintype.EquivFin
import Mathlib.Logic.Relation
import Mathlib.Order.WellFounded

/-!
# Depth-first verification with a memo

A graph whose nodes are checked when they are opened is verified with an explicit stack.
A node enters the memo when everything below it has passed, and later walks start from the
memo.  A node that is opened below itself ends the walk.

`Whole` says that everything below a node passes and that nothing is below itself
(`whole_iff`).  A walk from a memo of whole nodes ends with a memo of whole nodes, and it
succeeds exactly on a whole root (`walk_spec`).
-/

namespace VerifyWalk

open List (map_cons mem_cons mem_cons_self)

variable {V N ε : Type}

/-- A graph of nodes with their checks. -/
structure Graph (V N ε : Type) where
  /-- The children of a node, unless a check of the node fails. -/
  check : V → Except ε (List (N × V))
  /-- What is reported of a node below itself. -/
  cycle : V → ε

namespace Graph

variable (G : Graph V N ε)

/-- One step down from a node that passes its checks. -/
def Child (v c : V) : Prop := ∃ children n, G.check v = .ok children ∧ (n, c) ∈ children

/-- A node can be reached from another. -/
def Reach : V → V → Prop := Relation.ReflTransGen G.Child

/-- Everything below a node passes its checks, to a finite depth. -/
inductive Whole : V → Prop
  | node (v : V) (children : List (N × V)) (passes : G.check v = .ok children)
      (below : ∀ child ∈ children, Whole child.2) : Whole v

end Graph

section

variable {G : Graph V N ε} {v w : V}

theorem Graph.Whole.child (h : G.Whole v) (hchild : G.Child v w) : G.Whole w := by
  cases h with
  | node _ children passes below =>
    obtain ⟨children', n, hcheck, hmem⟩ := hchild
    rw [passes] at hcheck
    obtain rfl := Except.ok.inj hcheck
    exact below (n, w) hmem

theorem Graph.Whole.reach (h : G.Whole v) (hreach : G.Reach v w) : G.Whole w := by
  induction hreach with
  | refl => exact h
  | tail _ hchild ih => exact ih.child hchild

theorem Graph.Whole.acyclic (h : G.Whole v) : ¬ Relation.TransGen G.Child v v := by
  induction h with
  | node v children passes below ih =>
    intro hcycle
    obtain ⟨c, ⟨children', n, hcheck, hmem⟩, hback⟩ := Relation.TransGen.head'_iff.mp hcycle
    have hchildren := hcheck
    rw [passes] at hchildren
    obtain rfl := Except.ok.inj hchildren
    exact ih (n, c) hmem (Relation.TransGen.tail' hback ⟨children, n, hcheck, hmem⟩)

/-- In a finite graph a node is whole when everything below it passes and nothing is below
itself. -/
theorem whole_iff [Finite V] :
    G.Whole v ↔ (∀ w, G.Reach v w → ∃ children, G.check w = .ok children) ∧
      ∀ w, G.Reach v w → ¬ Relation.TransGen G.Child w w := by
  constructor
  · intro h
    refine ⟨fun w hreach => ?_, fun w hreach => (h.reach hreach).acyclic⟩
    cases h.reach hreach with
    | node _ children passes below => exact ⟨children, passes⟩
  · rintro ⟨hpasses, hacyclic⟩
    let below (a b : V) : Prop := G.Reach v b ∧ Relation.TransGen G.Child b a
    have htrans : IsTrans V below := ⟨fun a b c hab hbc => ⟨hbc.1, hbc.2.trans hab.2⟩⟩
    have hirrefl : Std.Irrefl below := ⟨fun a h => hacyclic a h.1 h.2⟩
    have hwell : WellFounded below := Finite.wellFounded_of_trans_of_irrefl below
    have hwhole : ∀ w, G.Reach v w → G.Whole w := by
      intro w
      induction w using hwell.induction with
      | _ w ih =>
        intro hreach
        obtain ⟨children, hcheck⟩ := hpasses w hreach
        refine .node w children hcheck fun child hmem => ?_
        have hchild : G.Child w child.2 := ⟨children, child.1, hcheck, hmem⟩
        exact ih child.2 ⟨hreach, .single hchild⟩ (hreach.tail hchild)
    exact hwhole v .refl

end

/-! ## The walk -/

/-- A node that is being verified, with the children still to be opened. -/
structure Frame (V N : Type) where
  node : V
  pending : List (N × V)
  /-- The names from the root down to the node. -/
  path : List N

/-- What is kept between walks: the nodes that have been verified, and their number. -/
structure Memo (V : Type) where
  verified : Finset V
  count : Nat

/-- A walk under way. -/
structure State (V N : Type) where
  memo : Memo V
  ancestors : Finset V
  top : Frame V N
  below : List (Frame V N)

/-- What a step gives. -/
inductive Outcome (V N ε : Type) where
  | more (state : State V N)
  | ended (result : Except (List N × ε) Unit) (memo : Memo V)

section

variable [DecidableEq V] (G : Graph V N ε) (pruned : List N → Bool)

/-- Checks one node and enumerates its children, unless the memo has the node. -/
def openNode (verified ancestors : Finset V) (path : List N) (v : V) :
    Except (List N × ε) (Option (List (N × V))) :=
  -- a node below itself is not served from the memo
  if v ∈ ancestors then .error (path, G.cycle v)
  else if v ∈ verified then .ok none
  else
    match G.check v with
    | .error error => .error (path, error)
    | .ok children => .ok (some children)

/-- Takes the next child, or leaves the node. -/
def step (s : State V N) : Outcome V N ε :=
  match s.top.pending with
  | (name, child) :: pending =>
    let path := s.top.path ++ [name]
    if pruned path then .more { s with top := { s.top with pending := pending } }
    else
      match openNode G s.memo.verified s.ancestors path child with
      | .error location => .ended (.error location) s.memo
      | .ok none => .more { s with top := { s.top with pending := pending } }
      | .ok (some children) =>
        .more ⟨s.memo, insert child s.ancestors, ⟨child, children, path⟩,
          { s.top with pending := pending } :: s.below⟩
  | [] =>
    let memo : Memo V := ⟨insert s.top.node s.memo.verified, s.memo.count + 1⟩
    match s.below with
    | [] => .ended (.ok ()) memo
    | parent :: below => .more ⟨memo, s.ancestors.erase s.top.node, parent, below⟩

/-- Takes steps until the walk ends. -/
def State.untilEnd (s : State V N) : Option (Except (List N × ε) Unit × Memo V) :=
  match step G pruned s with
  | .more next => next |>.untilEnd
  | .ended result memo => some (result, memo)
partial_fixpoint

/-- Walks over all that a root reaches. -/
def walk (memo : Memo V) (root : V) : Option (Except (List N × ε) Unit × Memo V) :=
  match openNode G memo.verified ∅ [] root with
  | .error location => some (.error location, memo)
  | .ok none => some (.ok (), memo)
  | .ok (some children) => State.untilEnd G pruned ⟨memo, {root}, ⟨root, children, []⟩, []⟩

end

/-! ## The invariant -/

/-- The frames, innermost first. -/
def State.frames (s : State V N) : List (Frame V N) := s.top :: s.below

/-- The nodes of frames. -/
def nodesOf (frames : List (Frame V N)) : List V := frames.map Frame.node

/-- Every child of a frame is pending, verified, or the node of the frame above. -/
def Linked (G : Graph V N ε) (verified : Finset V) : Option V → List (Frame V N) → Prop
  | _, [] => True
  | above, frame :: below =>
    (∃ children, G.check frame.node = .ok children ∧
      (∀ child ∈ frame.pending, child ∈ children) ∧
      (∀ v ∈ above, ∃ n, (n, v) ∈ children) ∧
      ∀ child ∈ children, child ∈ frame.pending ∨ child.2 ∈ verified ∨ child.2 ∈ above) ∧
    Linked G verified (some frame.node) below

/-- A memo has whole nodes only, each counted once. -/
structure Memo.Sound (G : Graph V N ε) (memo : Memo V) : Prop where
  whole : ∀ v ∈ memo.verified, G.Whole v
  count : memo.count = memo.verified.card

/-- What holds before every step. -/
structure Invariant (G : Graph V N ε) (root : V) (s : State V N) : Prop where
  sound : s.memo.Sound G
  distinct : (nodesOf s.frames).Nodup
  onStack : ∀ v, v ∈ s.ancestors ↔ v ∈ nodesOf s.frames
  unverified : ∀ v ∈ nodesOf s.frames, v ∉ s.memo.verified
  linked : Linked G s.memo.verified none s.frames
  bottom : (nodesOf s.frames).getLast? = some root

/-- How a walk on a root may end. -/
def EndsWell (G : Graph V N ε) (root : V) (memo : Memo V) (result : Except (List N × ε) Unit)
    (final : Memo V) : Prop :=
  final.Sound G ∧ memo.verified ⊆ final.verified ∧ (result = .ok () ↔ G.Whole root)

section

variable {G : Graph V N ε} {verified : Finset V} {root : V}

variable {frames : List (Frame V N)}

theorem Linked.mono {verified' : Finset V} (hsub : verified ⊆ verified') {above : Option V} (h : Linked G verified above frames) :
    Linked G verified' above frames := by
  induction frames generalizing above with
  | nil => trivial
  | cons frame below ih =>
    obtain ⟨⟨children, hcheck, hpending, habove, hchildren⟩, hbelow⟩ := h
    refine ⟨⟨children, hcheck, hpending, habove, fun child hmem => ?_⟩, ih hbelow⟩
    rcases hchildren child hmem with hin | hin | hin
    · exact .inl hin
    · exact .inr (.inl (hsub hin))
    · exact .inr (.inr hin)

/-- The nodes on the stack lead to the node above them. -/
theorem Linked.reach_above {v : V}
    (h : Linked G verified (some v) frames) {w : V} (hw : w ∈ nodesOf frames) :
    Relation.TransGen G.Child w v := by
  induction frames generalizing v with
  | nil => cases hw
  | cons frame below ih =>
    obtain ⟨⟨children, hcheck, -, habove, -⟩, hbelow⟩ := h
    obtain ⟨n, hn⟩ := habove v rfl
    have hchild : G.Child frame.node v := ⟨children, n, hcheck, hn⟩
    rcases mem_cons.mp hw with rfl | hw
    · exact .single hchild
    · exact (ih hbelow hw).tail hchild

theorem Linked.reach_top {top : Frame V N} {below : List (Frame V N)}
    (h : Linked G verified none (top :: below)) {w : V} (hw : w ∈ nodesOf (top :: below)) :
    G.Reach w top.node := by
  rcases mem_cons.mp hw with rfl | hw
  · exact .refl
  · exact (h.2.reach_above hw).to_reflTransGen

theorem Invariant.reach_top {s : State V N} (h : Invariant G root s) :
    G.Reach root s.top.node := by
  refine h.linked.reach_top ?_
  exact List.mem_of_getLast? h.bottom

theorem Invariant.reach_child {s : State V N} (h : Invariant G root s) {name : N} {child : V}
    {pending : List (N × V)} (hpending : s.top.pending = (name, child) :: pending) :
    G.Child s.top.node child := by
  obtain ⟨⟨children, hcheck, hmem, -, -⟩, -⟩ := h.linked
  exact ⟨children, name, hcheck, hmem (name, child) (hpending ▸ mem_cons_self)⟩

end

/-! ## One step -/

section

variable {G : Graph V N ε} {root : V} {s : State V N}

/-- A child that is passed over has been verified. -/
theorem Invariant.passOver (h : Invariant G root s) {name : N} {child : V}
    {pending : List (N × V)} (hpending : s.top.pending = (name, child) :: pending)
    (hchild : child ∈ s.memo.verified) :
    Invariant G root { s with top := { s.top with pending := pending } } := by
  obtain ⟨⟨children, hcheck, hmem, habove, hchildren⟩, hbelow⟩ := h.linked
  refine ⟨h.sound, h.distinct, h.onStack, h.unverified, ⟨⟨children, hcheck, ?_, habove, ?_⟩, hbelow⟩,
    h.bottom⟩
  · exact fun other hother => hmem other (hpending ▸ List.mem_cons_of_mem _ hother)
  · intro other hother
    rcases hchildren other hother with hin | hin | hin
    · rw [hpending] at hin
      rcases mem_cons.mp hin with rfl | hin
      · exact .inr (.inl hchild)
      · exact .inl hin
    · exact .inr (.inl hin)
    · exact .inr (.inr hin)

/-- A node whose children are all verified is whole. -/
theorem Invariant.whole_top (h : Invariant G root s) (hpending : s.top.pending = []) :
    G.Whole s.top.node := by
  obtain ⟨⟨children, hcheck, -, -, hchildren⟩, -⟩ := h.linked
  refine .node _ children hcheck fun child hmem => ?_
  rcases hchildren child hmem with hin | hin | hin
  · rw [hpending] at hin
    cases hin
  · exact h.sound.whole child.2 hin
  · cases hin

variable [DecidableEq V]

/-- A child that is opened is put on the stack. -/
theorem Invariant.push (h : Invariant G root s) {name : N} {child : V} {pending : List (N × V)}
    {path : List N} {grandchildren : List (N × V)}
    (hpending : s.top.pending = (name, child) :: pending) (hnew : child ∉ s.ancestors)
    (hunverified : child ∉ s.memo.verified) (hopen : G.check child = .ok grandchildren) :
    Invariant G root ⟨s.memo, insert child s.ancestors, ⟨child, grandchildren, path⟩,
      { s.top with pending := pending } :: s.below⟩ := by
  obtain ⟨⟨children, hcheck, hmem, -, hchildren⟩, hbelow⟩ := h.linked
  have hchild : child ∉ nodesOf s.frames := fun hin => hnew ((h.onStack child).mpr hin)
  refine ⟨h.sound, List.nodup_cons.mpr ⟨hchild, h.distinct⟩, fun v => ?_, ?_, ?_, ?_⟩
  · exact Finset.mem_insert.trans ((or_congr_right (h.onStack v)).trans mem_cons.symm)
  · exact List.forall_mem_cons.mpr ⟨hunverified, h.unverified⟩
  · refine ⟨⟨grandchildren, hopen, fun other hother => hother, nofun,
      fun other hother => .inl hother⟩, ⟨children, hcheck, ?_, ?_, ?_⟩, hbelow⟩
    · exact fun other hother => hmem other (hpending ▸ List.mem_cons_of_mem _ hother)
    · intro v hv
      have hentry : (name, child) ∈ children := hmem _ (hpending ▸ mem_cons_self)
      exact ⟨name, Option.some.inj hv ▸ hentry⟩
    · intro other hother
      rcases hchildren other hother with hin | hin | hin
      · rw [hpending] at hin
        rcases mem_cons.mp hin with rfl | hin
        · exact .inr (.inr rfl)
        · exact .inl hin
      · exact .inr (.inl hin)
      · cases hin
  · exact h.bottom

theorem Invariant.sound_finish (h : Invariant G root s) (hpending : s.top.pending = []) :
    Memo.Sound G ⟨insert s.top.node s.memo.verified, s.memo.count + 1⟩ := by
  refine ⟨fun v hv => ?_, ?_⟩
  · rcases Finset.mem_insert.mp hv with rfl | hv
    · exact h.whole_top hpending
    · exact h.sound.whole v hv
  · have hnew : s.top.node ∉ s.memo.verified := h.unverified _ mem_cons_self
    rw [Finset.card_insert_of_notMem hnew, h.sound.count]

/-- A frame that is done leaves its node in the memo. -/
theorem Invariant.pop (h : Invariant G root s) {parent : Frame V N} {below : List (Frame V N)}
    (hpending : s.top.pending = []) (hbelow : s.below = parent :: below) :
    Invariant G root ⟨⟨insert s.top.node s.memo.verified, s.memo.count + 1⟩,
      s.ancestors.erase s.top.node, parent, below⟩ := by
  have hframes : nodesOf s.frames = s.top.node :: nodesOf (parent :: below) := by
    rw [State.frames, hbelow]
    rfl
  have hdistinct := h.distinct
  have hbottom := h.bottom
  have hlinked := h.linked
  rw [hframes] at hdistinct hbottom
  rw [State.frames, hbelow] at hlinked
  obtain ⟨hnew, hrest⟩ := List.nodup_cons.mp hdistinct
  obtain ⟨-, ⟨children, hcheck, hmem, habove, hchildren⟩, hlinked⟩ := hlinked
  refine ⟨h.sound_finish hpending, hrest, fun v => ?_, fun v hv => ?_,
    ⟨⟨children, hcheck, hmem, nofun, fun child hchild => ?_⟩,
      hlinked.mono (Finset.subset_insert ..)⟩, ?_⟩
  · rw [Finset.mem_erase, h.onStack, hframes, mem_cons]
    constructor
    · rintro ⟨hne, heq | hin⟩
      · exact absurd heq hne
      · exact hin
    · intro hin
      exact ⟨fun heq => hnew (heq ▸ hin), .inr hin⟩
  · intro hmemo
    rcases Finset.mem_insert.mp hmemo with rfl | hmemo
    · exact hnew hv
    · exact h.unverified v (hframes ▸ List.mem_cons_of_mem _ hv) hmemo
  · rcases hchildren child hchild with hin | hin | hin
    · exact .inl hin
    · exact .inr (.inl (Finset.mem_insert_of_mem hin))
    · exact .inr (.inl (Finset.mem_insert.mpr (.inl (Option.some.inj hin).symm)))
  · rw [nodesOf, map_cons, List.getLast?_cons_cons] at hbottom
    exact hbottom

/-- A step keeps the invariant, and it ends a walk as it should. -/
theorem Invariant.step (h : Invariant G root s) :
    match step G (fun _ => false) s with
    | .more next => Invariant G root next ∧ s.memo.verified ⊆ next.memo.verified
    | .ended result memo => EndsWell G root s.memo result memo := by
  rw [VerifyWalk.step]
  cases hpending : s.top.pending with
  | cons entry pending =>
    obtain ⟨name, child⟩ := entry
    have hchild := h.reach_child hpending
    dsimp only
    rw [if_neg Bool.false_ne_true, openNode]
    by_cases hcycle : child ∈ s.ancestors
    · rw [if_pos hcycle]
      refine ⟨h.sound, Finset.Subset.refl _, nofun, fun hwhole => ?_⟩
      have hback := h.linked.reach_top ((h.onStack child).mp hcycle)
      exact absurd (Relation.TransGen.tail' hback hchild)
        (hwhole.reach (h.reach_top.tail hchild)).acyclic
    rw [if_neg hcycle]
    by_cases hmemo : child ∈ s.memo.verified
    · rw [if_pos hmemo]
      exact ⟨h.passOver hpending hmemo, Finset.Subset.refl _⟩
    rw [if_neg hmemo]
    cases hopen : G.check child with
    | error error =>
      refine ⟨h.sound, Finset.Subset.refl _, nofun, fun hwhole => ?_⟩
      cases hwhole.reach (h.reach_top.tail hchild) with
      | node _ children passes below =>
        rw [hopen] at passes
        cases passes
    | ok grandchildren =>
      exact ⟨h.push hpending hcycle hmemo hopen, Finset.Subset.refl _⟩
  | nil =>
    dsimp only
    cases hbelow : s.below with
    | nil =>
      have hroot : s.top.node = root := by
        have hbottom := h.bottom
        rw [State.frames, hbelow] at hbottom
        exact Option.some.inj hbottom
      refine ⟨h.sound_finish hpending, Finset.subset_insert .., fun _ => ?_, fun _ => rfl⟩
      exact hroot ▸ h.whole_top hpending
    | cons parent below => exact ⟨h.pop hpending hbelow, Finset.subset_insert ..⟩

end

/-! ## Termination -/

section

variable [DecidableEq V] [Fintype V] {G : Graph V N ε} {root : V} {s : State V N}

/-- The work that opening a node brings. -/
def openingWork (G : Graph V N ε) (v : V) : Nat :=
  match G.check v with
  | .error _ => 1
  | .ok children => children.length + 2

/-- The work left: nodes still to be opened, children still to be taken up and frames to be
finished. -/
def work (G : Graph V N ε) (s : State V N) : Nat :=
  ∑ v with v ∉ s.memo.verified ∧ v ∉ s.ancestors, openingWork G v +
    (s.frames.map fun frame => frame.pending.length + 1).sum

variable {pending : List (N × V)}

theorem work_push {name : N} {child : V} {path : List N}
    {grandchildren : List (N × V)} (hpending : s.top.pending = (name, child) :: pending)
    (hnew : child ∉ s.ancestors) (hunverified : child ∉ s.memo.verified)
    (hopen : G.check child = .ok grandchildren) :
    work G ⟨s.memo, insert child s.ancestors, ⟨child, grandchildren, path⟩,
      { s.top with pending := pending } :: s.below⟩ < work G s := by
  have hunopened : ({v | v ∉ s.memo.verified ∧ v ∉ insert child s.ancestors} : Finset V) =
      ({v | v ∉ s.memo.verified ∧ v ∉ s.ancestors} : Finset V).erase child := by
    ext v
    rw [Finset.mem_erase, Finset.mem_filter, Finset.mem_filter, Finset.mem_insert, not_or]
    exact ⟨fun ⟨hin, hv, hne, hs⟩ => ⟨hne, hin, hv, hs⟩, fun ⟨hne, hin, hv, hs⟩ => ⟨hin, hv, hne, hs⟩⟩
  have hmem : child ∈ ({v | v ∉ s.memo.verified ∧ v ∉ s.ancestors} : Finset V) :=
    Finset.mem_filter.mpr ⟨Finset.mem_univ _, hunverified, hnew⟩
  have hsum := Finset.add_sum_erase _ (openingWork G) hmem
  have hchild : openingWork G child = grandchildren.length + 2 := by
    rw [openingWork, hopen]
  rw [work, work, hunopened, ← hsum, hchild, State.frames, State.frames]
  simp only [map_cons, List.sum_cons, hpending, List.length_cons]
  omega

theorem work_pop (h : Invariant G root s) {parent : Frame V N} {below : List (Frame V N)}
    (hpending : s.top.pending = []) (hbelow : s.below = parent :: below) :
    work G ⟨⟨insert s.top.node s.memo.verified, s.memo.count + 1⟩,
      s.ancestors.erase s.top.node, parent, below⟩ < work G s := by
  have htop : s.top.node ∈ s.ancestors := (h.onStack _).mpr mem_cons_self
  have hunopened : ({v | v ∉ insert s.top.node s.memo.verified ∧
      v ∉ s.ancestors.erase s.top.node} : Finset V) =
      ({v | v ∉ s.memo.verified ∧ v ∉ s.ancestors} : Finset V) := by
    ext v
    rw [Finset.mem_filter, Finset.mem_filter, Finset.mem_insert, Finset.mem_erase, not_or, not_and]
    constructor
    · rintro ⟨hin, ⟨hne, hv⟩, hs⟩
      exact ⟨hin, hv, hs hne⟩
    · rintro ⟨hin, hv, hs⟩
      exact ⟨hin, ⟨fun heq => hs (heq ▸ htop), hv⟩, fun _ => hs⟩
  rw [work, work, hunopened, State.frames, State.frames, hbelow]
  simp only [map_cons, List.sum_cons, hpending, List.length_nil]
  omega

theorem work_skip {entry : N × V} (hpending : s.top.pending = entry :: pending) :
    work G { s with top := { s.top with pending := pending } } < work G s := by
  rw [work, work, State.frames, State.frames]
  simp only [map_cons, List.sum_cons, hpending, List.length_cons]
  omega

/-- Every step leaves less work. -/
theorem Invariant.work_step (h : Invariant G root s) {next : State V N}
    (hstep : VerifyWalk.step G (fun _ => false) s = .more next) : work G next < work G s := by
  rw [VerifyWalk.step] at hstep
  cases hpending : s.top.pending with
  | cons entry pending =>
    obtain ⟨name, child⟩ := entry
    rw [hpending] at hstep
    dsimp only at hstep
    rw [if_neg Bool.false_ne_true, openNode] at hstep
    by_cases hcycle : child ∈ s.ancestors
    · rw [if_pos hcycle] at hstep
      cases hstep
    rw [if_neg hcycle] at hstep
    by_cases hmemo : child ∈ s.memo.verified
    · rw [if_pos hmemo] at hstep
      obtain rfl := Outcome.more.inj hstep
      exact work_skip hpending
    rw [if_neg hmemo] at hstep
    cases hopen : G.check child with
    | error error =>
      rw [hopen] at hstep
      cases hstep
    | ok grandchildren =>
      rw [hopen] at hstep
      obtain rfl := Outcome.more.inj hstep
      exact work_push hpending hcycle hmemo hopen
  | nil =>
    rw [hpending] at hstep
    dsimp only at hstep
    cases hbelow : s.below with
    | nil =>
      rw [hbelow] at hstep
      cases hstep
    | cons parent below =>
      rw [hbelow] at hstep
      obtain rfl := Outcome.more.inj hstep
      exact work_pop h hpending hbelow

/-- A walk ends. -/
theorem Invariant.loop (h : Invariant G root s) :
    ∃ result memo, VerifyWalk.State.untilEnd G (fun _ => false) s = some (result, memo) ∧
      EndsWell G root s.memo result memo := by
  induction hwork : work G s using Nat.strong_induction_on generalizing s with
  | _ remaining ih =>
    have hstep := h.step
    rw [VerifyWalk.State.untilEnd]
    cases hnext : VerifyWalk.step G (fun _ => false) s with
    | ended result memo =>
      rw [hnext] at hstep
      exact ⟨result, memo, rfl, hstep⟩
    | more next =>
      rw [hnext] at hstep
      obtain ⟨hinvariant, hsub⟩ := hstep
      obtain ⟨result, memo, hloop, hsound, hsub', hresult⟩ :=
        ih _ (hwork ▸ h.work_step hnext) hinvariant rfl
      exact ⟨result, memo, hloop, hsound, hsub.trans hsub', hresult⟩

end

/-- A walk from a sound memo ends with a sound memo, and succeeds exactly on a whole root. -/
theorem walk_spec [DecidableEq V] [Finite V] {G : Graph V N ε} {memo : Memo V}
    (h : memo.Sound G) (root : V) :
    ∃ result final, walk G (fun _ => false) memo root = some (result, final) ∧
      EndsWell G root memo result final := by
  have hfinite := Fintype.ofFinite V
  rw [walk, openNode, if_neg (Finset.notMem_empty root)]
  by_cases hmemo : root ∈ memo.verified
  · rw [if_pos hmemo]
    exact ⟨_, memo, rfl, h, Finset.Subset.refl _, fun _ => h.whole root hmemo, fun _ => rfl⟩
  rw [if_neg hmemo]
  cases hopen : G.check root with
  | error error =>
    refine ⟨_, memo, rfl, h, Finset.Subset.refl _, nofun, fun hwhole => ?_⟩
    cases hwhole with
    | node _ children passes below =>
      rw [hopen] at passes
      cases passes
  | ok children =>
    refine Invariant.loop (s := ⟨memo, {root}, ⟨root, children, []⟩, []⟩)
      ⟨h, List.nodup_singleton root, fun v => ?_, ?_, ?_, rfl⟩
    · exact Finset.mem_singleton.trans List.mem_singleton.symm
    · exact fun v hv => List.mem_singleton.mp hv ▸ hmemo
    · exact ⟨⟨children, hopen, fun child hchild => hchild, nofun, fun child hchild => .inl hchild⟩,
        trivial⟩

end VerifyWalk
