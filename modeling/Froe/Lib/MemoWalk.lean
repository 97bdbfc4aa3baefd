import Froe.Lib.Related
import Mathlib.Algebra.BigOperators.Group.Finset.Basic
import Mathlib.Algebra.Order.BigOperators.Group.Finset
import Mathlib.Algebra.Ring.Nat
import Mathlib.Logic.Relation

/-!
# Depth-first copies with a memo

A graph of visits is copied bottom up with an explicit stack: a visit is
emitted when the copies of all its children are there, and a memo serves the
visits that share a key.  Each visit has a place, and a visit whose place is
already on the stack closes a cycle.

`Unfolds` is the meaning of a visit: the finite tree of places below it.  When
visits that share a key have the same meaning (`Coherent`), what the walk
returns stands for the tree of its root (`Valued.returned`), and the root has no
cycle below it.  The walk ends on every finite graph (`exists_run_final`).
-/

namespace MemoWalk

open List (map_append map_cons mem_cons mem_cons_self mem_map mem_singleton)

/-- A graph of visits.  A child that is `none` is passed over. -/
structure Graph (V K P N : Type) where
  children : V → List (N × Option V)
  /-- What the memo knows a visit by. -/
  key : V → K
  /-- What the path knows a visit by. -/
  place : V → P
  place_of_key : ∀ {v w}, key v = key w → place v = place w

/-- A finite tree with labelled nodes and named edges. -/
inductive Tree (P N : Type) where
  | node (label : P) (children : List (N × Tree P N))

variable {V K P N τ σ ε : Type}

namespace Graph

/-- The children that are not passed over. -/
def keptOf (children : List (N × Option V)) : List (N × V) :=
  children.filterMap fun child => child.2.map (child.1, ·)

@[simp] theorem keptOf_nil : keptOf ([] : List (N × Option V)) = [] := rfl

theorem keptOf_append (as bs : List (N × Option V)) : keptOf (as ++ bs) = keptOf as ++ keptOf bs :=
  List.filterMap_append

theorem mem_keptOf {children : List (N × Option V)} {n : N} {c : V} :
    (n, c) ∈ keptOf children ↔ (n, some c) ∈ children := by
  simp only [keptOf, List.mem_filterMap, Option.map_eq_some_iff, Prod.mk.injEq]
  constructor
  · rintro ⟨⟨n', c'⟩, hmem, w, hw, rfl, rfl⟩
    cases hw
    exact hmem
  · intro hmem
    exact ⟨(n, some c), hmem, c, rfl, rfl, rfl⟩

variable (G : Graph V K P N)

def kept (v : V) : List (N × V) := keptOf (G.children v)

/-- One step down the graph. -/
def Child (v c : V) : Prop := ∃ n, (n, some c) ∈ G.children v

/-- What the walk from a root can come to. -/
def Reach : V → V → Prop := Relation.ReflTransGen G.Child

/-- A place that is reached from itself, below a root. -/
def Cyclic (root : V) : Prop :=
  ∃ v w, G.Reach root v ∧ Relation.TransGen G.Child v w ∧ G.place v = G.place w

/-- The tree of places below a visit. -/
inductive Unfolds : V → Tree P N → Prop
  | node (v : V) (trees : List (N × Tree P N))
      (names : trees.map Prod.fst = (G.kept v).map Prod.fst)
      (below : ∀ i (hc : i < (G.kept v).length) (ht : i < trees.length),
        Unfolds (G.kept v)[i].2 trees[i].2) :
      Unfolds v (.node (G.place v) trees)

/-- Visits that share a key have the same tree.  The root itself is left out: it is
emitted last, so that nothing finds it in the memo. -/
def Coherent (root : V) : Prop :=
  ∀ v w x, G.Reach root v → G.Reach root w → G.place v ≠ G.place root → G.key v = G.key w →
    G.Unfolds v x → G.Unfolds w x

end Graph

/-! ## Trees -/

section Trees

variable {G : Graph V K P N}

variable {v : V} {x : Tree P N} {p : P → Prop} {children : List (N × Tree P N)}

/-- The kept children and their trees, side by side. -/
theorem unfolds_iff :
    G.Unfolds v x ↔ ∃ trees, x = .node (G.place v) trees ∧
      List.Forall₂ (fun c t => c.1 = t.1 ∧ G.Unfolds c.2 t.2) (G.kept v) trees := by
  constructor
  · intro h
    cases h with
    | node _ trees names below =>
      refine ⟨trees, rfl, List.forall₂_iff_get.mpr ⟨?_, ?_⟩⟩
      · have := congrArg List.length names
        simpa using this.symm
      · intro i hc ht
        refine ⟨?_, below i hc ht⟩
        have := congrArg (fun names => names[i]?) names
        simp only [List.getElem?_map, List.getElem?_eq_getElem hc, List.getElem?_eq_getElem ht,
          Option.map_some, Option.some.injEq] at this
        exact this.symm
  · rintro ⟨trees, rfl, h⟩
    obtain ⟨hlength, hget⟩ := List.forall₂_iff_get.mp h
    refine .node v trees ?_ fun i hc ht => (hget i hc ht).2
    refine List.ext_getElem (by simpa using hlength.symm) ?_
    intro i ht hc
    simp only [List.getElem_map]
    exact ((hget i (by simpa using hc) (by simpa using ht)).1).symm

/-- A visit has at most one tree. -/
theorem Graph.Unfolds.unique {v : V} {x y : Tree P N} (hx : G.Unfolds v x) (hy : G.Unfolds v y) :
    x = y := by
  induction hx generalizing y with
  | node v trees names below ih =>
    cases hy with
    | node _ trees' names' below' =>
      have hlength : trees.length = (G.kept v).length := by
        simpa using congrArg List.length names
      have hlength' : trees'.length = (G.kept v).length := by
        simpa using congrArg List.length names'
      congr 1
      refine List.ext_getElem (by omega) ?_
      intro i hi hi'
      refine Prod.ext ?_ (ih i (by omega) hi (below' i (by omega) hi'))
      have hname := congrArg (fun l => l[i]?) (names.trans names'.symm)
      simpa [hi, hi'] using hname

theorem Graph.Unfolds.exists_child {c : V} {label : P} {trees : List (N × Tree P N)}
    (hx : G.Unfolds v (.node label trees)) (hc : G.Child v c) :
    ∃ child ∈ trees, G.Unfolds c child.2 := by
  obtain ⟨_, heq, hall⟩ := unfolds_iff.mp hx
  cases heq
  obtain ⟨n, hn⟩ := hc
  obtain ⟨child, hchild, -, hunfolds⟩ := Related.exists_of_mem hall (Graph.mem_keptOf.mpr hn)
  exact ⟨child, hchild, hunfolds⟩

/-- A child's tree is below its parent's. -/
theorem Graph.Unfolds.child {c : V} (hx : G.Unfolds v x) (hc : G.Child v c) :
    ∃ y, G.Unfolds c y ∧ sizeOf y < sizeOf x := by
  obtain ⟨label, trees⟩ := x
  obtain ⟨child, hchild, hunfolds⟩ := hx.exists_child hc
  refine ⟨child.2, hunfolds, ?_⟩
  have hlist := List.sizeOf_lt_of_mem hchild
  have hprod : sizeOf child.2 < sizeOf child := by
    obtain ⟨a, b⟩ := child
    simp
  simp only [Tree.node.sizeOf_spec]
  omega

theorem Graph.Unfolds.transGen {w : V} (hx : G.Unfolds v x)
    (h : Relation.TransGen G.Child v w) : ∃ y, G.Unfolds w y ∧ sizeOf y < sizeOf x := by
  induction h with
  | single hc => exact hx.child hc
  | tail _ hc ih =>
    obtain ⟨y, hy, hlt⟩ := ih
    obtain ⟨z, hz, hlt'⟩ := hy.child hc
    exact ⟨z, hz, hlt'.trans hlt⟩

/-- A property of every label of a tree. -/
inductive Tree.All (p : P → Prop) : Tree P N → Prop
  | node (label : P) (children : List (N × Tree P N)) (here : p label)
      (below : ∀ child ∈ children, Tree.All p child.2) : Tree.All p (.node label children)

theorem Tree.All.imp {q : P → Prop} (hpq : ∀ a, p a → q a) (h : x.All p) :
    x.All q := by
  induction h with
  | node label children here _ ih => exact .node label children (hpq label here) ih

theorem Tree.All.label {label : P} (h : (Tree.node label children).All p) : p label := by
  cases h with
  | node _ _ here _ => exact here

theorem Tree.All.child {label : P}
    (h : (Tree.node label children).All p) {child : N × Tree P N} (hc : child ∈ children) :
    child.2.All p := by
  cases h with
  | node _ _ _ below => exact below child hc

/-- The place of whatever is reached below a visit is a label of the visit's tree. -/
theorem Graph.Unfolds.all_reach {w : V} (hx : G.Unfolds v x)
    (hall : x.All p) (h : G.Reach v w) : p (G.place w) := by
  have hkey : ∃ y, G.Unfolds w y ∧ y.All p := by
    induction h with
    | refl => exact ⟨x, hx, hall⟩
    | tail _ hc ih =>
      obtain ⟨⟨label, trees⟩, hy, hally⟩ := ih
      obtain ⟨child, hchild, hunfolds⟩ := hy.exists_child hc
      exact ⟨child.2, hunfolds, hally.child hchild⟩
  obtain ⟨y, hy, hally⟩ := hkey
  obtain ⟨trees, rfl, -⟩ := unfolds_iff.mp hy
  exact hally.label

end Trees

/-! ## The walk -/

/-- A visit whose children are being copied. -/
structure Frame (V N τ : Type) where
  visit : V
  /-- The name of the visit in its parent, unless it is the root. -/
  name : Option N
  pending : List (N × Option V)
  finished : List (N × τ)

/-- The memo, the stack with its top first, what the emissions write to, and the visits
emitted so far. -/
structure State (V K N τ σ : Type) where
  memo : K → Option τ
  stack : List (Frame V N τ)
  out : σ
  emitted : List V

/-- How a step ends. -/
inductive Outcome (V K N τ σ ε : Type) where
  | more (state : State V K N τ σ)
  | returned (value : τ) (state : State V K N τ σ)
  | cycle (visit : V)
  | failed (error : ε)
  /-- There was no frame to look at, or a frame without a name below another. -/
  | stuck

section Walk

variable [DecidableEq K] [DecidableEq P] (G : Graph V K P N)
  (emit : V → List (N × τ) → σ → Except ε (τ × σ))

def path (stack : List (Frame V N τ)) : List P := stack.map fun frame => G.place frame.visit

/-- The emission of a frame without pending children, above the frames below it. -/
def finish (s : State V K N τ σ) (frame : Frame V N τ) (below : List (Frame V N τ)) :
    Outcome V K N τ σ ε :=
  match emit frame.visit frame.finished s.out with
  | .error error => .failed error
  | .ok (value, out) =>
    let memo := Function.update s.memo (G.key frame.visit) (some value)
    let emitted := s.emitted ++ [frame.visit]
    match below, frame.name with
    | [], _ => .returned value ⟨memo, [], out, emitted⟩
    | parent :: rest, some name =>
      .more ⟨memo, { parent with finished := parent.finished ++ [(name, value)] } :: rest, out,
        emitted⟩
    | _ :: _, none => .stuck

/-- A child is taken up. -/
def take (s : State V K N τ σ) (frame : Frame V N τ) (below : List (Frame V N τ)) (name : N)
    (child : V) (pending : List (N × Option V)) : Outcome V K N τ σ ε :=
  match s.memo (G.key child) with
  | some value =>
    .more { s with
      stack := { frame with
        pending := pending, finished := frame.finished ++ [(name, value)] } :: below }
  | none =>
    if G.place child ∈ path G s.stack then .cycle child
    else
      .more { s with
        stack := ⟨child, some name, G.children child, []⟩ ::
          { frame with pending := pending } :: below }

/-- One round of the loop. -/
def step (s : State V K N τ σ) : Outcome V K N τ σ ε :=
  match s.stack with
  | [] => .stuck
  | frame :: below =>
    match frame.pending with
    | [] => finish G emit s frame below
    | (_, none) :: pending =>
      .more { s with stack := { frame with pending := pending } :: below }
    | (name, some child) :: pending => take G s frame below name child pending

/-- The loop for a number of rounds. -/
def run : Nat → State V K N τ σ → Outcome V K N τ σ ε
  | 0, s => .more s
  | n + 1, s =>
    match step G emit s with
    | .more next => run n next
    | outcome => outcome

def start (root : V) (out : σ) : State V K N τ σ :=
  ⟨fun _ => none, [⟨root, none, G.children root, []⟩], out, []⟩

/-- Whether a run has ended. -/
def Outcome.Final : Outcome V K N τ σ ε → Prop
  | .more _ => False
  | _ => True

/-- The four ways in which a round goes on, and what each leaves behind. -/
theorem step_more {s next : State V K N τ σ} (h : step G emit s = .more next) :
    ∃ frame below, s.stack = frame :: below ∧
      ((∃ name pending, frame.pending = (name, none) :: pending ∧
          next = { s with stack := { frame with pending := pending } :: below }) ∨
        (∃ name child pending value, frame.pending = (name, some child) :: pending ∧
          s.memo (G.key child) = some value ∧
          next = { s with stack := { frame with
            pending := pending, finished := frame.finished ++ [(name, value)] } :: below }) ∨
        (∃ name child pending, frame.pending = (name, some child) :: pending ∧
          s.memo (G.key child) = none ∧ G.place child ∉ path G s.stack ∧
          next = { s with stack := ⟨child, some name, G.children child, []⟩ ::
            { frame with pending := pending } :: below }) ∨
        (∃ parent rest name value out, frame.pending = [] ∧ below = parent :: rest ∧
          frame.name = some name ∧ emit frame.visit frame.finished s.out = .ok (value, out) ∧
          next = ⟨Function.update s.memo (G.key frame.visit) (some value),
            { parent with finished := parent.finished ++ [(name, value)] } :: rest, out,
            s.emitted ++ [frame.visit]⟩)) := by
  unfold step at h
  split at h
  · cases h
  · rename_i frame below hstack
    refine ⟨frame, below, hstack, ?_⟩
    split at h
    · rename_i hpending
      unfold finish at h
      split at h
      · cases h
      · rename_i value out hemit
        split at h
        · cases h
        · rename_i parent rest name hname
          cases h
          exact .inr (.inr (.inr ⟨parent, rest, name, value, out, hpending, rfl, hname, hemit, rfl⟩))
        · cases h
    · rename_i name pending hpending
      cases h
      exact .inl ⟨name, pending, hpending, rfl⟩
    · rename_i name child pending hpending
      unfold take at h
      split at h
      · rename_i value hmemo
        cases h
        exact .inr (.inl ⟨name, child, pending, value, hpending, hmemo, rfl⟩)
      · rename_i hmemo
        split at h
        · cases h
        · rename_i hplace
          cases h
          exact .inr (.inr (.inl ⟨name, child, pending, hpending, hmemo, hplace, rfl⟩))

theorem step_returned {s final : State V K N τ σ} {value : τ}
    (h : step G emit s = .returned value final) :
    ∃ frame out, s.stack = [frame] ∧ frame.pending = [] ∧
      emit frame.visit frame.finished s.out = .ok (value, out) ∧
      final = ⟨Function.update s.memo (G.key frame.visit) (some value), [], out,
        s.emitted ++ [frame.visit]⟩ := by
  unfold step at h
  split at h
  · cases h
  · rename_i frame below hstack
    split at h
    · rename_i hpending
      unfold finish at h
      split at h
      · cases h
      · rename_i value out hemit
        split at h
        · cases h
          exact ⟨frame, out, hstack, hpending, hemit, rfl⟩
        · cases h
        · cases h
    · cases h
    · unfold take at h
      split at h
      · cases h
      · split at h <;> cases h

theorem step_failed {s : State V K N τ σ} {error : ε} (h : step G emit s = .failed error) :
    ∃ v finished out, emit v finished out = .error error := by
  unfold step at h
  split at h
  · cases h
  · rename_i frame below hstack
    split at h
    · unfold finish at h
      split at h
      · rename_i error' hemit
        cases h
        exact ⟨frame.visit, frame.finished, s.out, hemit⟩
      · split at h <;> cases h
    · cases h
    · unfold take at h
      split at h
      · cases h
      · split at h <;> cases h

theorem step_cycle {s : State V K N τ σ} {visit : V} (h : step G emit s = .cycle visit) :
    ∃ frame below name pending, s.stack = frame :: below ∧
      frame.pending = (name, some visit) :: pending ∧ s.memo (G.key visit) = none ∧
      G.place visit ∈ path G s.stack := by
  unfold step at h
  split at h
  · cases h
  · rename_i frame below hstack
    split at h
    · unfold finish at h
      split at h
      · cases h
      · split at h <;> cases h
    · cases h
    · rename_i name child pending hpending
      unfold take at h
      split at h
      · cases h
      · rename_i hmemo
        split at h
        · rename_i hplace
          cases h
          exact ⟨frame, below, name, pending, hstack, hpending, hmemo, hplace⟩
        · cases h

end Walk

/-! ## What holds of the stack

`R` says when a value stands for a visit. -/

section Stacked

variable (G : Graph V K P N) (R : V → τ → Prop) (root : V)

/-- A frame between the children it has copied and those it still has to, with `current` the
one that is being copied above it. -/
def FrameAt (current : List (N × Option V)) (frame : Frame V N τ) : Prop :=
  ∃ copied, G.children frame.visit = copied ++ current ++ frame.pending ∧
    List.Forall₂ (fun c t => c.1 = t.1 ∧ R c.2 t.2) (Graph.keptOf copied) frame.finished

/-- A stack, top first: the bottom frame is the root's, and every other frame is at a child of
the one below it. -/
def Stacked : List (N × Option V) → List (Frame V N τ) → Prop
  | _, [] => False
  | current, [frame] => frame.visit = root ∧ frame.name = none ∧ FrameAt G R current frame
  | current, frame :: parent :: rest =>
    ∃ name, frame.name = some name ∧ FrameAt G R current frame ∧
      Stacked [(name, some frame.visit)] (parent :: rest)

variable {G R root} {current : List (N × Option V)} {frame parent : Frame V N τ}
  {below rest : List (Frame V N τ)}

theorem FrameAt.mono {R' : V → τ → Prop} (hR : ∀ v t, R v t → R' v t)
    (h : FrameAt G R current frame) : FrameAt G R' current frame := by
  obtain ⟨copied, hchildren, hall⟩ := h
  exact ⟨copied, hchildren, hall.imp fun _ _ hct => ⟨hct.1, hR _ _ hct.2⟩⟩

theorem Stacked.mono {R' : V → τ → Prop} (hR : ∀ v t, R v t → R' v t)
    {stack : List (Frame V N τ)} (h : Stacked G R root current stack) :
    Stacked G R' root current stack := by
  induction stack generalizing current with
  | nil => exact h
  | cons frame below ih =>
    cases below with
    | nil =>
      obtain ⟨hvisit, hname, hat⟩ := h
      exact ⟨hvisit, hname, hat.mono hR⟩
    | cons parent rest =>
      obtain ⟨name, hname, hat, hbelow⟩ := h
      exact ⟨name, hname, hat.mono hR, ih hbelow⟩

variable (h : Stacked G R root current (frame :: below))

include h in
theorem Stacked.top :
    FrameAt G R current frame := by
  cases below with
  | nil => exact h.2.2
  | cons parent rest =>
    obtain ⟨_, _, hat, _⟩ := h
    exact hat

include h in
/-- The top frame may be exchanged for another of the same visit and name. -/
theorem Stacked.exchange {current' : List (N × Option V)} {frame' : Frame V N τ} (hvisit : frame'.visit = frame.visit)
    (hname : frame'.name = frame.name) (hat : FrameAt G R current' frame') :
    Stacked G R root current' (frame' :: below) := by
  cases below with
  | nil => exact ⟨hvisit.trans h.1, hname.trans h.2.1, hat⟩
  | cons parent rest =>
    obtain ⟨name, hn, _, hbelow⟩ := h
    exact ⟨name, hname.trans hn, hat, hvisit ▸ hbelow⟩

variable {name : N} {pending : List (N × Option V)}

/-- The pending children are children. -/
theorem FrameAt.child (h : FrameAt G R current frame) {child : V}
    (hmem : (name, some child) ∈ frame.pending ∨ (name, some child) ∈ current) :
    G.Child frame.visit child := by
  obtain ⟨copied, hchildren, -⟩ := h
  refine ⟨name, ?_⟩
  rw [hchildren]
  simp only [List.mem_append]
  rcases hmem with hmem | hmem
  · exact .inr hmem
  · exact .inl (.inr hmem)

include h in
theorem Stacked.reach_top :
    ∀ f ∈ frame :: below, G.Reach root f.visit ∧ G.Reach f.visit frame.visit := by
  induction below generalizing frame current with
  | nil =>
    intro f hf
    rw [mem_singleton.mp hf, h.1]
    exact ⟨.refl, .refl⟩
  | cons parent rest ih =>
    obtain ⟨name, _, _, hbelow⟩ := h
    have hchild : G.Child parent.visit frame.visit :=
      hbelow.top.child (.inr (mem_singleton.mpr rfl))
    intro f hf
    rcases mem_cons.mp hf with rfl | hf
    · exact ⟨(ih hbelow parent (mem_cons_self ..)).1.tail hchild, .refl⟩
    · exact ⟨(ih hbelow f hf).1, (ih hbelow f hf).2.tail hchild⟩

include h in
theorem Stacked.root_mem :
    ∃ f ∈ frame :: below, f.visit = root := by
  induction below generalizing frame current with
  | nil => exact ⟨frame, mem_singleton.mpr rfl, h.1⟩
  | cons parent rest ih =>
    obtain ⟨name, _, _, hbelow⟩ := h
    obtain ⟨f, hf, hroot⟩ := ih hbelow
    exact ⟨f, List.mem_cons_of_mem _ hf, hroot⟩

/-- A child that is passed over. -/
theorem FrameAt.skip (h : FrameAt G R [] frame)
    (hpending : frame.pending = (name, none) :: pending) :
    FrameAt G R [] { frame with pending := pending } := by
  obtain ⟨copied, hchildren, hall⟩ := h
  refine ⟨copied ++ [(name, none)], ?_, ?_⟩
  · simpa [hpending] using hchildren
  · simpa [Graph.keptOf_append, Graph.keptOf] using hall

/-- A child that is taken up. -/
theorem FrameAt.take {child : V}
    (h : FrameAt G R [] frame) (hpending : frame.pending = (name, some child) :: pending) :
    FrameAt G R [(name, some child)] { frame with pending := pending } := by
  obtain ⟨copied, hchildren, hall⟩ := h
  exact ⟨copied, by simpa [hpending] using hchildren, hall⟩

/-- A child whose copy is there. -/
theorem FrameAt.attach {child : V} {value : τ}
    (h : FrameAt G R [(name, some child)] frame) (hvalue : R child value) :
    FrameAt G R [] { frame with finished := frame.finished ++ [(name, value)] } := by
  obtain ⟨copied, hchildren, hall⟩ := h
  refine ⟨copied ++ [(name, some child)], by simpa using hchildren, ?_⟩
  rw [Graph.keptOf_append]
  exact List.rel_append hall (.cons ⟨rfl, hvalue⟩ .nil)

/-- All children of a frame without pending ones have been copied. -/
theorem FrameAt.finished (h : FrameAt G R [] frame) (hpending : frame.pending = []) :
    List.Forall₂ (fun c t => c.1 = t.1 ∧ R c.2 t.2) (G.kept frame.visit) frame.finished := by
  obtain ⟨copied, hchildren, hall⟩ := h
  rw [hpending, List.append_nil, List.append_nil] at hchildren
  rwa [Graph.kept, hchildren]

theorem FrameAt.start (v : V) (name : Option N) :
    FrameAt G R [] (⟨v, name, G.children v, []⟩ : Frame V N τ) :=
  ⟨[], rfl, .nil⟩

end Stacked

/-! ## What holds along a walk -/

section Walking

variable (G : Graph V K P N) (R : V → τ → Prop) (root : V)

/-- The invariant of the loop. -/
structure Walking (s : State V K N τ σ) : Prop where
  stacked : Stacked G R root [] s.stack
  nodup_path : (path G s.stack).Nodup
  /-- A visit on the stack has not been emitted. -/
  fresh : ∀ frame ∈ s.stack, s.memo (G.key frame.visit) = none
  memo_isSome : ∀ k, (s.memo k).isSome ↔ k ∈ s.emitted.map G.key
  nodup_keys : (s.emitted.map G.key).Nodup
  emitted : ∀ v ∈ s.emitted, G.Reach root v ∧ G.place v ≠ G.place root
  /-- What the memo holds stands for every visit it serves. -/
  served : ∀ v value, G.Reach root v → G.place v ≠ G.place root →
    s.memo (G.key v) = some value → R v value

theorem walking_start (out : σ) : Walking G R root (start G root out) where
  stacked := ⟨rfl, rfl, .start root none⟩
  nodup_path := List.nodup_singleton _
  fresh := fun _ _ => rfl
  memo_isSome := fun _ => by simp [start]
  nodup_keys := List.nodup_nil
  emitted := fun _ hv => by cases hv
  served := fun _ _ _ _ hmemo => by cases hmemo

variable {G R root} {emit : V → List (N × τ) → σ → Except ε (τ × σ)} {s next : State V K N τ σ}
  {frame : Frame V N τ} {below : List (Frame V N τ)}

namespace Walking

section

variable (h : Walking G R root s) (hstack : s.stack = frame :: below)
include h hstack

theorem stacked_cons :
    Stacked G R root [] (frame :: below) := hstack ▸ h.stacked

theorem reach_frame :
    G.Reach root frame.visit :=
  ((h.stacked_cons hstack).reach_top frame (mem_cons_self ..)).1

theorem reach_pending {name : N} {child : V} {pending : List (N × Option V)}
    (hpending : frame.pending = (name, some child) :: pending) : G.Reach root child :=
  (h.reach_frame hstack).tail
    ((h.stacked_cons hstack).top.child (.inl (hpending ▸ mem_cons_self ..)))

end

variable {v : V}

variable {value : τ} {R' : V → τ → Prop}

section

variable (h : Walking G R root s)
include h

/-- The memo never holds the root's place. -/
theorem place_ne_root (hmemo : s.memo (G.key v) = some value) : G.place v ≠ G.place root := by
  have hmem : G.key v ∈ s.emitted.map G.key := (h.memo_isSome _).mp (by rw [hmemo]; rfl)
  obtain ⟨w, hw, hkey⟩ := mem_map.mp hmem
  rw [← G.place_of_key hkey]
  exact (h.emitted w hw).2

/-- A frame above another is not at the root's place. -/
theorem top_ne_root {parent : Frame V N τ}
    {rest : List (Frame V N τ)} (hstack : s.stack = frame :: parent :: rest) :
    G.place frame.visit ≠ G.place root := by
  obtain ⟨_, _, _, hbelow⟩ := h.stacked_cons hstack
  obtain ⟨f, hf, hroot⟩ := hbelow.root_mem
  have hnodup := h.nodup_path
  rw [hstack, path, map_cons, List.nodup_cons] at hnodup
  intro heq
  exact hnodup.1 (mem_map.mpr ⟨f, hf, by rw [hroot, heq]⟩)

theorem key_ne_of_mem_below (hstack : s.stack = frame :: below)
    {f : Frame V N τ} (hf : f ∈ below) : G.key f.visit ≠ G.key frame.visit := by
  have hnodup := h.nodup_path
  rw [hstack, path, map_cons, List.nodup_cons] at hnodup
  intro hkey
  exact hnodup.1 (mem_map.mpr ⟨f, hf, G.place_of_key hkey⟩)

/-- The stack changes while the memo and the emissions stay. -/
theorem restack (hR : ∀ v t, R v t → R' v t)
    {stack : List (Frame V N τ)} (hstacked : Stacked G R root [] stack)
    (hnodup : (path G stack).Nodup) (hfresh : ∀ frame ∈ stack, s.memo (G.key frame.visit) = none) :
    Walking G R' root { s with stack := stack } where
  stacked := hstacked.mono hR
  nodup_path := hnodup
  fresh := hfresh
  memo_isSome := h.memo_isSome
  nodup_keys := h.nodup_keys
  emitted := h.emitted
  served := fun v value hreach hplace hmemo => hR _ _ (h.served v value hreach hplace hmemo)

/-- The top frame is exchanged for another of its visit. -/
theorem exchange (hR : ∀ v t, R v t → R' v t)
    (hstack : s.stack = frame :: below) {frame' : Frame V N τ}
    (hvisit : frame'.visit = frame.visit) (hname : frame'.name = frame.name)
    (hat : FrameAt G R [] frame') : Walking G R' root { s with stack := frame' :: below } := by
  have hnodup := h.nodup_path
  have hfresh := h.fresh
  rw [hstack] at hnodup hfresh
  refine h.restack hR ((h.stacked_cons hstack).exchange hvisit hname hat) ?_ ?_
  · simpa [path, hvisit] using hnodup
  · intro f hf
    rcases mem_cons.mp hf with rfl | hf
    · rw [hvisit]
      exact hfresh frame (mem_cons_self ..)
    · exact hfresh f (List.mem_cons_of_mem _ hf)

end

theorem push {R' : V → τ → Prop} (h : Walking G R root s) (hR : ∀ v t, R v t → R' v t)
    (hstack : s.stack = frame :: below) {name : N} {child : V} {pending : List (N × Option V)}
    (hpending : frame.pending = (name, some child) :: pending)
    (hmemo : s.memo (G.key child) = none) (hplace : G.place child ∉ path G s.stack) :
    Walking G R' root { s with stack := ⟨child, some name, G.children child, []⟩ ::
      { frame with pending := pending } :: below } := by
  have hnodup := h.nodup_path
  have hfresh := h.fresh
  rw [hstack] at hnodup hfresh hplace
  have hbelow : Stacked G R root [(name, some child)] ({ frame with pending := pending } :: below) :=
    (h.stacked_cons hstack).exchange rfl rfl ((h.stacked_cons hstack).top.take hpending)
  refine h.restack hR ⟨name, rfl, .start child (some name), hbelow⟩ ?_ ?_
  · exact List.nodup_cons.mpr ⟨hplace, hnodup⟩
  · intro f hf
    rcases mem_cons.mp hf with rfl | hf
    · exact hmemo
    rcases mem_cons.mp hf with rfl | hf
    · exact hfresh frame (mem_cons_self ..)
    · exact hfresh f (List.mem_cons_of_mem _ hf)

theorem nodup_keys_append (h : Walking G R root s) (hfresh : s.memo (G.key v) = none) :
    ((s.emitted ++ [v]).map G.key).Nodup := by
  rw [map_append, List.map_singleton]
  refine List.Nodup.append h.nodup_keys (List.nodup_singleton _) ?_
  intro k hk hv
  rw [mem_singleton] at hv
  subst hv
  have hsome := (h.memo_isSome _).mpr hk
  rw [hfresh] at hsome
  cases hsome

variable [DecidableEq K] [DecidableEq P]

omit [DecidableEq P] in
theorem memo_update_isSome (h : Walking G R root s) (v : V) (value : τ) (k : K) :
    (Function.update s.memo (G.key v) (some value) k).isSome ↔
      k ∈ (s.emitted ++ [v]).map G.key := by
  rw [map_append, List.mem_append]
  by_cases hk : k = G.key v
  · subst hk
    simp
  · rw [Function.update_of_ne hk, h.memo_isSome k]
    simp [hk]

omit [DecidableEq P] in
theorem pop (h : Walking G R root s) (hR : ∀ v t, R v t → R' v t)
    {parent : Frame V N τ} {rest : List (Frame V N τ)} (hstack : s.stack = frame :: parent :: rest)
    {name : N} (hname : frame.name = some name) {out : σ}
    (hnew : ∀ w, G.Reach root w → G.key w = G.key frame.visit → R' w value) :
    Walking G R' root ⟨Function.update s.memo (G.key frame.visit) (some value),
      { parent with finished := parent.finished ++ [(name, value)] } :: rest, out,
      s.emitted ++ [frame.visit]⟩ := by
  obtain ⟨name', hname', _, hbelow⟩ := h.stacked_cons hstack
  obtain rfl : name = name' := by
    rw [hname] at hname'
    exact Option.some.inj hname'
  have hreach := h.reach_frame hstack
  have hfresh := h.fresh frame (hstack ▸ mem_cons_self ..)
  have hnodup := h.nodup_path
  rw [hstack, path, map_cons, List.nodup_cons] at hnodup
  have hbelow' := hbelow.mono hR
  refine ⟨hbelow'.exchange rfl rfl (hbelow'.top.attach (hnew _ hreach rfl)), ?_, ?_,
    h.memo_update_isSome frame.visit value, h.nodup_keys_append hfresh, ?_, ?_⟩
  · simpa [path] using hnodup.2
  · -- the frames that stay have other keys than the one that went
    have hstay : ∀ f ∈ parent :: rest,
        Function.update s.memo (G.key frame.visit) (some value) (G.key f.visit) = none := by
      intro f hf
      rw [Function.update_of_ne (h.key_ne_of_mem_below hstack hf)]
      exact h.fresh f (hstack ▸ List.mem_cons_of_mem _ hf)
    intro f hf
    rcases mem_cons.mp hf with rfl | hf
    · exact hstay parent (mem_cons_self ..)
    · exact hstay f (List.mem_cons_of_mem _ hf)
  · intro v hv
    rcases List.mem_append.mp hv with hv | hv
    · exact h.emitted v hv
    · rw [mem_singleton.mp hv]
      exact ⟨hreach, h.top_ne_root hstack⟩
  · intro v value' hv hplace hmemo
    by_cases hkey : G.key v = G.key frame.visit
    · dsimp only at hmemo
      rw [hkey, Function.update_self] at hmemo
      cases hmemo
      exact hnew v hv hkey
    · dsimp only at hmemo
      rw [Function.update_of_ne hkey] at hmemo
      exact hR _ _ (h.served v value' hv hplace hmemo)

/-- A round keeps the invariant, for whatever `R'` the emission of the round provides. -/
theorem step {R' : V → τ → Prop} (h : Walking G R root s) (hstep : step G emit s = .more next)
    (hR : ∀ v t, R v t → R' v t) (hnew : ∀ (frame : Frame V N τ) (value : τ) (out : σ),
      G.Reach root frame.visit → G.place frame.visit ≠ G.place root →
      List.Forall₂ (fun c t => c.1 = t.1 ∧ R c.2 t.2) (G.kept frame.visit) frame.finished →
      emit frame.visit frame.finished s.out = .ok (value, out) →
      next.out = out → next.emitted = s.emitted ++ [frame.visit] →
      ∀ w, G.Reach root w → G.key w = G.key frame.visit → R' w value) :
    Walking G R' root next := by
  obtain ⟨frame, below, hstack, hcase⟩ := step_more G emit hstep
  have htop := (h.stacked_cons hstack).top
  rcases hcase with ⟨name, pending, hpending, rfl⟩ |
    ⟨name, child, pending, value, hpending, hmemo, rfl⟩ |
    ⟨name, child, pending, hpending, hmemo, hplace, rfl⟩ |
    ⟨parent, rest, name, value, out, hpending, rfl, hname, hemit, rfl⟩
  · exact h.exchange hR hstack rfl rfl (htop.skip hpending)
  · have hvalue := h.served child value (h.reach_pending hstack hpending)
      (h.place_ne_root hmemo) hmemo
    exact h.exchange hR hstack rfl rfl ((htop.take hpending).attach hvalue)
  · exact h.push hR hstack hpending hmemo hplace
  · exact h.pop hR hstack hname (hnew frame value out (h.reach_frame hstack)
      (h.top_ne_root hstack) (htop.finished hpending) hemit rfl rfl)

theorem cyclic (h : Walking G R root s) (hstep : MemoWalk.step G emit s = .cycle v) :
    G.Cyclic root := by
  obtain ⟨frame, below, name, pending, hstack, hpending, -, hplace⟩ := step_cycle G emit hstep
  rw [hstack] at hplace
  obtain ⟨f, hf, heq⟩ := mem_map.mp hplace
  have hstacked := h.stacked_cons hstack
  obtain ⟨hroot, htop⟩ := hstacked.reach_top f hf
  have hchild := hstacked.top.child (.inl (hpending ▸ mem_cons_self ..))
  exact ⟨f.visit, v, hroot, .tail' htop hchild, heq⟩

/-- What the walk has emitted when it returns: no key twice, and only what it can reach. -/
theorem emitted_of_returned (h : Walking G R root s) {final : State V K N τ σ}
    (hstep : MemoWalk.step G emit s = .returned value final) :
    final.stack = [] ∧ (final.emitted.map G.key).Nodup ∧
      (∀ v ∈ final.emitted, G.Reach root v) ∧
      ∀ k, (final.memo k).isSome ↔ k ∈ final.emitted.map G.key := by
  obtain ⟨frame, out, hstack, -, -, rfl⟩ := step_returned G emit hstep
  refine ⟨rfl, h.nodup_keys_append (h.fresh frame (hstack ▸ mem_cons_self ..)), ?_,
    h.memo_update_isSome frame.visit value⟩
  intro v hv
  rcases List.mem_append.mp hv with hv | hv
  · exact (h.emitted v hv).1
  · rw [mem_singleton.mp hv]
    exact h.reach_frame hstack

end Walking

end Walking

/-! ## Runs -/

section Runs

variable [DecidableEq K] [DecidableEq P] {G : Graph V K P N} {root : V}
  {emit : V → List (N × τ) → σ → Except ε (τ × σ)}

variable {I : State V K N τ σ → Prop}

section

variable (hI : ∀ s next, I s → step G emit s = .more next → I next) {s : State V K N τ σ}
include hI

/-- A run of rounds that keep an invariant ends in such a state, or with the last round of
one. -/
theorem run_cases (n : Nat) (h : I s) :
    (∃ s', run G emit n s = .more s' ∧ I s') ∨
      ∃ s', I s' ∧ run G emit n s = step G emit s' ∧ (step G emit s').Final := by
  induction n generalizing s with
  | zero => exact .inl ⟨s, rfl, h⟩
  | succ n ih =>
    cases hstep : step G emit s with
    | more next =>
      have hrun : run G emit (n + 1) s = run G emit n next := by rw [run, hstep]
      rw [hrun]
      exact ih (hI s next h hstep)
    | returned _ _ => exact .inr ⟨s, h, by rw [run, hstep], by rw [hstep]; trivial⟩
    | cycle _ => exact .inr ⟨s, h, by rw [run, hstep], by rw [hstep]; trivial⟩
    | failed _ => exact .inr ⟨s, h, by rw [run, hstep], by rw [hstep]; trivial⟩
    | stuck => exact .inr ⟨s, h, by rw [run, hstep], by rw [hstep]; trivial⟩

/-- The last round of a run that ended, in a state of the invariant. -/
theorem exists_last_round {n : Nat} (h : I s) (hfinal : (run G emit n s).Final) :
    ∃ s', I s' ∧ run G emit n s = step G emit s' := by
  rcases run_cases hI n h with ⟨s', hrun, -⟩ | ⟨s', hs', hrun, -⟩
  · rw [hrun] at hfinal
    exact hfinal.elim
  · exact ⟨s', hs', hrun⟩

end

/-- The invariant without a word on the values. -/
abbrev Underway (G : Graph V K P N) (root : V) (s : State V K N τ σ) : Prop :=
  Walking G (fun _ _ => True) root s

theorem Underway.step {s next : State V K N τ σ} (h : Underway G root s)
    (hstep : step G emit s = .more next) : Underway G root next :=
  Walking.step h hstep (fun _ _ _ => trivial) (fun _ _ _ _ _ _ _ _ _ _ _ _ => trivial)

/-! ### The end of a run -/

section Ends

open Classical

variable (G) (visits : Finset V)

/-- The visits that are neither emitted nor on the stack. -/
noncomputable def untouched (s : State V K N τ σ) : Finset V :=
  visits.filter fun v => s.memo (G.key v) = none ∧ v ∉ s.stack.map Frame.visit

/-- What is left to do: two rounds and the children of every visit that was not touched, and
the rest of every frame. -/
noncomputable def remaining (s : State V K N τ σ) : Nat :=
  ∑ v ∈ untouched G visits s, ((G.children v).length + 2) +
    (s.stack.map fun frame => frame.pending.length + 1).sum

variable {G visits}

variable {stack : List (Frame V N τ)}

omit [DecidableEq P] [DecidableEq K] in
theorem untouched_restack {s : State V K N τ σ}
    (hvisits : stack.map Frame.visit = s.stack.map Frame.visit) :
    untouched G visits { s with stack := stack } = untouched G visits s := by
  unfold untouched
  simp only [hvisits]

variable (G visits) in
omit [DecidableEq P] in
/-- Emitting the top frame touches nothing new. -/
theorem untouched_pop {s : State V K N τ σ} {v : V}
    (hstack : s.stack.map Frame.visit = v :: stack.map Frame.visit) (value : τ) (out : σ)
    (emitted : List V) :
    untouched G visits ⟨Function.update s.memo (G.key v) (some value), stack, out, emitted⟩ ⊆
      untouched G visits s := by
  intro w hw
  simp only [untouched, Finset.mem_filter] at hw ⊢
  obtain ⟨hmem, hmemo, hnot⟩ := hw
  have hkey : G.key w ≠ G.key v := by
    intro hkey
    rw [hkey, Function.update_self] at hmemo
    cases hmemo
  rw [Function.update_of_ne hkey] at hmemo
  refine ⟨hmem, hmemo, ?_⟩
  rw [hstack, mem_cons, not_or]
  exact ⟨fun heq => hkey (congrArg G.key heq), hnot⟩

omit [DecidableEq P] [DecidableEq K] in
theorem untouched_push {s : State V K N τ σ} {child : V}
    (hstack : stack.map Frame.visit = child :: s.stack.map Frame.visit) (hmem : child ∈ visits)
    (hmemo : s.memo (G.key child) = none) (hplace : G.place child ∉ path G s.stack) :
    untouched G visits s = insert child (untouched G visits { s with stack := stack }) ∧
    child ∉ untouched G visits { s with stack := stack } := by
  have hnot : child ∉ s.stack.map Frame.visit := by
    intro hin
    obtain ⟨f, hf, rfl⟩ := mem_map.mp hin
    exact hplace (mem_map.mpr ⟨f, hf, rfl⟩)
  constructor
  · ext v
    simp only [untouched, Finset.mem_filter, Finset.mem_insert, hstack, mem_cons, not_or]
    by_cases hv : v = child
    · subst hv
      exact ⟨fun _ => .inl rfl, fun _ => ⟨hmem, hmemo, hnot⟩⟩
    · constructor
      · rintro ⟨hin, hnone, hout⟩
        exact .inr ⟨hin, hnone, hv, hout⟩
      · rintro (heq | ⟨hin, hnone, -, hout⟩)
        · exact (hv heq).elim
        · exact ⟨hin, hnone, hout⟩
  · simp [untouched, hstack]

/-- Every round leaves less to do. -/
theorem remaining_lt {s next : State V K N τ σ} (h : Underway G root s)
    (hvisits : ∀ v, G.Reach root v → v ∈ visits) (hstep : step G emit s = .more next) :
    remaining G visits next < remaining G visits s := by
  obtain ⟨frame, below, hstack, hcase⟩ := step_more G emit hstep
  rcases hcase with ⟨name, pending, hpending, rfl⟩ |
    ⟨name, child, pending, value, hpending, hmemo, rfl⟩ |
    ⟨name, child, pending, hpending, hmemo, hplace, rfl⟩ |
    ⟨parent, rest, name, value, out, hpending, rfl, hname, hemit, rfl⟩
  · unfold remaining
    rw [untouched_restack (by rw [hstack]; rfl)]
    simp only [hstack, map_cons, List.sum_cons, hpending, List.length_cons]
    omega
  · unfold remaining
    rw [untouched_restack (by rw [hstack]; rfl)]
    simp only [hstack, map_cons, List.sum_cons, hpending, List.length_cons]
    omega
  · have hchild : child ∈ visits := hvisits child (h.reach_pending hstack hpending)
    have hpushed : (⟨child, some name, G.children child, []⟩ ::
        { frame with pending := pending } :: below : List (Frame V N τ)).map Frame.visit =
        child :: s.stack.map Frame.visit := by
      rw [hstack]
      rfl
    obtain ⟨hinsert, hnot⟩ := untouched_push hpushed hchild hmemo hplace
    unfold remaining
    rw [hinsert, Finset.sum_insert hnot]
    simp only [hstack, map_cons, List.sum_cons, hpending, List.length_cons]
    omega
  · have hpopped : s.stack.map Frame.visit = frame.visit ::
        ({ parent with finished := parent.finished ++ [(name, value)] } :: rest).map
          Frame.visit := by
      rw [hstack]
      rfl
    have hsum := Finset.sum_le_sum_of_subset (f := fun v => (G.children v).length + 2)
      (untouched_pop G visits hpopped value out (s.emitted ++ [frame.visit]))
    unfold remaining
    simp only [hstack, map_cons, List.sum_cons, hpending, List.length_nil]
    omega

/-- On finitely many visits the walk ends. -/
theorem exists_run_final (hvisits : ∀ v, G.Reach root v → v ∈ visits) {s : State V K N τ σ}
    (h : Underway G root s) : ∃ n, (run G emit n s).Final := by
  induction hr : remaining G visits s using Nat.strong_induction_on generalizing s with
  | _ r ih =>
    cases hstep : step G emit s with
    | more next =>
      have hlt := remaining_lt h hvisits hstep
      rw [hr] at hlt
      obtain ⟨n, hn⟩ := ih _ hlt (h.step hstep) rfl
      refine ⟨n + 1, ?_⟩
      have hrun : run G emit (n + 1) s = run G emit n next := by rw [run, hstep]
      rwa [hrun]
    | returned _ _ => exact ⟨1, by rw [run, hstep]; trivial⟩
    | cycle _ => exact ⟨1, by rw [run, hstep]; trivial⟩
    | failed _ => exact ⟨1, by rw [run, hstep]; trivial⟩
    | stuck => exact ⟨1, by rw [run, hstep]; trivial⟩

end Ends

end Runs

/-! ## What the walk returns -/

section Values

variable (G : Graph V K P N) (root : V) (Good : σ → Prop) (Rep : σ → τ → Tree P N → Prop)

/-- A value that stands for the tree of a visit, all of whose places have been emitted. -/
def Stands (s : State V K N τ σ) (v : V) (value : τ) : Prop :=
  ∃ x, G.Unfolds v x ∧ Rep s.out value x ∧ x.All (· ∈ s.emitted.map G.place)

/-- What an emission promises: from values that stand for the children's trees, one that stands
for the visit's, with the older ones still standing. -/
structure EmitSpec (emit : V → List (N × τ) → σ → Except ε (τ × σ)) : Prop where
  spec : ∀ {v finished trees out value out'}, G.Reach root v → Good out →
    G.Unfolds v (.node (G.place v) trees) →
    List.Forall₂ (fun t x => t.1 = x.1 ∧ Rep out t.2 x.2) finished trees →
    emit v finished out = .ok (value, out') →
    Good out' ∧ Rep out' value (.node (G.place v) trees) ∧ ∀ t x, Rep out t x → Rep out' t x

variable {G root Good Rep}

theorem exists_trees {s : State V K N τ σ} {children : List (N × V)} {finished : List (N × τ)}
    (h : List.Forall₂ (fun c t => c.1 = t.1 ∧ Stands G Rep s c.2 t.2) children finished) :
    ∃ trees : List (N × Tree P N),
      List.Forall₂ (fun c x => c.1 = x.1 ∧ G.Unfolds c.2 x.2) children trees ∧
      List.Forall₂ (fun t x => t.1 = x.1 ∧ Rep s.out t.2 x.2) finished trees ∧
      ∀ child ∈ trees, child.2.All (· ∈ s.emitted.map G.place) := by
  induction h with
  | nil => exact ⟨[], .nil, .nil, fun _ hx => by cases hx⟩
  | cons hct _ ih =>
    obtain ⟨trees, hchildren, hfinished, hall⟩ := ih
    obtain ⟨hname, x, hunfolds, hrep, hx⟩ := hct
    refine ⟨(_, x) :: trees, .cons ⟨rfl, hunfolds⟩ hchildren,
      .cons ⟨hname.symm, hrep⟩ hfinished, ?_⟩
    intro child hchild
    rcases mem_cons.mp hchild with rfl | hchild
    · exact hx
    · exact hall child hchild

variable [DecidableEq K] [DecidableEq P] {emit : V → List (N × τ) → σ → Except ε (τ × σ)}

variable (G root Good Rep) in
/-- The invariant of the loop with what the values stand for. -/
structure Valued (s : State V K N τ σ) : Prop where
  walking : Walking G (Stands G Rep s) root s
  good : Good s.out

omit [DecidableEq K] [DecidableEq P] in
theorem valued_start {out : σ} (hgood : Good out) : Valued G root Good Rep (start G root out) :=
  ⟨walking_start G _ root out, hgood⟩

variable {value : τ} {final : State V K N τ σ}

omit [DecidableEq K] [DecidableEq P] in
/-- The tree of a visit that is emitted. -/
theorem EmitSpec.trees (hemits : EmitSpec G root Good Rep emit) {s : State V K N τ σ}
    (hgood : Good s.out) {v : V} {finished : List (N × τ)} {out : σ} (hreach : G.Reach root v)
    (hfinished : List.Forall₂ (fun c t => c.1 = t.1 ∧ Stands G Rep s c.2 t.2) (G.kept v) finished)
    (hemit : emit v finished s.out = .ok (value, out)) :
    ∃ trees : List (N × Tree P N),
      (∀ child ∈ trees, child.2.All (· ∈ s.emitted.map G.place)) ∧
      G.Unfolds v (.node (G.place v) trees) ∧ Rep out value (.node (G.place v) trees) ∧
      Good out ∧ ∀ t x, Rep s.out t x → Rep out t x := by
  obtain ⟨trees, hchildren, hvalues, hall⟩ := exists_trees hfinished
  have hunfolds : G.Unfolds v (.node (G.place v) trees) := unfolds_iff.mpr ⟨trees, rfl, hchildren⟩
  obtain ⟨hgood', hrep, hmono⟩ := hemits.spec hreach hgood hunfolds hvalues hemit
  exact ⟨trees, hall, hunfolds, hrep, hgood', hmono⟩

theorem Valued.step (hcoherent : G.Coherent root) (hemits : EmitSpec G root Good Rep emit)
    {s next : State V K N τ σ} (h : Valued G root Good Rep s)
    (hstep : step G emit s = .more next) : Valued G root Good Rep next := by
  -- either nothing was written, or one visit was emitted
  have hout : (next.out = s.out ∧ next.emitted = s.emitted) ∨
      (Good next.out ∧ (∀ t x, Rep s.out t x → Rep next.out t x) ∧
        ∃ v, next.emitted = s.emitted ++ [v]) := by
    obtain ⟨frame, below, hstack, hcase⟩ := step_more G emit hstep
    rcases hcase with ⟨name, pending, hpending, rfl⟩ |
      ⟨name, child, pending, value, hpending, hmemo, rfl⟩ |
      ⟨name, child, pending, hpending, hmemo, hplace, rfl⟩ |
      ⟨parent, rest, name, value, out, hpending, rfl, hname, hemit, rfl⟩
    · exact .inl ⟨rfl, rfl⟩
    · exact .inl ⟨rfl, rfl⟩
    · exact .inl ⟨rfl, rfl⟩
    · obtain ⟨_, _, _, _, hgood, hmono⟩ := hemits.trees h.good (h.walking.reach_frame hstack)
        ((h.walking.stacked_cons hstack).top.finished hpending) hemit
      exact .inr ⟨hgood, hmono, frame.visit, rfl⟩
  have hgood : Good next.out := by
    rcases hout with ⟨hout, -⟩ | ⟨hgood, -⟩
    · rw [hout]
      exact h.good
    · exact hgood
  have hstands : ∀ v t, Stands G Rep s v t → Stands G Rep next v t := by
    rintro v t ⟨x, hunfolds, hrep, hall⟩
    rcases hout with ⟨hout, hemitted⟩ | ⟨-, hmono, w, hemitted⟩
    · exact ⟨x, hunfolds, hout ▸ hrep, hemitted ▸ hall⟩
    · refine ⟨x, hunfolds, hmono t x hrep, hall.imp fun a ha => ?_⟩
      rw [hemitted, map_append]
      exact List.mem_append_left _ ha
  refine ⟨h.walking.step hstep hstands ?_, hgood⟩
  intro frame value out hreach hplace hfinished hemit hnext hemitted w hw hkey
  obtain ⟨trees, hall, hunfolds, hrep, -⟩ := hemits.trees h.good hreach hfinished hemit
  refine ⟨_, hcoherent _ w _ hreach hw hplace hkey.symm hunfolds, hnext ▸ hrep, ?_⟩
  refine .node _ _ ?_ ?_
  · rw [hemitted, map_append]
    exact List.mem_append_right _ (mem_singleton.mpr rfl)
  · intro child hchild
    refine (hall child hchild).imp fun a ha => ?_
    rw [hemitted, map_append]
    exact List.mem_append_left _ ha

/-- What a walk has when it returns: a value for the tree of the root, all of whose places have
been emitted, those below the root before it. -/
theorem Valued.returned (hemits : EmitSpec G root Good Rep emit) {s final : State V K N τ σ}
    (h : Valued G root Good Rep s) {value : τ}
    (hstep : MemoWalk.step G emit s = .returned value final) :
    ∃ trees, G.Unfolds root (.node (G.place root) trees) ∧
      Rep final.out value (.node (G.place root) trees) ∧ Good final.out ∧
      final.emitted = s.emitted ++ [root] ∧
      ∀ child ∈ trees, child.2.All (· ∈ s.emitted.map G.place) := by
  obtain ⟨frame, out, hstack, hpending, hemit, rfl⟩ := step_returned G emit hstep
  have hstacked := h.walking.stacked_cons hstack
  have hroot : frame.visit = root := hstacked.1
  rw [hroot] at hemit
  have hfinished := hstacked.top.finished hpending
  rw [hroot] at hfinished
  obtain ⟨trees, hall, hunfolds, hrep, hgood, -⟩ := hemits.trees h.good .refl hfinished hemit
  exact ⟨trees, hunfolds, hrep, hgood, by rw [hroot], hall⟩

section

variable (hemits : EmitSpec G root Good Rep emit) {s : State V K N τ σ}
  (h : Valued G root Good Rep s) (hstep : MemoWalk.step G emit s = .returned value final)
include hemits h hstep

/-- Every place that can be reached has been emitted when the walk returns. -/
theorem Valued.emitted_of_reach {v : V} (hv : G.Reach root v) :
    G.place v ∈ final.emitted.map G.place := by
  obtain ⟨trees, hunfolds, -, -, hemitted, hall⟩ := h.returned hemits hstep
  refine hunfolds.all_reach (.node _ _ ?_ ?_) hv
  · rw [hemitted, map_append]
    exact List.mem_append_right _ (mem_singleton.mpr rfl)
  · intro child hchild
    refine (hall child hchild).imp fun a ha => ?_
    rw [hemitted, map_append]
    exact List.mem_append_left _ ha

/-- The root's place is not below the root when the walk returns. -/
theorem Valued.place_ne_root {w : V}
    (hw : Relation.TransGen G.Child root w) : G.place w ≠ G.place root := by
  obtain ⟨trees, hunfolds, -, -, -, hall⟩ := h.returned hemits hstep
  obtain ⟨c, hc, hcw⟩ := Relation.TransGen.head'_iff.mp hw
  obtain ⟨child, hchild, hunfolds'⟩ := hunfolds.exists_child hc
  obtain ⟨v, hv, heq⟩ := mem_map.mp (hunfolds'.all_reach (hall child hchild) hcw)
  rw [← heq]
  exact (h.walking.emitted v hv).2

end

variable (G root) in
/-- A place that is reached from itself has the same key both times. -/
def Graph.KeyedOnPaths : Prop :=
  ∀ v w, G.Reach root v → Relation.TransGen G.Child v w → G.place v = G.place w →
    G.place v ≠ G.place root → G.key v = G.key w

/-- The walk does not return from a graph with a cycle: a place that is reached from itself
would have to stand for a tree and for a smaller one. -/
theorem Valued.not_cyclic (hcoherent : G.Coherent root) (hkeyed : G.KeyedOnPaths root)
    (hemits : EmitSpec G root Good Rep emit) {s : State V K N τ σ} (h : Valued G root Good Rep s)
    (hstep : MemoWalk.step G emit s = .returned value final) : ¬G.Cyclic root := by
  rintro ⟨v, w, hv, hvw, hplace⟩
  by_cases hroot : G.place v = G.place root
  · exact h.place_ne_root hemits hstep (.trans_right hv hvw) (hplace.symm.trans hroot)
  · obtain ⟨trees, hunfolds, -⟩ := h.returned hemits hstep
    have hx : ∃ x, G.Unfolds v x := by
      rcases Relation.reflTransGen_iff_eq_or_transGen.mp hv with rfl | hrv
      · exact ⟨_, hunfolds⟩
      · obtain ⟨x, hx, -⟩ := hunfolds.transGen hrv
        exact ⟨x, hx⟩
    obtain ⟨x, hx⟩ := hx
    obtain ⟨y, hy, hlt⟩ := hx.transGen hvw
    have hw : G.Reach root w := hv.trans hvw.to_reflTransGen
    have heq : x = y :=
      (hcoherent v w x hv hw hroot (hkeyed v w hv hvw hplace hroot) hx).unique hy
    exact absurd hlt (heq ▸ Nat.lt_irrefl _)

end Values

end MemoWalk
