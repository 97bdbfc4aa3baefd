import Mathlib.Data.Fintype.EquivFin
import Mathlib.Data.Finset.Card

/-!
# Unfolding a graph into a tree

A graph whose nodes list their children unfolds from a node into a tree: a node that is
reached along two paths stands in the tree twice.  `Preorder` is the preorder of the
unfolding, up to the place where it halts: at a node that is its own ancestor, or at one
whose children cannot be read.  Over finitely many nodes there is one from every node
(`exists_preorder`).
-/

namespace Unfolding

variable {ν κ π ε : Type}

/-- A node of the unfolding, with the path and the depth at which it stands. -/
structure Visit (ν π : Type) where
  path : π
  node : ν
  depth : Nat

/-- Where an unfolding halts. -/
inductive Halt (ν ε : Type)
  /-- The node is its own ancestor. -/
  | cycle (node : ν)
  /-- The children of a node cannot be read. -/
  | unread (error : ε)

section

variable (children : ν → Except ε (List (κ × ν))) (extend : π → κ → π) (descends : Nat → Bool)

/-- The preorder of the subtrees of some nodes, in their order, below some ancestors. -/
inductive Preorder :
    List ν → π → Nat → List (κ × ν) → List (Visit ν π) → Option (Halt ν ε) → Prop
  | nil {ancestors path depth} : Preorder ancestors path depth [] [] none
  | cycle {ancestors path depth name node rest} (hmem : node ∈ ancestors) :
      Preorder ancestors path depth ((name, node) :: rest) [] (some (.cycle node))
  | unread {ancestors path depth name node rest error} (hfresh : node ∉ ancestors)
      (hdescends : descends depth = true) (hchildren : children node = .error error) :
      Preorder ancestors path depth ((name, node) :: rest) [] (some (.unread error))
  | leaf {ancestors path depth name node rest visits halt} (hfresh : node ∉ ancestors)
      (hdescends : descends depth = false)
      (hrest : Preorder ancestors path depth rest visits halt) :
      Preorder ancestors path depth ((name, node) :: rest)
        (⟨extend path name, node, depth⟩ :: visits) halt
  | halted {ancestors path depth name node rest entries below halt} (hfresh : node ∉ ancestors)
      (hdescends : descends depth = true) (hchildren : children node = .ok entries)
      (hbelow : Preorder (node :: ancestors) (extend path name) (depth + 1) entries below
        (some halt)) :
      Preorder ancestors path depth ((name, node) :: rest)
        (⟨extend path name, node, depth⟩ :: below) (some halt)
  | inner {ancestors path depth name node rest entries below visits halt}
      (hfresh : node ∉ ancestors) (hdescends : descends depth = true)
      (hchildren : children node = .ok entries)
      (hbelow : Preorder (node :: ancestors) (extend path name) (depth + 1) entries below none)
      (hrest : Preorder ancestors path depth rest visits halt) :
      Preorder ancestors path depth ((name, node) :: rest)
        (⟨extend path name, node, depth⟩ :: below ++ visits) halt

/-- Over finitely many nodes every unfolding ends: the ancestors of a node are distinct. -/
theorem exists_preorder [Finite ν] (ancestors : List ν) (path : π) (depth : Nat)
    (entries : List (κ × ν)) :
    ∃ visits halt, Preorder children extend descends ancestors path depth entries visits halt := by
  classical
  have := Fintype.ofFinite ν
  -- the nodes that are no ancestors become fewer on the way down
  obtain ⟨fresh, hfresh⟩ : ∃ fresh, fresh = (ancestors.toFinset)ᶜ.card := ⟨_, rfl⟩
  induction fresh using Nat.strong_induction_on generalizing ancestors path depth entries with
  | _ fresh ihBelow =>
    induction entries with
    | nil => exact ⟨[], none, .nil⟩
    | cons entry rest ihRest =>
      obtain ⟨name, node⟩ := entry
      obtain ⟨visits, halt, hrest⟩ := ihRest
      by_cases hmem : node ∈ ancestors
      · exact ⟨[], _, .cycle hmem⟩
      cases hdescends : descends depth with
      | false => exact ⟨_, halt, .leaf hmem hdescends hrest⟩
      | true =>
        cases hchildren : children node with
        | error error => exact ⟨[], _, .unread hmem hdescends hchildren⟩
        | ok entries =>
          have hless : ((node :: ancestors).toFinset)ᶜ.card < fresh := by
            rw [hfresh]
            refine Finset.card_lt_card (Finset.compl_ssubset_compl.mpr ?_)
            rw [List.toFinset_cons]
            exact Finset.ssubset_insert (fun h => hmem (List.mem_toFinset.mp h))
          obtain ⟨below, halt', hbelow⟩ := ihBelow _ hless (node :: ancestors) (extend path name)
            (depth + 1) entries rfl
          cases halt' with
          | none => exact ⟨_, halt, .inner hmem hdescends hchildren hbelow hrest⟩
          | some halt' => exact ⟨_, _, .halted hmem hdescends hchildren hbelow⟩

variable {children extend descends}

/-- An unfolding goes on with the next sibling when it does not halt in the first. -/
theorem Preorder.split {ancestors : List ν} {path : π} {depth : Nat} {entry : κ × ν}
    {rest : List (κ × ν)} {visits : List (Visit ν π)} {halt : Option (Halt ν ε)}
    (h : Preorder children extend descends ancestors path depth (entry :: rest) visits halt) :
    (∃ halt', halt = some halt' ∧
        Preorder children extend descends ancestors path depth [entry] visits halt) ∨
      ∃ first others, visits = first ++ others ∧
        Preorder children extend descends ancestors path depth [entry] first none ∧
        Preorder children extend descends ancestors path depth rest others halt := by
  cases h with
  | cycle hmem => exact .inl ⟨_, rfl, .cycle hmem⟩
  | unread hfresh hdescends hchildren => exact .inl ⟨_, rfl, .unread hfresh hdescends hchildren⟩
  | leaf hfresh hdescends hrest =>
    exact .inr ⟨[_], _, rfl, .leaf hfresh hdescends .nil, hrest⟩
  | halted hfresh hdescends hchildren hbelow =>
    exact .inl ⟨_, rfl, .halted hfresh hdescends hchildren hbelow⟩
  | inner hfresh hdescends hchildren hbelow hrest =>
    refine .inr ⟨_, _, rfl, ?_, hrest⟩
    have hone := Preorder.inner hfresh hdescends hchildren hbelow .nil
    rwa [List.append_nil] at hone

end

end Unfolding
