import Froe.Lib.Bytes
import Froe.Lib.Except

/-!
# Checked machine operations

A program over machine words and slices stops with a fault when an addition or a
multiplication overflows, a subtraction goes below zero or an index lies outside of its
slice.  `Run` is the monad of such programs.  It notes the capacities that a program
allocates.  `Ends` says that a program returns a given result without a fault, with
allocations that all meet a bound, and is proved along the program.
-/

namespace Checked

/-- What stops a program. -/
inductive Fault where
  | outOfBounds
  | overflow
deriving DecidableEq, Repr

/-- A capacity in rows, with the bytes of one row and the bytes that the rows are read from. -/
structure Allocation where
  rows : Nat
  rowBytes : Nat
  heldBytes : Nat
deriving DecidableEq, Repr

/-- A run that notes its allocations and may panic. -/
abbrev Run := StateT (List Allocation) (Except Fault)

/-- The number of machine words. -/
def wordCount : Nat := 2 ^ 64

/-! ## Operations -/

/-- A number that must fit a word. -/
def word (n : Nat) : Run Nat := if n < wordCount then pure n else throw .overflow

/-- Addition that panics on overflow. -/
def add (a b : Nat) : Run Nat := word (a + b)

/-- Multiplication that panics on overflow. -/
def mul (a b : Nat) : Run Nat := word (a * b)

/-- Subtraction that panics below zero. -/
def sub (a b : Nat) : Run Nat := if b ≤ a then pure (a - b) else throw .overflow

/-- A signed 64-bit result. -/
def signedWord (z : Int) : Run Int :=
  if -2 ^ 63 ≤ z ∧ z < 2 ^ 63 then pure z else throw .overflow

/-- An access that panics out of bounds. -/
def index {α : Type} (values : List α) (i : Nat) : Run α :=
  match values[i]? with
  | some value => pure value
  | none => throw .outOfBounds

/-- The bytes from `start` up to `stop`. -/
def slice (bytes : Bytes) (start stop : Nat) : Run Bytes :=
  if start ≤ stop ∧ stop ≤ bytes.length then pure (bytes.slice start (stop - start))
  else throw .outOfBounds

/-- Notes an allocation. -/
def allocate (rows rowBytes heldBytes : Nat) : Run Unit :=
  modify (· ++ [⟨rows, rowBytes, heldBytes⟩])

/-- Addition without a result on overflow. -/
def checkedAdd (a b : Nat) : Option Nat := if a + b < wordCount then some (a + b) else none

/-- Multiplication without a result on overflow. -/
def checkedMul (a b : Nat) : Option Nat := if a * b < wordCount then some (a * b) else none

/-- Subtraction without a result below zero. -/
def checkedSub (a b : Nat) : Option Nat := if b ≤ a then some (a - b) else none

/-! ## Ends -/

section

variable {ε α β : Type} {B : Allocation → Prop}

/-- A program returns a result without a fault, and its allocations meet a bound. -/
def Ends (B : Allocation → Prop) (program : Run α) (result : α) : Prop :=
  ∀ log, ∃ allocations, program.run log = .ok (result, log ++ allocations) ∧
    ∀ allocation ∈ allocations, B allocation

theorem ends_pure (a : α) : Ends B (pure a) a :=
  fun log => ⟨[], by rw [List.append_nil]; rfl, nofun⟩

variable {a : α} {b : Nat} {next : α → ExceptT ε Run β}

theorem Ends.bind {program : Run α} {next : α → Run β} {b : β} (h : Ends B program a)
    (hnext : Ends B (next a) b) : Ends B (program >>= next) b := by
  intro log
  obtain ⟨first, hfirst, hbound⟩ := h log
  obtain ⟨second, hsecond, hbound'⟩ := hnext (log ++ first)
  refine ⟨first ++ second, StateT.bind_ok_iff.mpr ⟨a, _, hfirst, ?_⟩,
    List.forall_mem_append.mpr ⟨hbound, hbound'⟩⟩
  rw [hsecond, List.append_assoc]

theorem ends_word {n : Nat} (h : n < wordCount) : Ends B (word n) n := by
  rw [word, if_pos h]
  exact ends_pure n

theorem ends_add {a : Nat} (h : a + b < wordCount) : Ends B (add a b) (a + b) := ends_word h

theorem ends_mul {a : Nat} (h : a * b < wordCount) : Ends B (mul a b) (a * b) := ends_word h

theorem ends_sub {a : Nat} (h : b ≤ a) : Ends B (sub a b) (a - b) := by
  rw [sub, if_pos h]
  exact ends_pure _

theorem ends_signedWord {z : Int} (hmin : -2 ^ 63 ≤ z) (hmax : z < 2 ^ 63) :
    Ends B (signedWord z) z := by
  rw [signedWord, if_pos ⟨hmin, hmax⟩]
  exact ends_pure z

theorem ends_index {values : List α} {i : Nat} (h : values[i]? = some a) :
    Ends B (index values i) a := by
  rw [index, h]
  exact ends_pure a

theorem ends_slice {bytes : Bytes} {start stop : Nat} (h : start ≤ stop)
    (hstop : stop ≤ bytes.length) :
    Ends B (slice bytes start stop) (bytes.slice start (stop - start)) := by
  rw [slice, if_pos ⟨h, hstop⟩]
  exact ends_pure _

theorem ends_allocate {rows rowBytes heldBytes : Nat} (h : B ⟨rows, rowBytes, heldBytes⟩) :
    Ends B (allocate rows rowBytes heldBytes) () :=
  fun _ => ⟨[⟨rows, rowBytes, heldBytes⟩], rfl, fun allocation hmem => by
    rwa [List.mem_singleton.mp hmem]⟩

theorem ends_ite {p : Prop} [Decidable p] {first second : Run α} {b : α}
    (hpos : p → Ends B first a) (hneg : ¬ p → Ends B second b) :
    Ends B (if p then first else second) (if p then a else b) := by
  by_cases h : p
  · rw [if_pos h, if_pos h]
    exact hpos h
  · rw [if_neg h, if_neg h]
    exact hneg h

/-! ## Programs that may refuse -/

theorem Ends.lift {program : Run α} (h : Ends B program a) :
    Ends B (ExceptT.run (liftM program : ExceptT ε Run α)) (.ok a) := by
  have hlift : ExceptT.run (liftM program : ExceptT ε Run α) =
      program >>= fun value => pure (.ok value) := by
    rw [← map_eq_pure_bind]
    rfl
  rw [hlift]
  exact h.bind (ends_pure _)

theorem ends_throw (error : ε) : Ends B (ExceptT.run (throw error : ExceptT ε Run α)) (.error error) :=
  ends_pure _

theorem ends_return (a : α) : Ends B (ExceptT.run (pure a : ExceptT ε Run α)) (.ok a) := ends_pure _

theorem Ends.goOn {program : ExceptT ε Run α} {next : α → ExceptT ε Run β} {a : α} {r : Except ε β}
    (h : Ends B program.run (.ok a)) (hnext : Ends B (next a).run r) :
    Ends B (program >>= next).run r :=
  h.bind hnext

theorem Ends.stop {program : ExceptT ε Run α} {error : ε}
    (h : Ends B program.run (.error error)) : Ends B (program >>= next).run (.error error) :=
  h.bind (ends_pure _)

/-- A refusal ends a program, and otherwise it goes on. -/
theorem Ends.andThen {program : ExceptT ε Run α} {r : Except ε α}
    {g : α → Except ε β} (h : Ends B program.run r)
    (hnext : ∀ a, r = .ok a → Ends B (next a).run (g a)) :
    Ends B (program >>= next).run (r >>= g) := by
  cases r with
  | error error => exact h.stop
  | ok a => exact h.goOn (hnext a rfl)

/-- An operation that does not refuse. -/
theorem Ends.liftThen {operation : Run α} {r : Except ε β}
    (h : Ends B operation a) (hnext : Ends B (next a).run r) :
    Ends B (ExceptT.run (liftM operation >>= next)) r :=
  h.lift.goOn hnext

/-! ## Programs that may give nothing -/

theorem ends_some (a : α) : Ends B (OptionT.run (pure a : OptionT Run α)) (some a) := ends_pure _

/-- Two tests of one condition. -/
theorem Ends.guardThen {p q : Prop} [Decidable p] [Decidable q] {next : Unit → OptionT Run β}
    {g : Unit → Option β} (hiff : p ↔ q) (h : p → Ends B (next ()).run (g ())) :
    Ends B (guard p >>= next).run (guard q >>= g) := by
  by_cases hp : p
  · rw [guard, if_pos hp, guard, if_pos (hiff.mp hp), pure_bind, pure_bind]
    exact h hp
  · rw [guard, if_neg hp, guard, if_neg (mt hiff.mpr hp)]
    exact ends_pure _

theorem Ends.andSome {program : OptionT Run α} {next : α → OptionT Run β} {r : Option α}
    {g : α → Option β} (h : Ends B program.run r)
    (hnext : ∀ a, r = some a → Ends B (next a).run (g a)) :
    Ends B (program >>= next).run (r >>= g) := by
  rw [OptionT.run_bind, Option.elimM]
  refine h.bind ?_
  cases r with
  | none => exact ends_pure _
  | some a => exact hnext a rfl

theorem Ends.liftSome {operation : Run α} {next : α → OptionT Run β} {r : Option β}
    (h : Ends B operation a) (hnext : Ends B (next a).run r) :
    Ends B (OptionT.run (liftM operation >>= next)) r := by
  have hlift : OptionT.run (liftM operation : OptionT Run α) =
      operation >>= fun value => pure (some value) := by
    rw [← map_eq_pure_bind]
    rfl
  have hsome : Ends B (OptionT.run (liftM operation : OptionT Run α)) (some a) := by
    rw [hlift]
    exact h.bind (ends_pure _)
  rw [OptionT.run_bind, Option.elimM]
  exact hsome.bind hnext

end

end Checked
