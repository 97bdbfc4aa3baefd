import Froe.Lib.Except

/-!
# Programs with loops

A loop that is not structural may run forever.  `Program` is the monad of programs with
such loops: a run without an end has no outcome, and any other run refuses or returns a
value.  `Noted` programs note what they visit besides.  `Ends` gives the outcome of a
program and `EndsNoting` its outcome and its notes, and both are proved along the program.
-/

namespace Loops

abbrev Program (ε : Type) := ExceptT ε Option

abbrev Noted (ν ε : Type) := ExceptT ε (StateT (List ν) Option)

section

variable {ε α β : Type}

/-- A program has an outcome. -/
def Ends (program : Program ε α) (result : Except ε α) : Prop := program.run = some result

theorem ends_pure (a : α) : Ends (pure a : Program ε α) (.ok a) := rfl

theorem ends_liftExcept (r : Except ε α) : Ends (liftExcept r : Program ε α) r := by
  cases r with
  | error error => rfl
  | ok a => rfl

/-- A refusal ends a program, and otherwise it goes on. -/
theorem Ends.andThen {program : Program ε α} {next : α → Program ε β} {r : Except ε α}
    {g : α → Except ε β} (h : Ends program r) (hnext : ∀ a, r = .ok a → Ends (next a) (g a)) :
    Ends (program >>= next) (r >>= g) := by
  rw [Ends] at h
  rw [Ends, ExceptT.run_bind, h]
  cases r with
  | error error => rfl
  | ok a => exact hnext a rfl

/-- A step that cannot refuse. -/
theorem Ends.goOn {program : Program ε α} {next : α → Program ε β} {a : α} {r : Except ε β}
    (h : Ends program (.ok a)) (hnext : Ends (next a) r) : Ends (program >>= next) r := by
  rw [Ends] at h
  rw [Ends, ExceptT.run_bind, h]
  exact hnext

theorem ends_mapM {γ : Type} {program : γ → Program ε α} {g : γ → Except ε α} {values : List γ}
    (h : ∀ value ∈ values, Ends (program value) (g value)) :
    Ends (values.mapM program) (values.mapM g) := by
  induction values with
  | nil => exact ends_pure []
  | cons value values ih =>
    rw [List.mapM_cons, List.mapM_cons]
    refine Ends.andThen (h value List.mem_cons_self) fun a _ => ?_
    refine Ends.andThen (ih fun other hother => h other (List.mem_cons_of_mem _ hother)) ?_
    exact fun as _ => ends_pure (a :: as)

end

section

variable {ν ε α β : Type}

def silent (program : Program ε α) : Noted ν ε α := ExceptT.mk (StateT.lift program.run)

def note (value : ν) : Noted ν ε Unit := modify (· ++ [value])

def EndsNoting (program : Noted ν ε α) (result : Except ε α) (notes : List ν) : Prop :=
  ∀ log, program.run.run log = some (result, log ++ notes)

theorem endsNoting_pure (a : α) : EndsNoting (pure a : Noted ν ε α) (.ok a) [] :=
  fun log => by rw [List.append_nil]; rfl

theorem endsNoting_throw (error : ε) : EndsNoting (throw error : Noted ν ε α) (.error error) [] :=
  fun log => by rw [List.append_nil]; rfl

theorem endsNoting_liftExcept (r : Except ε α) :
    EndsNoting (liftExcept r : Noted ν ε α) r [] := by
  cases r with
  | error error => exact endsNoting_throw error
  | ok a => exact endsNoting_pure a

theorem endsNoting_note (value : ν) : EndsNoting (note value : Noted ν ε Unit) (.ok ()) [value] :=
  fun _ => rfl

theorem Ends.silent {program : Program ε α} {r : Except ε α} (h : Ends program r) :
    EndsNoting (Loops.silent program : Noted ν ε α) r [] := by
  intro log
  rw [Ends] at h
  rw [List.append_nil, Loops.silent, ExceptT.run_mk, StateT.run_lift, h]
  rfl

theorem EndsNoting.goOn {program : Noted ν ε α} {next : α → Noted ν ε β} {a : α}
    {r : Except ε β} {notes notes' : List ν} (h : EndsNoting program (.ok a) notes)
    (hnext : EndsNoting (next a) r notes') : EndsNoting (program >>= next) r (notes ++ notes') := by
  intro log
  rw [ExceptT.run_bind, StateT.run_bind, h log, ← List.append_assoc]
  exact hnext (log ++ notes)

theorem EndsNoting.stop {program : Noted ν ε α} {next : α → Noted ν ε β} {error : ε}
    {notes : List ν} (h : EndsNoting program (.error error) notes) :
    EndsNoting (program >>= next) (.error error) notes := by
  intro log
  rw [ExceptT.run_bind, StateT.run_bind, h log]
  rfl

end

end Loops
