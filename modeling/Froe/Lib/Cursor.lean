import Froe.Lib.Bytes
import Froe.Lib.Except

/-!
# Reading through a file

A reader of a file knows the name of the file, where it stands and the bytes that remain.
What a reader makes of the bytes that a writer wrote is said by `Reads`, what it refuses by
`Refuses`, and `ReadsIff` says which of the two by a condition.  All three compose with the
steps of a reader, so that a reader of a format is followed field by field.
-/

/-- Where a reader stands in a file. -/
structure Cursor where
  fileName : String
  position : Nat
  rest : Bytes

namespace Cursor

def start (fileName : String) (content : Bytes) : Cursor := ⟨fileName, 0, content⟩

/-- A reader past some bytes. -/
def past (cursor : Cursor) (bytes rest : Bytes) : Cursor :=
  ⟨cursor.fileName, cursor.position + bytes.length, rest⟩

def fileLength (cursor : Cursor) : Nat := cursor.position + cursor.rest.length

end Cursor

namespace Reading

variable {ε α β : Type}

/-- A step of a reader, which can stop with an error. -/
abbrev Reader (ε α : Type) := StateT Cursor (Except ε) α

/-- A reader takes bytes and returns a value, whatever follows them. -/
def Reads (x : Reader ε α) (bytes : Bytes) (a : α) : Prop :=
  ∀ (fileName : String) (position : Nat) (rest : Bytes),
    x.run ⟨fileName, position, bytes ++ rest⟩ = .ok (a, ⟨fileName, position + bytes.length, rest⟩)

/-- A reader stops at bytes, whatever follows them. -/
def Refuses (x : Reader ε α) (bytes : Bytes) : Prop :=
  ∀ (fileName : String) (position : Nat) (rest : Bytes),
    ∃ error, x.run ⟨fileName, position, bytes ++ rest⟩ = .error error

/-- A reader takes bytes when a condition holds, and stops at them otherwise. -/
def ReadsIff (x : Reader ε α) (bytes : Bytes) (a : α) (condition : Prop) : Prop :=
  (condition → Reads x bytes a) ∧ (¬ condition → Refuses x bytes)

/-! ## Steps -/

theorem reads_pure (a : α) : Reads (pure a : Reader ε α) [] a := fun _ _ _ => rfl

variable {bytes later : Bytes} {condition : Prop}

variable {x : Reader ε α} {f : α → Reader ε β} {a : α} {b : β}

theorem Reads.bind
    (h : Reads x bytes a) (hf : Reads (f a) later b) : Reads (x >>= f) (bytes ++ later) b := by
  intro fileName position rest
  rw [List.append_assoc]
  refine StateT.bind_ok_iff.mpr ⟨a, _, h fileName position _, ?_⟩
  rw [hf, List.length_append, Nat.add_assoc]

/-- A step before a result. -/
theorem Reads.andThen (h : Reads x bytes a) (hf : Reads (f a) [] b) : Reads (x >>= f) bytes b := by
  have hbind := h.bind hf
  rw [List.append_nil] at hbind
  exact hbind

/-- A computation beside the reader takes no bytes. -/
theorem Reads.lift_bind {x : Except ε α}
    (h : x = .ok a) (hf : Reads (f a) bytes b) : Reads (liftM x >>= f) bytes b := by
  intro fileName position rest
  exact StateT.bind_ok_iff.mpr ⟨a, _, StateT.lift_ok_iff.mpr ⟨h, rfl⟩, hf fileName position rest⟩

theorem Reads.bind_refuses
    (h : Reads x bytes a) (hf : Refuses (f a) later) : Refuses (x >>= f) (bytes ++ later) := by
  intro fileName position rest
  obtain ⟨error, herror⟩ := hf fileName (position + bytes.length) rest
  refine ⟨error, ?_⟩
  rw [List.append_assoc, StateT.run_bind, h fileName position _]
  exact herror

theorem Refuses.bind (h : Refuses x bytes)
    (later : Bytes) : Refuses (x >>= f) (bytes ++ later) := by
  intro fileName position rest
  obtain ⟨error, herror⟩ := h fileName position (later ++ rest)
  refine ⟨error, ?_⟩
  rw [List.append_assoc, StateT.run_bind, herror]
  rfl

/-! ## Steps with a condition -/

theorem Reads.iff (h : Reads x bytes a) :
    ReadsIff x bytes a True :=
  ⟨fun _ => h, fun hfalse => (hfalse trivial).elim⟩

theorem ReadsIff.congr {other : Prop}
    (h : ReadsIff x bytes a condition) (hiff : condition ↔ other) : ReadsIff x bytes a other :=
  ⟨fun hother => h.1 (hiff.mpr hother), fun hother => h.2 (hother ∘ hiff.mp)⟩

theorem ReadsIff.bind {other : Prop} (h : ReadsIff x bytes a condition)
    (hf : condition → ReadsIff (f a) later b other) :
    ReadsIff (x >>= f) (bytes ++ later) b (condition ∧ other) := by
  refine ⟨fun hboth => (h.1 hboth.1).bind ((hf hboth.1).1 hboth.2), fun hneither => ?_⟩
  by_cases hcondition : condition
  · exact (h.1 hcondition).bind_refuses
      ((hf hcondition).2 fun hother => hneither ⟨hcondition, hother⟩)
  · exact (h.2 hcondition).bind later

/-- A step that always succeeds leaves the condition of what follows. -/
theorem Reads.bindIff (h : Reads x bytes a) (hf : ReadsIff (f a) later b condition) :
    ReadsIff (x >>= f) (bytes ++ later) b condition :=
  ⟨fun hcondition => h.bind (hf.1 hcondition), fun hcondition => h.bind_refuses (hf.2 hcondition)⟩

section

variable (h : ReadsIff x bytes a condition)
include h

/-- A step with a condition before a result. -/
theorem ReadsIff.andThen (hf : Reads (f a) [] b) :
    ReadsIff (x >>= f) bytes b condition := by
  have hbind := h.bind fun _ => hf.iff
  rw [List.append_nil] at hbind
  exact hbind.congr (and_iff_left trivial)

/-- What a reader returned is what was written, and the condition holds. -/
theorem ReadsIff.of_ok {b : α} {fileName : String} {cursor : Cursor}
    (hok : x.run (.start fileName bytes) = .ok (b, cursor)) : condition ∧ b = a := by
  rw [← List.append_nil bytes] at hok
  by_cases hcondition : condition
  · cases (h.1 hcondition fileName 0 []).symm.trans hok
    exact ⟨hcondition, rfl⟩
  · obtain ⟨error, herror⟩ := h.2 hcondition fileName 0 []
    cases herror.symm.trans hok

theorem ReadsIff.ok (hcondition : condition) (fileName : String) :
    ∃ cursor, x.run (.start fileName bytes) = .ok (a, cursor) := by
  have hread := h.1 hcondition fileName 0 []
  rw [List.append_nil] at hread
  exact ⟨_, hread⟩

end

/-! ## Steps that need all of their bytes -/

/-- A reader takes bytes and returns a value, and stops at every beginning of them that is not
the whole. -/
structure ReadsExactly (x : Reader ε α) (bytes : Bytes) (a : α) : Prop where
  reads : Reads x bytes a
  early : ∀ (fileName : String) (position n : Nat), n < bytes.length →
    ∃ error, x.run ⟨fileName, position, bytes.take n⟩ = .error error

theorem readsExactly_pure (a : α) : ReadsExactly (pure a : Reader ε α) [] a :=
  ⟨reads_pure a, fun _ _ _ h => absurd h (Nat.not_lt_zero _)⟩

theorem ReadsExactly.bind (h : ReadsExactly x bytes a) (hf : ReadsExactly (f a) later b) :
    ReadsExactly (x >>= f) (bytes ++ later) b := by
  refine ⟨h.reads.bind hf.reads, fun fileName position n hn => ?_⟩
  rcases Nat.lt_or_ge n bytes.length with hlt | hge
  · -- the first step already lacks bytes
    obtain ⟨error, herror⟩ := h.early fileName position n hlt
    refine ⟨error, ?_⟩
    rw [List.take_append_of_le_length (Nat.le_of_lt hlt), StateT.run_bind, herror]
    rfl
  · have hrest : n - bytes.length < later.length := by
      rw [List.length_append] at hn
      omega
    obtain ⟨error, herror⟩ := hf.early fileName (position + bytes.length) _ hrest
    refine ⟨error, ?_⟩
    rw [List.take_append, List.take_of_length_le hge, StateT.run_bind, h.reads fileName position _]
    exact herror

theorem ReadsExactly.andThen (h : ReadsExactly x bytes a) (hf : ReadsExactly (f a) [] b) :
    ReadsExactly (x >>= f) bytes b := by
  have hbind := h.bind hf
  rw [List.append_nil] at hbind
  exact hbind

/-! ## Repeated steps -/

/-- Takes a number of values. -/
def times (x : Reader ε α) : Nat → Reader ε (List α)
  | 0 => pure []
  | n + 1 => do
    let a ← x
    let as ← times x n
    return a :: as

/-- Values that were written one after the other. -/
theorem readsExactly_times {γ : Type} {x : Reader ε α} {write : γ → Bytes} {value : γ → α}
    {written : List γ} (h : ∀ c ∈ written, ReadsExactly x (write c) (value c)) :
    ReadsExactly (times x written.length) (written.flatMap write) (written.map value) := by
  induction written with
  | nil => exact readsExactly_pure []
  | cons c written ih =>
    rw [List.forall_mem_cons] at h
    rw [List.flatMap_cons, List.length_cons, List.map_cons]
    exact h.1.bind ((ih h.2).andThen (readsExactly_pure _))

theorem length_times {n : Nat} {as : List α} {cursor cursor' : Cursor}
    (h : (times x n).run cursor = .ok (as, cursor')) : as.length = n := by
  induction n generalizing as cursor cursor' with
  | zero =>
    obtain ⟨rfl, -⟩ := StateT.pure_ok_iff.mp h
    rfl
  | succ n ih =>
    obtain ⟨a, cursor₁, -, h⟩ := StateT.bind_ok_iff.mp h
    obtain ⟨later, cursor₂, hlater, h⟩ := StateT.bind_ok_iff.mp h
    obtain ⟨rfl, -⟩ := StateT.pure_ok_iff.mp h
    rw [List.length_cons, ih hlater]

/-- Repeated steps read what was written for each value when every value is fit. -/
theorem timesIff {condition : α → Prop} {written : List Bytes} {as : List α}
    (h : List.Forall₂ (fun bytes a => ReadsIff x bytes a (condition a)) written as) :
    ReadsIff (times x as.length) written.flatten as (∀ a ∈ as, condition a) := by
  induction h with
  | nil => exact (reads_pure []).iff.congr ⟨fun _ _ => nofun, fun _ => trivial⟩
  | @cons bytes a written as hfirst _ ih =>
    have hlater : ReadsIff (times x as.length >>= fun later => pure (a :: later)) written.flatten
        (a :: as) (∀ a ∈ as, condition a) := ih.andThen (reads_pure _)
    exact (hfirst.bind fun _ => hlater).congr List.forall_mem_cons.symm

end Reading
