import Mathlib.Data.List.Basic
import Mathlib.Tactic.Ring

/-!
# Byte strings

Slices, in-place writes and big-endian integers over lists of bytes, in the
form a binary format needs them.  A reader that walks a buffer keeps a cursor,
so the slicing lemmas are stated on the rest of the buffer: when `b.drop p`
starts with `a`, reading `a.length` bytes at `p` gives `a` and the cursor
`p + a.length` leaves what followed.
-/

/-- A byte string. -/
abbrev Bytes := List UInt8

namespace Bytes

open List (append_assoc drop_drop drop_take length_take take_take)

/-! ## Slices -/

/-- The `n` bytes that start at `start`, fewer when the buffer ends first. -/
def slice (b : Bytes) (start n : Nat) : Bytes := (b.drop start).take n

theorem length_slice (b : Bytes) (start n : Nat) :
    (b.slice start n).length = min n (b.length - start) := by
  simp [slice]

variable {b a r d : Bytes} {start n p s : Nat} {fields : List (Nat × Bytes)} {x : UInt32}

theorem length_slice_of_le (h : start + n ≤ b.length) :
    (b.slice start n).length = n := by
  rw [length_slice]
  omega

theorem slice_of_drop_eq (h : b.drop p = a ++ r) :
    b.slice p a.length = a := by
  simp [slice, h]

theorem drop_add_of_drop_eq (h : b.drop p = a ++ r) :
    b.drop (p + a.length) = r := by
  rw [← drop_drop, h]
  simp

theorem slice_append_right (h : a.length ≤ start) :
    (a ++ b).slice start n = b.slice (start - a.length) n := by
  simp [slice, List.drop_append, List.drop_of_length_le h]

theorem slice_append_left (h : start + n ≤ a.length) :
    (a ++ b).slice start n = a.slice start n := by
  rw [slice, List.drop_append_of_le_length (by omega), List.take_append_of_le_length
    (by rw [List.length_drop]; omega), slice]

/-- The middle of three parts, addressed by the lengths around it. -/
theorem slice_middle {c : Bytes} (hs : start = a.length) (hn : n = b.length) :
    (a ++ b ++ c).slice start n = b := by
  subst hs hn
  rw [append_assoc, slice_append_right le_rfl, Nat.sub_self, slice_append_left (by simp)]
  simp [slice]

/-- A buffer that splits into three parts, addressed at the middle one. -/
theorem slice_of_eq_append {t c : Bytes} (h : t = a ++ b ++ c)
    (hs : start = a.length) (hn : n = b.length) : t.slice start n = b := by
  rw [h, slice_middle hs hn]

theorem slice_slice {t m : Nat} (h : t + m ≤ n) :
    (b.slice s n).slice t m = b.slice (s + t) m := by
  simp only [slice, drop_take, drop_drop, take_take]
  congr 1
  omega

theorem slice_take {k : Nat} (h : s + k ≤ n) :
    slice (b.take n) s k = b.slice s k := by
  rw [slice, drop_take, take_take, Nat.min_eq_left (by omega), slice]

/-- The bytes from `start` up to `stop`, or `none` when the range is not inside the buffer. -/
def range? (b : Bytes) (start stop : Nat) : Option Bytes :=
  if start ≤ stop ∧ stop ≤ b.length then some (b.slice start (stop - start)) else none

theorem range?_of_le (h : start + n ≤ b.length) :
    b.range? start (start + n) = some (b.slice start n) := by
  rw [range?, if_pos ⟨Nat.le_add_right _ _, h⟩, Nat.add_sub_cancel_left]

theorem length_of_range? {stop : Nat} (h : b.range? start stop = some r) :
    r.length = stop - start := by
  unfold range? at h
  split at h
  · cases h
    rw [slice, length_take, List.length_drop]
    omega
  · cases h

@[simp] theorem slice_zero_length (b : Bytes) : b.slice 0 b.length = b := by
  simp [slice]

/-! ## Writing into a buffer -/

/-- The buffer with the bytes `d` copied over it from `start` on. -/
def splice (b : Bytes) (start : Nat) (d : Bytes) : Bytes :=
  b.take start ++ d ++ b.drop (start + d.length)

theorem length_splice (h : start + d.length ≤ b.length) :
    (b.splice start d).length = b.length := by
  simp only [splice, List.length_append, length_take, List.length_drop]
  omega

theorem slice_splice_self (hn : n = d.length)
    (h : start ≤ b.length) : (b.splice start d).slice start n = d := by
  subst hn
  exact slice_middle (by rw [length_take]; omega) rfl

/-- A write leaves every slice that ends before it alone. -/
theorem slice_splice_before (h : s + n ≤ start)
    (hb : start ≤ b.length) : (b.splice start d).slice s n = b.slice s n := by
  have ht : (b.take start).length = start := by rw [length_take]; omega
  rw [splice, append_assoc, slice_append_left (by omega)]
  simp only [slice, drop_take, take_take]
  congr 1
  omega

/-- A write leaves every slice that starts after it alone. -/
theorem slice_splice_after (h : start + d.length ≤ s)
    (hb : start + d.length ≤ b.length) : (b.splice start d).slice s n = b.slice s n := by
  have ht : (b.take start).length = start := by rw [length_take]; omega
  have hl : (b.take start ++ d).length = start + d.length := by rw [List.length_append, ht]
  rw [splice, slice_append_right (by omega), hl]
  simp only [slice, drop_drop]
  congr 2
  omega

theorem splice_splice {e : Bytes} (hde : d.length = e.length)
    (h : s + d.length ≤ b.length) : (b.splice s d).splice s e = b.splice s e := by
  have ht : (b.take s).length = s := by
    rw [length_take]
    omega
  have htake : (b.splice s d).take s = b.take s := by
    rw [splice, append_assoc, List.take_append_of_le_length (by omega),
      List.take_of_length_le (by omega)]
  have hdrop : (b.splice s d).drop (s + e.length) = b.drop (s + e.length) := by
    have hl : (b.take s ++ d).length = s + e.length := by
      rw [List.length_append, ht, hde]
    rw [splice, ← hl, List.drop_left, hl, hde]
  rw [splice, htake, hdrop, ← splice]

theorem splice_slice (h : s + n ≤ b.length) :
    b.splice s (b.slice s n) = b := by
  rw [splice, length_slice_of_le h, slice, append_assoc]
  have hd := List.take_append_drop n (b.drop s)
  rw [drop_drop] at hd
  rw [hd, List.take_append_drop]

/-- The buffer after a sequence of writes, each an offset and the bytes copied there. -/
def write (b : Bytes) (fields : List (Nat × Bytes)) : Bytes :=
  fields.foldl (fun b f => b.splice f.1 f.2) b

/-- A range is clear of a list of writes when none of them touches it. -/
def Clear (fields : List (Nat × Bytes)) (s n : Nat) : Prop :=
  ∀ f ∈ fields, s + n ≤ f.1 ∨ f.1 + f.2.length ≤ s

/-- All writes stay inside a buffer of length `l`. -/
def Within (fields : List (Nat × Bytes)) (l : Nat) : Prop :=
  ∀ f ∈ fields, f.1 + f.2.length ≤ l

theorem write_append (b : Bytes) (f g : List (Nat × Bytes)) :
    b.write (f ++ g) = (b.write f).write g := List.foldl_append

theorem length_write (h : Within fields b.length) :
    (b.write fields).length = b.length := by
  induction fields generalizing b with
  | nil => rfl
  | cons f fields ih =>
    have hf : (b.splice f.1 f.2).length = b.length :=
      length_splice (h f (List.mem_cons_self ..))
    have hrest : Within fields (b.splice f.1 f.2).length := by
      intro g hg
      rw [hf]
      exact h g (List.mem_cons_of_mem _ hg)
    calc (b.write (f :: fields)).length = ((b.splice f.1 f.2).write fields).length := rfl
      _ = (b.splice f.1 f.2).length := ih hrest
      _ = b.length := hf

theorem slice_write_clear (hb : Within fields b.length) (h : Clear fields s n) :
    (b.write fields).slice s n = b.slice s n := by
  induction fields generalizing b with
  | nil => rfl
  | cons f fields ih =>
    have hin := hb f (List.mem_cons_self ..)
    have hf : (b.splice f.1 f.2).length = b.length := length_splice hin
    have hrest : Within fields (b.splice f.1 f.2).length := by
      intro g hg
      rw [hf]
      exact hb g (List.mem_cons_of_mem _ hg)
    have hstep : (b.splice f.1 f.2).slice s n = b.slice s n := by
      rcases h f (List.mem_cons_self ..) with hlt | hgt
      · exact slice_splice_before hlt (by omega)
      · exact slice_splice_after hgt hin
    calc (b.write (f :: fields)).slice s n = ((b.splice f.1 f.2).write fields).slice s n := rfl
      _ = (b.splice f.1 f.2).slice s n := ih hrest fun g hg => h g (List.mem_cons_of_mem _ hg)
      _ = b.slice s n := hstep

/-- A write is read back when nothing written later touches it. -/
theorem slice_write_at {f g : List (Nat × Bytes)}
    (hb : Within (f ++ (s, d) :: g) b.length) (hn : n = d.length) (h : Clear g s n) :
    (b.write (f ++ (s, d) :: g)).slice s n = d := by
  have hf : Within f b.length := fun x hx => hb x (List.mem_append_left _ hx)
  have hd : s + d.length ≤ b.length := hb (s, d) (by simp)
  have hl : (b.write f).length = b.length := length_write hf
  have hs : ((b.write f).splice s d).length = b.length := by
    rw [length_splice (by omega), hl]
  have hg : Within g ((b.write f).splice s d).length := by
    intro x hx
    rw [hs]
    exact hb x (by simp [hx])
  calc (b.write (f ++ (s, d) :: g)).slice s n = (((b.write f).splice s d).write g).slice s n := by
        rw [write_append]; rfl
    _ = ((b.write f).splice s d).slice s n := slice_write_clear hg h
    _ = d := slice_splice_self hn (by omega)

/-! ## Big-endian integers -/

/-- The low `w` bytes of `n`, most significant first. -/
def be : Nat → Nat → Bytes
  | 0, _ => []
  | w + 1, n => UInt8.ofNat (n / 256 ^ w) :: be w n

/-- The number a big-endian byte string denotes. -/
def ofBe (b : Bytes) : Nat := b.foldl (fun n x => n * 256 + x.toNat) 0

@[simp] theorem length_be (w n : Nat) : (be w n).length = w := by
  induction w with
  | zero => rfl
  | succ w ih => simp [be, ih]

theorem ofBe_foldl (b : Bytes) (n : Nat) :
    b.foldl (fun n x => n * 256 + x.toNat) n = n * 256 ^ b.length + ofBe b := by
  induction b generalizing n with
  | nil => simp [ofBe]
  | cons x b ih =>
    rw [ofBe, List.foldl_cons, List.foldl_cons, ih, ih (0 * 256 + x.toNat)]
    simp only [List.length_cons]
    ring

@[simp] theorem ofBe_nil : ofBe [] = 0 := rfl

theorem ofBe_cons (x : UInt8) (b : Bytes) :
    ofBe (x :: b) = x.toNat * 256 ^ b.length + ofBe b := by
  rw [ofBe, List.foldl_cons, ofBe_foldl]
  simp

theorem ofBe_be (w n : Nat) : ofBe (be w n) = n % 256 ^ w := by
  induction w with
  | zero => simp [be, Nat.mod_one]
  | succ w ih =>
    rw [be, ofBe_cons, ih, length_be, UInt8.toNat_ofNat', Nat.mul_comm, Nat.add_comm]
    exact Nat.mod_mul.symm

theorem ofBe_be_of_lt {w : Nat} (h : n < 256 ^ w) : ofBe (be w n) = n := by
  rw [ofBe_be, Nat.mod_eq_of_lt h]

theorem ofBe_lt (b : Bytes) : ofBe b < 256 ^ b.length := by
  induction b with
  | nil => simp
  | cons x b ih =>
    have hx : x.toNat < 256 := x.toNat_lt
    rw [ofBe_cons, List.length_cons, pow_succ]
    calc x.toNat * 256 ^ b.length + ofBe b
        < x.toNat * 256 ^ b.length + 256 ^ b.length := by omega
      _ = (x.toNat + 1) * 256 ^ b.length := by ring
      _ ≤ 256 * 256 ^ b.length := Nat.mul_le_mul_right _ hx
      _ = 256 ^ b.length * 256 := Nat.mul_comm _ _

theorem be_add_mul (w n m : Nat) : be w (n + m * 256 ^ w) = be w n := by
  induction w generalizing m with
  | zero => rfl
  | succ w ih =>
    have hpow : m * 256 ^ (w + 1) = m * 256 * 256 ^ w := by ring
    rw [be, be, hpow, ih, Nat.add_mul_div_right _ _ (Nat.pow_pos (by decide))]
    congr 1
    rw [← UInt8.toNat_inj, UInt8.toNat_ofNat', UInt8.toNat_ofNat']
    omega

/-- Bytes are the digits of the number they denote. -/
theorem be_ofBe (b : Bytes) : be b.length (ofBe b) = b := by
  induction b with
  | nil => rfl
  | cons x b ih =>
    have hlt := ofBe_lt b
    rw [ofBe_cons, List.length_cons, be, Nat.add_comm (x.toNat * _), be_add_mul, ih,
      Nat.add_mul_div_right _ _ (Nat.pow_pos (by decide)), Nat.div_eq_of_lt hlt, Nat.zero_add,
      UInt8.ofNat_toNat]

/-! ## The integers of the formats -/

/-- A 32-bit word in four bytes. -/
def be32 (x : UInt32) : Bytes := be 4 x.toNat

/-- A 64-bit word in eight bytes. -/
def be64 (x : UInt64) : Bytes := be 8 x.toNat

/-- The 16-bit word at an offset. -/
def u16At (b : Bytes) (start : Nat) : UInt16 := UInt16.ofNat (ofBe (b.slice start 2))

/-- The 32-bit word at an offset. -/
def u32At (b : Bytes) (start : Nat) : UInt32 := UInt32.ofNat (ofBe (b.slice start 4))

/-- The 64-bit word at an offset. -/
def u64At (b : Bytes) (start : Nat) : UInt64 := UInt64.ofNat (ofBe (b.slice start 8))

@[simp] theorem length_be32 (x : UInt32) : (be32 x).length = 4 := length_be 4 _

@[simp] theorem length_be64 (x : UInt64) : (be64 x).length = 8 := length_be 8 _

@[simp] theorem ofNat_ofBe_be32 (x : UInt32) : UInt32.ofNat (ofBe (be32 x)) = x := by
  rw [be32, ofBe_be_of_lt x.toNat_lt, UInt32.ofNat_toNat]

@[simp] theorem ofNat_ofBe_be64 (x : UInt64) : UInt64.ofNat (ofBe (be64 x)) = x := by
  rw [be64, ofBe_be_of_lt x.toNat_lt, UInt64.ofNat_toNat]

theorem u32At_of_slice (h : b.slice p 4 = be32 x) :
    b.u32At p = x := by
  rw [u32At, h, ofNat_ofBe_be32]

theorem u64At_of_slice {x : UInt64} (h : b.slice p 8 = be64 x) :
    b.u64At p = x := by
  rw [u64At, h, ofNat_ofBe_be64]

theorem be32_u32At (h : p + 4 ≤ b.length) :
    be32 (b.u32At p) = b.slice p 4 := by
  have hlength := length_slice_of_le h
  have hlt := ofBe_lt (b.slice p 4)
  rw [hlength] at hlt
  rw [be32, u32At, UInt32.toNat_ofNat', show 2 ^ 32 = 256 ^ 4 from rfl, Nat.mod_eq_of_lt hlt]
  conv_rhs => rw [← be_ofBe (b.slice p 4), hlength]

theorem be64_u64At (h : p + 8 ≤ b.length) :
    be64 (b.u64At p) = b.slice p 8 := by
  have hlength := length_slice_of_le h
  have hlt := ofBe_lt (b.slice p 8)
  rw [hlength] at hlt
  rw [be64, u64At, UInt64.toNat_ofNat', show 2 ^ 64 = 256 ^ 8 from rfl, Nat.mod_eq_of_lt hlt]
  conv_rhs => rw [← be_ofBe (b.slice p 8), hlength]

theorem u32At_of_drop (h : b.drop p = be32 x ++ r) :
    b.u32At p = x :=
  u32At_of_slice (by simpa using slice_of_drop_eq h)

theorem u64At_of_drop {x : UInt64} (h : b.drop p = be64 x ++ r) :
    b.u64At p = x :=
  u64At_of_slice (by simpa using slice_of_drop_eq h)

theorem drop_be32 (h : b.drop p = be32 x ++ r) :
    b.drop (p + 4) = r := by
  simpa using drop_add_of_drop_eq h

theorem drop_be64 {x : UInt64} (h : b.drop p = be64 x ++ r) :
    b.drop (p + 8) = r := by
  simpa using drop_add_of_drop_eq h

end Bytes
