import Froe.Lib.Digits
import Froe.Lib.Utf8
import Mathlib.Data.Finite.Prod

/-!
# Segment identifiers and generations

Every segment is named by a 128-bit UUID, kept as two 64-bit halves.  The four
most significant bits of the lower half tell the kind: `0xA` for a data segment,
which has a header and records, `0xB` for a bulk segment, which is raw blocks.
The text form is the canonical lower-case UUID, and reading it back gives the
identifier (`SegmentIdentifier.fromStr_display`).
-/

namespace Froe

open Digits (fixed length_fixed parse_fixed_of_lt)

/-- The 128-bit UUID identifying one segment. -/
structure SegmentIdentifier where
  /-- The first eight bytes of the UUID. -/
  mostSignificantBits : UInt64
  /-- The last eight bytes of the UUID. -/
  leastSignificantBits : UInt64
deriving DecidableEq, Repr, Inhabited

/-- The kind of content a segment holds. -/
inductive SegmentKind where
  /-- Structured records behind a segment header. -/
  | data
  /-- Raw block records without any header. -/
  | bulk
deriving DecidableEq, Repr

/-- A garbage-collection generation in segment-tar metadata. -/
structure GarbageCollectionGeneration where
  /-- The generation, incremented by every compaction. -/
  generation : Int32
  /-- The full generation, incremented only by full compactions. -/
  fullGeneration : Int32
  /-- Whether the segment was produced by a compactor. -/
  isCompacted : Bool
deriving DecidableEq, Repr, Inhabited

/-- The generation every bulk segment is indexed with. -/
def GarbageCollectionGeneration.null : GarbageCollectionGeneration := ⟨0, 0, false⟩

namespace SegmentIdentifier

/-- The four bits that carry the kind. -/
def kindNibble (s : SegmentIdentifier) : Nat := s.leastSignificantBits.toNat / 2 ^ 60

def isDataSegment (s : SegmentIdentifier) : Bool := s.kindNibble == 0xA

def isBulkSegment (s : SegmentIdentifier) : Bool := s.kindNibble == 0xB

/-- The kind the identifier carries, or `none` when it carries neither marker. -/
def kind (s : SegmentIdentifier) : Option SegmentKind :=
  if s.kindNibble = 0xA then some .data
  else if s.kindNibble = 0xB then some .bulk
  else none

variable {s : SegmentIdentifier}

theorem kind_eq_data : s.kind = some .data ↔ s.isDataSegment = true := by
  unfold kind isDataSegment
  split <;> simp_all

theorem kind_eq_bulk : s.kind = some .bulk ↔ s.isBulkSegment = true := by
  unfold kind isBulkSegment
  split <;> simp_all

/-! ## The text form -/

/-- The hyphen between the groups of a UUID. -/
def hyphen : UInt8 := 45

/-- The canonical UUID form, as ASCII bytes. -/
def displayBytes (s : SegmentIdentifier) : Bytes :=
  let high := s.mostSignificantBits.toNat
  let low := s.leastSignificantBits.toNat
  Digits.fixed 16 8 (high / 2 ^ 32) ++ [hyphen] ++ Digits.fixed 16 4 (high / 2 ^ 16 % 2 ^ 16) ++
    [hyphen] ++ Digits.fixed 16 4 (high % 2 ^ 16) ++ [hyphen] ++
    Digits.fixed 16 4 (low / 2 ^ 48) ++ [hyphen] ++ Digits.fixed 16 12 (low % 2 ^ 48)

/-- The canonical UUID form. -/
def display (s : SegmentIdentifier) : String := Utf8.ascii s.displayBytes

/-- Parses the canonical hyphenated UUID form.  Only lower-case hexadecimal digits
are accepted. -/
def fromStr (text : Bytes) : Option SegmentIdentifier :=
  if text.length ≠ 36 ∨ text[8]? ≠ some hyphen ∨ text[13]? ≠ some hyphen ∨
      text[18]? ≠ some hyphen ∨ text[23]? ≠ some hyphen then none
  else do
    let a ← Digits.parse 16 (text.slice 0 8)
    let b ← Digits.parse 16 (text.slice 9 4)
    let c ← Digits.parse 16 (text.slice 14 4)
    let d ← Digits.parse 16 (text.slice 19 4)
    let e ← Digits.parse 16 (text.slice 24 12)
    -- the fields do not overlap, so the shifts and ors are sums
    return ⟨UInt64.ofNat (a * 2 ^ 32 + b * 2 ^ 16 + c), UInt64.ofNat (d * 2 ^ 48 + e)⟩

@[simp] theorem length_displayBytes (s : SegmentIdentifier) : s.displayBytes.length = 36 := by
  simp [displayBytes]

/-- Reading the canonical form gives the identifier back. -/
theorem fromStr_display (s : SegmentIdentifier) : fromStr s.displayBytes = some s := by
  obtain ⟨high, low⟩ := s
  have hhigh : high.toNat < 2 ^ 64 := high.toNat_lt
  have hlow : low.toNat < 2 ^ 64 := low.toNat_lt
  generalize ha : fixed 16 8 (high.toNat / 2 ^ 32) = a
  generalize hb : fixed 16 4 (high.toNat / 2 ^ 16 % 2 ^ 16) = b
  generalize hc : fixed 16 4 (high.toNat % 2 ^ 16) = c
  generalize hd : fixed 16 4 (low.toNat / 2 ^ 48) = d
  generalize he : fixed 16 12 (low.toNat % 2 ^ 48) = e
  have hla : a.length = 8 := by rw [← ha, length_fixed]
  have hlb : b.length = 4 := by rw [← hb, length_fixed]
  have hlc : c.length = 4 := by rw [← hc, length_fixed]
  have hld : d.length = 4 := by rw [← hd, length_fixed]
  have hle : e.length = 12 := by rw [← he, length_fixed]
  have hpa : Digits.parse 16 a = some (high.toNat / 2 ^ 32) := by
    rw [← ha]; exact parse_fixed_of_lt (by omega) (by omega)
  have hpb : Digits.parse 16 b = some (high.toNat / 2 ^ 16 % 2 ^ 16) := by
    rw [← hb]; exact parse_fixed_of_lt (by omega) (by omega)
  have hpc : Digits.parse 16 c = some (high.toNat % 2 ^ 16) := by
    rw [← hc]; exact parse_fixed_of_lt (by omega) (by omega)
  have hpd : Digits.parse 16 d = some (low.toNat / 2 ^ 48) := by
    rw [← hd]; exact parse_fixed_of_lt (by omega) (by omega)
  have hpe : Digits.parse 16 e = some (low.toNat % 2 ^ 48) := by
    rw [← he]; exact parse_fixed_of_lt (by omega) (by omega)
  have htext : displayBytes ⟨high, low⟩ =
      a ++ [hyphen] ++ b ++ [hyphen] ++ c ++ [hyphen] ++ d ++ [hyphen] ++ e := by
    simp only [displayBytes, ha, hb, hc, hd, he]
  rw [htext, fromStr, if_neg (by
    simp [hla, hlb, hlc, hld, hle])]
  have sa : (a ++ [hyphen] ++ b ++ [hyphen] ++ c ++ [hyphen] ++ d ++ [hyphen] ++ e).slice 0 8
      = a :=
    Bytes.slice_of_eq_append (a := []) (c := [hyphen] ++ b ++ [hyphen] ++ c ++ [hyphen] ++ d ++
      [hyphen] ++ e) (by simp) rfl hla.symm
  have sb : (a ++ [hyphen] ++ b ++ [hyphen] ++ c ++ [hyphen] ++ d ++ [hyphen] ++ e).slice 9 4
      = b :=
    Bytes.slice_of_eq_append (a := a ++ [hyphen]) (c := [hyphen] ++ c ++ [hyphen] ++ d ++
      [hyphen] ++ e) (by simp) (by simp [hla]) hlb.symm
  have sc : (a ++ [hyphen] ++ b ++ [hyphen] ++ c ++ [hyphen] ++ d ++ [hyphen] ++ e).slice 14 4
      = c :=
    Bytes.slice_of_eq_append (a := a ++ [hyphen] ++ b ++ [hyphen]) (c := [hyphen] ++ d ++
      [hyphen] ++ e) (by simp) (by simp [hla, hlb]) hlc.symm
  have sd : (a ++ [hyphen] ++ b ++ [hyphen] ++ c ++ [hyphen] ++ d ++ [hyphen] ++ e).slice 19 4
      = d :=
    Bytes.slice_of_eq_append (a := a ++ [hyphen] ++ b ++ [hyphen] ++ c ++ [hyphen])
      (c := [hyphen] ++ e) (by simp) (by simp [hla, hlb, hlc]) hld.symm
  have se : (a ++ [hyphen] ++ b ++ [hyphen] ++ c ++ [hyphen] ++ d ++ [hyphen] ++ e).slice 24 12
      = e :=
    Bytes.slice_of_eq_append (a := a ++ [hyphen] ++ b ++ [hyphen] ++ c ++ [hyphen] ++ d ++
      [hyphen]) (c := []) (by simp) (by simp [hla, hlb, hlc, hld]) hle.symm
  rw [sa, sb, sc, sd, se, hpa, hpb, hpc, hpd, hpe]
  simp only [Option.bind_eq_bind, Option.bind_some, Option.pure_def, Option.some.injEq,
    SegmentIdentifier.mk.injEq]
  constructor
  · rw [← UInt64.toNat_inj, UInt64.toNat_ofNat']
    omega
  · rw [← UInt64.toNat_inj, UInt64.toNat_ofNat']
    omega

/-- Only printable ASCII characters stand in the text of an identifier. -/
theorem fromStr_chars {text : Bytes} (h : fromStr text = some s)
    {i : Nat} (hi : i < 36) : ∃ x, text[i]? = some x ∧ 45 ≤ x.toNat ∧ x.toNat < 128 := by
  unfold fromStr at h
  split at h
  · cases h
  case isFalse hshape =>
    simp only [not_or, not_not] at hshape
    obtain ⟨hlength, h8, h13, h18, h23⟩ := hshape
    simp only [Option.bind_eq_bind, Option.bind_eq_some_iff] at h
    obtain ⟨a, ha, b, hb, c, hc, d, hd, e, he, _⟩ := h
    -- a position inside one of the five groups of digits
    have hgroup : ∀ {start n value : Nat}, Digits.parse 16 (text.slice start n) = some value →
        start ≤ i → i < start + n → ∃ x, text[i]? = some x ∧ 45 ≤ x.toNat ∧ x.toNat < 128 := by
      intro start n value hparse hstart hstop
      have hget : (text.slice start n)[i - start]? = text[i]? := by
        rw [Bytes.slice, List.getElem?_take, if_pos (by omega), List.getElem?_drop]
        congr 1
        omega
      have hin : i < text.length := by omega
      rw [List.getElem?_eq_getElem hin] at hget ⊢
      obtain ⟨digit, hdigit⟩ := Digits.parse_mem hparse (List.mem_of_getElem? hget)
      have hrange := Digits.digit?_range hdigit
      exact ⟨_, rfl, by omega, hrange.2⟩
    have hhyphen : ∀ {j : Nat}, text[j]? = some hyphen → i = j →
        ∃ x, text[i]? = some x ∧ 45 ≤ x.toNat ∧ x.toNat < 128 := by
      rintro j hj rfl
      exact ⟨hyphen, hj, by decide, by decide⟩
    rcases Nat.lt_or_ge i 8 with hlt | hge
    · exact hgroup ha (by omega) (by omega)
    rcases Nat.lt_or_ge i 9 with hlt | hge
    · exact hhyphen h8 (by omega)
    rcases Nat.lt_or_ge i 13 with hlt | hge
    · exact hgroup hb (by omega) (by omega)
    rcases Nat.lt_or_ge i 14 with hlt | hge
    · exact hhyphen h13 (by omega)
    rcases Nat.lt_or_ge i 18 with hlt | hge
    · exact hgroup hc (by omega) (by omega)
    rcases Nat.lt_or_ge i 19 with hlt | hge
    · exact hhyphen h18 (by omega)
    rcases Nat.lt_or_ge i 23 with hlt | hge
    · exact hgroup hd (by omega) (by omega)
    rcases Nat.lt_or_ge i 24 with hlt | hge
    · exact hhyphen h23 (by omega)
    · exact hgroup he (by omega) (by omega)

end SegmentIdentifier

/-! ## Record identifiers -/

/-- A 32-bit word as eight hexadecimal digits. -/
def hex32 (word : UInt32) : String := Utf8.ascii (Digits.fixed 16 8 word.toNat)

/-- A reference to one record: its segment and its number there. -/
structure RecordIdentifier where
  segment : SegmentIdentifier
  recordNumber : UInt32
deriving DecidableEq, Repr, Inhabited

instance : Finite RecordIdentifier := by
  refine Finite.of_injective
    (β := (Fin UInt64.size × Fin UInt64.size) × Fin UInt32.size)
    (fun identifier => ((identifier.segment.mostSignificantBits.toFin,
      identifier.segment.leastSignificantBits.toFin), identifier.recordNumber.toFin)) ?_
  rintro ⟨⟨most, least⟩, number⟩ ⟨⟨most', least'⟩, number'⟩ h
  obtain ⟨hsegment, hnumber⟩ := Prod.mk.inj h
  obtain ⟨hmost, hleast⟩ := Prod.mk.inj hsegment
  obtain rfl := UInt64.toFin_inj.mp hmost
  obtain rfl := UInt64.toFin_inj.mp hleast
  obtain rfl := UInt32.toFin_inj.mp hnumber
  rfl

/-- The text form: the segment, a dot and the number in hexadecimal. -/
def RecordIdentifier.display (record : RecordIdentifier) : String :=
  record.segment.display ++ "." ++ hex32 record.recordNumber

/-! ## Errors -/

/-- What a failing operation reports. -/
inductive Error where
  /-- Malformed segment-tar data. -/
  | invalidFormat (details : String)
  /-- A failed read or write of the file system. -/
  | inputOutput (details : String)
  /-- No archive contains the segment. -/
  | segmentNotFound (segmentIdentifier : SegmentIdentifier)
  /-- The content of a binary in an external blob store. -/
  | externalBinaryContentUnavailable (blobIdentifier : String)
  /-- The same, where the blob identifier is in a record of its own that was not read. -/
  | externalBinaryContentUnavailableByRecord (valueIdentifier : RecordIdentifier)
      (blobIdentifierRecord : RecordIdentifier)
deriving DecidableEq, Repr

/-- The text of an error inside another one. -/
def Error.display : Error → String
  | .invalidFormat details => s!"invalid segment-tar data: {details}"
  | .inputOutput details => s!"input/output error: {details}"
  | .segmentNotFound identifier => s!"segment {identifier.display} not found in any archive"
  | .externalBinaryContentUnavailable blobIdentifier =>
    s!"binary {blobIdentifier} is stored in an external blob store; only its identifier is available"
  | .externalBinaryContentUnavailableByRecord valueIdentifier blobIdentifierRecord =>
    s!"binary value {valueIdentifier.display} is stored in an external blob store; its identifier is held in record {blobIdentifierRecord.display} and was not read"

/-- The result of a fallible operation. -/
abbrev Result := Except Error

end Froe
