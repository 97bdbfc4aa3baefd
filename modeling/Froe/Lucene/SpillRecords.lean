import Froe.ExternalSort.Interleaved
import Froe.Lib.Cursor
import Froe.Lib.Grouping

/-!
# The records of an inversion

Postings and doc values are spilled as records with length prefixes.  A record reads back
from its encoding, and from no beginning of it.  The merged runs ascend by field, term and
document, or by value and document with the absent values first, so the records of one key
are next to each other and the rank of a value is the number of values the walk met before.
-/

namespace Froe.Inverted

open Reading SpillRecord

/-! ## Records -/

/-- One occurrence of a term, with its offsets. -/
structure PostingPosition where
  position : Int32
  startOffset : Int32
  endOffset : Int32
deriving DecidableEq, Repr

/-- The occurrences of a term in one document. -/
structure PostingRecord where
  field : Int32
  term : Bytes
  document : Int32
  frequency : Int32
  positions : List PostingPosition
deriving DecidableEq, Repr

/-- `none` is a document that does not carry the field. -/
structure ValueRecord where
  value : Option Bytes
  document : Int32
deriving DecidableEq, Repr

instance : Ord PostingPosition where
  compare := compareLex (compareOn PostingPosition.position)
    (compareLex (compareOn PostingPosition.startOffset) (compareOn PostingPosition.endOffset))

instance : Std.TransOrd PostingPosition :=
  inferInstanceAs (Std.TransCmp (compareLex _ (compareLex _ _)))

instance : Std.LawfulEqOrd PostingPosition where
  eq_of_compare := by
    intro a b h
    obtain ⟨hposition, h⟩ := compareLex_eq_eq.mp h
    obtain ⟨hstart, hend⟩ := compareLex_eq_eq.mp h
    cases a
    cases b
    rw [PostingPosition.mk.injEq]
    exact ⟨Std.LawfulEqCmp.eq_of_compare hposition, Std.LawfulEqCmp.eq_of_compare hstart,
      Std.LawfulEqCmp.eq_of_compare hend⟩

/-- The derived order: the fields one after the other. -/
def PostingRecord.cmp : PostingRecord → PostingRecord → Ordering :=
  compareLex (compareOn PostingRecord.field) (compareLex (compareOn PostingRecord.term)
    (compareLex (compareOn PostingRecord.document) (compareLex (compareOn PostingRecord.frequency)
      (compareOn PostingRecord.positions))))

/-- The derived order, in which an absent value is the least. -/
def ValueRecord.cmp : ValueRecord → ValueRecord → Ordering :=
  compareLex (compareOn ValueRecord.value) (compareOn ValueRecord.document)

instance : Std.TransCmp PostingRecord.cmp :=
  inferInstanceAs (Std.TransCmp (compareLex _ (compareLex _ (compareLex _ (compareLex _ _)))))

instance : Std.TransCmp ValueRecord.cmp := inferInstanceAs (Std.TransCmp (compareLex _ _))

/-! ## Encoding -/

/-- A 32-bit integer, most significant byte first. -/
def intBytes (x : Int32) : Bytes := Bytes.be32 x.toUInt32

/-- A length as it is cast to 32 bits. -/
def lengthBytes (length : Nat) : Bytes := Bytes.be32 (UInt32.ofNat length)

/-- The twelve bytes of an occurrence. -/
def PostingPosition.encode (position : PostingPosition) : Bytes :=
  intBytes position.position ++ (intBytes position.startOffset ++ intBytes position.endOffset)

/-- The bytes of a posting in a run. -/
def PostingRecord.encode (record : PostingRecord) : Bytes :=
  intBytes record.field ++ (lengthBytes record.term.length ++ (record.term ++
    (intBytes record.document ++ (intBytes record.frequency ++
      (lengthBytes record.positions.length ++ record.positions.flatMap PostingPosition.encode)))))

/-- What a posting is charged. -/
def PostingRecord.residentSize (record : PostingRecord) : Nat :=
  20 + record.term.length + record.positions.length * 12

/-- The bytes of a value in a run. -/
def ValueRecord.encode (record : ValueRecord) : Bytes :=
  let value := record.value.getD []
  (if record.value.isSome then 1 else 0) :: (lengthBytes value.length ++
    (value ++ intBytes record.document))

/-- What a value is charged. -/
def ValueRecord.residentSize (record : ValueRecord) : Nat :=
  9 + (record.value.map List.length).getD 0

/-! ## Decoding -/

namespace ByteReader

/-- The error for a record that ends too early. -/
def tooShort (reader : Cursor) (count : Nat) : SortError :=
  .invalidFormat (s!"a spilled record is {reader.fileLength} bytes and " ++
    s!"{count} more were asked for at {reader.position}")

/-- A count that no memory holds overflows the sum and panics in the code, here it is refused
as one past the end. -/
def take (count : Nat) : Reader SortError Bytes := do
  let reader ← get
  if reader.fileLength < reader.position + count then throw (tooShort reader count)
  else
    let taken := reader.rest.take count
    set (reader.past taken (reader.rest.drop count))
    return taken

/-- Reads a 32-bit integer. -/
def int : Reader SortError Int32 := do
  let bytes ← take 4
  return (UInt32.ofNat (Bytes.ofBe bytes)).toInt32

/-- An `i32` as `usize`, with its sign extended. -/
def asUsize (x : Int32) : Nat := (x.toInt % 2 ^ 64).toNat

end ByteReader

open ByteReader

/-- Reads an occurrence. -/
def PostingPosition.read : Reader SortError PostingPosition := do
  let position ← int
  let startOffset ← int
  let endOffset ← int
  return ⟨position, startOffset, endOffset⟩

/-- Reads a posting. -/
def PostingRecord.read : Reader SortError PostingRecord := do
  let field ← int
  let termLength ← int
  let term ← take (asUsize termLength)
  let document ← int
  let frequency ← int
  let count ← int
  let positions ← times PostingPosition.read (asUsize count)
  return ⟨field, term, document, frequency, positions⟩

/-- Reads a value. -/
def ValueRecord.read : Reader SortError ValueRecord := do
  let tag ← take 1
  let length ← int
  let value ← take (asUsize length)
  let document ← int
  return ⟨if tag = [1] then some value else none, document⟩

/-- The record at the start of some bytes.  What follows it is not looked at. -/
def decodeWith {Record : Type} (read : Reader SortError Record) (bytes : Bytes) :
    Except SortError Record :=
  (read.run (.start "" bytes)).map Prod.fst

/-- Decodes a posting, all of its bytes. -/
def PostingRecord.decode : Bytes → Except SortError PostingRecord := decodeWith read

/-- Decodes a value, all of its bytes. -/
def ValueRecord.decode : Bytes → Except SortError ValueRecord := decodeWith read

/-! ## Reading back -/

/-- The lengths of a record are positive as 32-bit integers. -/
def PostingRecord.Fits (record : PostingRecord) : Prop :=
  record.term.length < 2 ^ 31 ∧ record.positions.length < 2 ^ 31

/-- The length of the value fits its field. -/
def ValueRecord.Fits (record : ValueRecord) : Prop := (record.value.getD []).length < 2 ^ 31

instance (record : PostingRecord) : Decidable record.Fits := inferInstanceAs (Decidable (_ ∧ _))

instance (record : ValueRecord) : Decidable record.Fits := Nat.decLt _ _

namespace ByteReader

theorem take_ok {reader : Cursor} {count : Nat}
    (h : ¬ reader.fileLength < reader.position + count) :
    (take count).run reader =
      .ok (reader.rest.take count, reader.past (reader.rest.take count) (reader.rest.drop count)) := by
  rw [take, StateT.run_bind, StateT.run_get, pure_bind]
  dsimp only
  rw [if_neg h]
  rfl

theorem take_error {reader : Cursor} {count : Nat}
    (h : reader.fileLength < reader.position + count) :
    (take count).run reader = .error (tooShort reader count) := by
  rw [take, StateT.run_bind, StateT.run_get, pure_bind]
  dsimp only
  rw [if_pos h]
  rfl

theorem reads_take (bytes : Bytes) : ReadsExactly (take bytes.length) bytes bytes := by
  constructor
  · intro fileName position rest
    have hlength : ¬ position + (bytes ++ rest).length < position + bytes.length := by
      rw [List.length_append]
      omega
    rw [take_ok hlength, List.take_left, List.drop_left]
    rfl
  · intro fileName position n hn
    have hlength : position + (bytes.take n).length < position + bytes.length := by
      rw [List.length_take]
      omega
    exact ⟨_, take_error hlength⟩

theorem reads_int (x : Int32) : ReadsExactly int (intBytes x) x := by
  have htake : ReadsExactly (take 4) (intBytes x) (intBytes x) := reads_take (intBytes x)
  refine htake.andThen ?_
  rw [intBytes, Bytes.ofNat_ofBe_be32, Int32.toInt32_toUInt32]
  exact readsExactly_pure x

/-- A length that is positive as a 32-bit integer. -/
theorem reads_length {length : Nat} (h : length < 2 ^ 31) :
    ReadsExactly int (lengthBytes length) (Int32.ofNat length) ∧
      asUsize (Int32.ofNat length) = length := by
  refine ⟨reads_int (Int32.ofNat length), ?_⟩
  rw [asUsize, Int32.toInt_ofNat_of_lt h]
  omega

end ByteReader

theorem PostingPosition.reads (position : PostingPosition) :
    ReadsExactly read position.encode position :=
  (reads_int _).bind ((reads_int _).bind ((reads_int _).andThen (readsExactly_pure _)))

theorem PostingRecord.reads {record : PostingRecord} (h : record.Fits) :
    ReadsExactly read record.encode record := by
  obtain ⟨hterm, htermLength⟩ := reads_length h.1
  obtain ⟨hcount, hpositions⟩ := reads_length h.2
  have htimes := @readsExactly_times _ _ _ PostingPosition.read PostingPosition.encode id
    record.positions fun position _ => position.reads
  rw [List.map_id] at htimes
  refine (reads_int _).bind (hterm.bind ?_)
  rw [htermLength]
  refine (reads_take _).bind ((reads_int _).bind ((reads_int _).bind (hcount.bind ?_)))
  rw [hpositions]
  exact htimes.andThen (readsExactly_pure _)

theorem ValueRecord.reads {record : ValueRecord} (h : record.Fits) :
    ReadsExactly read record.encode record := by
  obtain ⟨value, document⟩ := record
  obtain ⟨hlength, hvalue⟩ := reads_length h
  have htail : ∀ tag : Bytes, ReadsExactly (do
      let length ← int
      let value ← take (asUsize length)
      let document ← int
      return (⟨if tag = [1] then some value else none, document⟩ : ValueRecord))
      (lengthBytes (value.getD []).length ++ (value.getD [] ++ intBytes document))
      ⟨if tag = [1] then some (value.getD []) else none, document⟩ := by
    intro tag
    refine hlength.bind ?_
    rw [hvalue]
    exact (reads_take _).bind ((reads_int _).andThen (readsExactly_pure _))
  cases value with
  | none => exact (reads_take [0]).bind (htail [0])
  | some value => exact (reads_take [1]).bind (htail [1])

section

variable {Record : Type} {read : Reader SortError Record} {bytes : Bytes} {record : Record}

section

variable (h : ReadsExactly read bytes record)
include h

theorem decodeWith_append (rest : Bytes) :
    decodeWith read (bytes ++ rest) = .ok record := by
  rw [decodeWith, Cursor.start, h.reads]
  rfl

theorem decodeWith_encoded :
    decodeWith read bytes = .ok record := by
  have hdecode := decodeWith_append h []
  rwa [List.append_nil] at hdecode

theorem decodeWith_early {n : Nat} (hn : n < bytes.length) :
    ∃ error, decodeWith read (bytes.take n) = .error error := by
  obtain ⟨error, herror⟩ := h.early "" 0 n hn
  refine ⟨error, ?_⟩
  rw [decodeWith, Cursor.start, herror]
  rfl

end

end

/-! ## Sorting -/

/-- Postings that the spill format can hold. -/
abbrev SpilledPosting := { record : PostingRecord // record.Fits }

/-- A value that a run can hold. -/
abbrev SpilledValue := { record : ValueRecord // record.Fits }

/-- A length that is not positive as a 32-bit integer is past the end of every record. -/
def fitting {Record : Type} (fits : Record → Prop) [DecidablePred fits] (record : Record) :
    Except SortError { record : Record // fits record } :=
  if h : fits record then .ok ⟨record, h⟩
  else .error (.invalidFormat "a spilled record holds a negative length")

theorem fitting_of_fits {Record : Type} {fits : Record → Prop} [DecidablePred fits]
    (record : { record : Record // fits record }) : fitting fits record.val = .ok record :=
  dif_pos record.property

instance : SpillRecord SpilledPosting where
  cmp a b := PostingRecord.cmp a.val b.val
  encode record := record.val.encode
  decode bytes := PostingRecord.decode bytes >>= fitting PostingRecord.Fits
  residentSize record := record.val.residentSize
  sortUnstable records := records.insertionSort fun a b => (PostingRecord.cmp a.val b.val).isLE

instance : SpillRecord SpilledValue where
  cmp a b := ValueRecord.cmp a.val b.val
  encode record := record.val.encode
  decode bytes := ValueRecord.decode bytes >>= fitting ValueRecord.Fits
  residentSize record := record.val.residentSize
  sortUnstable records := records.insertionSort fun a b => (ValueRecord.cmp a.val b.val).isLE

theorem transCmp_val {Record : Type} {fits : Record → Prop} (cmp : Record → Record → Ordering)
    [Std.TransCmp cmp] :
    Std.TransCmp fun a b : { record : Record // fits record } => cmp a.val b.val where
  eq_swap := Std.OrientedCmp.eq_swap
  isLE_trans := Std.TransCmp.isLE_trans

instance : LawfulSpillRecord SpilledPosting where
  transCmp := transCmp_val PostingRecord.cmp
  decode_encode record _ := by
    refine Except.bind_ok_iff.mpr ⟨record.val, ?_, fitting_of_fits record⟩
    exact decodeWith_encoded (PostingRecord.reads record.property)
  sort_perm records := List.perm_insertionSort _ records
  sort_ascending records :=
    have := @transCmp_val _ PostingRecord.Fits PostingRecord.cmp _
    List.pairwise_insertionSort_cmp records

instance : LawfulSpillRecord SpilledValue where
  transCmp := transCmp_val ValueRecord.cmp
  decode_encode record _ := by
    refine Except.bind_ok_iff.mpr ⟨record.val, ?_, fitting_of_fits record⟩
    exact decodeWith_encoded (ValueRecord.reads record.property)
  sort_perm records := List.perm_insertionSort _ records
  sort_ascending records :=
    have := @transCmp_val _ ValueRecord.Fits ValueRecord.cmp _
    List.pairwise_insertionSort_cmp records

/-! ## The keys of postings -/

/-- What the postings of one term share. -/
def PostingRecord.termKey (record : PostingRecord) : Int32 × Bytes := (record.field, record.term)

/-- What postings are sorted by. -/
def PostingRecord.documentKey (record : PostingRecord) : (Int32 × Bytes) × Int32 :=
  (record.termKey, record.document)

/-- The order of terms. -/
abbrev termCmp : Int32 × Bytes → Int32 × Bytes → Ordering := List.pairCmp compare compare

/-- The order of postings. -/
abbrev documentCmp : (Int32 × Bytes) × Int32 → (Int32 × Bytes) × Int32 → Ordering :=
  List.pairCmp termCmp compare

theorem PostingRecord.cmp_eq (a b : PostingRecord) :
    PostingRecord.cmp a b = (documentCmp a.documentKey b.documentKey).then
      (compareLex (compareOn PostingRecord.frequency) (compareOn PostingRecord.positions) a b) := by
  change _ = (((compare a.field b.field).then (compare a.term b.term)).then
    (compare a.document b.document)).then _
  rw [Ordering.then_assoc, Ordering.then_assoc]
  rfl

/-- What the sort makes of postings. -/
structure PostingsGrouped (records : List PostingRecord) : Prop where
  ascending : records.AscendsBy documentCmp PostingRecord.documentKey
  fields : records.Adjacent PostingRecord.field
  terms : records.Adjacent PostingRecord.termKey
  documents : records.Adjacent PostingRecord.documentKey
  startedOnce : (List.startsFrom none (records.map PostingRecord.termKey)).Nodup

theorem postingsGrouped {records : List PostingRecord}
    (h : records.Pairwise fun a b => (PostingRecord.cmp a b).isLE) : PostingsGrouped records := by
  have hdocuments : records.AscendsBy documentCmp PostingRecord.documentKey := by
    refine h.imp fun {a b} hle => ?_
    rw [PostingRecord.cmp_eq] at hle
    exact Ordering.isLE_left_of_isLE_then hle
  have hterms : records.AscendsBy termCmp PostingRecord.termKey :=
    hdocuments.imp Ordering.isLE_left_of_isLE_then
  have hfields : records.AscendsBy compare PostingRecord.field :=
    hterms.imp Ordering.isLE_left_of_isLE_then
  exact ⟨hdocuments, hfields.adjacent, hterms.adjacent, hdocuments.adjacent,
    List.nodup_starts (List.pairwise_map.mpr hterms)⟩

/-! ## Dictionaries and ordinals -/

/-- The ordinal of a document with one value. -/
structure OrdinalRecord where
  document : Int32
  ordinal : Int
deriving DecidableEq, Repr

/-- One of the ordinals of a document. -/
structure SetOrdinalRecord where
  document : Int32
  ordinal : Int
deriving DecidableEq, Repr

/-- The ordinal of a document without a value. -/
def missingOrd : Int := -1

/-- The distinct values, as they are walked. -/
def walkDictionary (last : Option Bytes) : List ValueRecord → List Bytes
  | [] => []
  | ⟨none, _⟩ :: records => walkDictionary last records
  | ⟨some value, _⟩ :: records =>
    if last = some value then walkDictionary last records
    else value :: walkDictionary (some value) records

/-- The different values in order. -/
def dictionary (records : List ValueRecord) : List Bytes := walkDictionary none records

/-- The loop that ranks the values, with what it writes for an absent and for a present one. -/
def walkOrdinals {Ordinal : Type} (absent : Int32 → List Ordinal) (present : Int32 → Int → Ordinal)
    (ordinal : Int) (last : Option Bytes) : List ValueRecord → List Ordinal
  | [] => []
  | ⟨none, document⟩ :: records =>
    absent document ++ walkOrdinals absent present ordinal last records
  | ⟨some value, document⟩ :: records =>
    if last = some value then
      present document ordinal :: walkOrdinals absent present ordinal last records
    else
      present document (ordinal + 1) ::
        walkOrdinals absent present (ordinal + 1) (some value) records

/-- The ordinals of a `SORTED` field. -/
def sortedOrdinals (records : List ValueRecord) : List OrdinalRecord :=
  walkOrdinals (fun document => [⟨document, missingOrd⟩]) OrdinalRecord.mk (-1) none records

/-- The ordinals of a `SORTED_SET` field. -/
def setOrdinals (records : List ValueRecord) : List SetOrdinalRecord :=
  walkOrdinals (fun _ => []) SetOrdinalRecord.mk (-1) none records

theorem walkDictionary_eq (last : Option Bytes) (records : List ValueRecord) :
    walkDictionary last records = List.startsFrom last (records.filterMap ValueRecord.value) := by
  induction records generalizing last with
  | nil => rfl
  | cons record records ih =>
    obtain ⟨value, document⟩ := record
    cases value with
    | none => exact ih last
    | some value =>
      have hcons : List.filterMap ValueRecord.value (⟨some value, document⟩ :: records) =
          value :: records.filterMap ValueRecord.value := rfl
      rw [walkDictionary, hcons, List.startsFrom, ih, ih]

section

variable {Ordinal : Type} {absent : Int32 → List Ordinal} {present : Int32 → Int → Ordinal}
  {values : List Bytes}

/-- What a record gets by the rank of its value among some values. -/
def ranked (absent : Int32 → List Ordinal) (present : Int32 → Int → Ordinal) (values : List Bytes) :
    ValueRecord → List Ordinal
  | ⟨none, document⟩ => absent document
  | ⟨some value, document⟩ => [present document (values.idxOf value)]

/-- The loop stands behind some values, of which the last is the one that it remembers. -/
theorem walkOrdinals_eq {before : List Bytes} {last : Option Bytes} {records : List ValueRecord}
    (hvalues : values = before ++ walkDictionary last records) (hnodup : values.Nodup)
    (hlast : before.getLast? = last) :
    walkOrdinals absent present (before.length - 1) last records =
      records.flatMap (ranked absent present values) := by
  induction records generalizing before last with
  | nil => rfl
  | cons record records ih =>
    obtain ⟨value, document⟩ := record
    rw [List.flatMap_cons]
    cases value with
    | none => rw [walkOrdinals, ih hvalues hlast, ranked]
    | some value =>
      rw [walkDictionary] at hvalues
      rw [walkOrdinals, ranked]
      by_cases hsame : last = some value
      · rw [if_pos hsame] at hvalues ⊢
        obtain ⟨start, rfl⟩ := List.getLast?_eq_some_iff.mp (hlast.trans hsame)
        have hnotMem : value ∉ start := by
          rw [hvalues, List.append_assoc] at hnodup
          exact fun hmem => (List.nodup_append.mp hnodup).2.2 value hmem value (by simp) rfl
        have hidx : values.idxOf value = start.length := by
          rw [hvalues, List.append_assoc, List.idxOf_append_of_notMem hnotMem]
          simp
        rw [ih hvalues hlast, hidx, List.length_append, List.singleton_append]
        simp
      · rw [if_neg hsame] at hvalues ⊢
        have hvalues' : values = before ++ [value] ++ walkDictionary (some value) records := by
          rw [List.append_assoc]
          exact hvalues
        have hnotMem : value ∉ before := by
          rw [hvalues] at hnodup
          exact fun hmem => (List.nodup_append.mp hnodup).2.2 value hmem value (by simp) rfl
        have hidx : values.idxOf value = before.length := by
          rw [hvalues, List.idxOf_append_of_notMem hnotMem]
          simp
        have hih := ih hvalues' List.getLast?_concat
        rw [List.length_append, List.length_singleton] at hih
        rw [hidx, List.singleton_append, ← hih]
        congr 2
        all_goals omega

end

/-- What the sort makes of values. -/
structure ValuesGrouped (records : List ValueRecord) : Prop where
  values : records.Adjacent ValueRecord.value
  absentFirst : records.Pairwise fun a b => b.value = none → a.value = none
  ascending : (dictionary records).Pairwise fun a b => compare a b = .lt
  complete : ∀ value, value ∈ dictionary records ↔ ∃ record ∈ records, record.value = some value
  sorted : sortedOrdinals records = records.flatMap
    (ranked (fun document => [⟨document, missingOrd⟩]) OrdinalRecord.mk (dictionary records))
  set : setOrdinals records = records.flatMap
    (ranked (fun _ => []) SetOrdinalRecord.mk (dictionary records))

theorem valuesGrouped {records : List ValueRecord}
    (h : records.Pairwise fun a b => (ValueRecord.cmp a b).isLE) : ValuesGrouped records := by
  have hvalues : records.AscendsBy compare ValueRecord.value :=
    h.imp Ordering.isLE_left_of_isLE_then
  have hpresent : (records.filterMap ValueRecord.value).Pairwise fun a b => (compare a b).isLE := by
    refine List.Pairwise.filterMap _ (fun a b hle x hx y hy => ?_) hvalues
    rw [hx, hy] at hle
    exact hle
  have hwalk : dictionary records = List.startsFrom none (records.filterMap ValueRecord.value) :=
    walkDictionary_eq none records
  have hnodup : (dictionary records).Nodup := by
    rw [hwalk]
    exact List.nodup_starts hpresent
  refine ⟨hvalues.adjacent, hvalues.imp fun {a b} hle hb => ?_, ?_, fun value => ?_, ?_, ?_⟩
  · rw [hb] at hle
    cases ha : a.value with
    | none => rfl
    | some value =>
      rw [ha] at hle
      cases hle
  · rw [hwalk]
    exact List.pairwise_starts hpresent
  · rw [hwalk, List.mem_startsFrom_none, List.mem_filterMap]
  · exact walkOrdinals_eq (List.nil_append _).symm hnodup List.getLast?_nil
  · exact walkOrdinals_eq (List.nil_append _).symm hnodup List.getLast?_nil

/-! ## Runs -/

/-- The sorts of postings and those of values. -/
abbrev Spilled {ι κ : Type} : ι ⊕ κ → Type
  | .inl _ => SpilledPosting
  | .inr _ => SpilledValue

instance {ι κ : Type} : ∀ i : ι ⊕ κ, SpillRecord (Spilled i)
  | .inl _ => inferInstanceAs (SpillRecord SpilledPosting)
  | .inr _ => inferInstanceAs (SpillRecord SpilledValue)

instance {ι κ : Type} : ∀ i : ι ⊕ κ, LawfulSpillRecord (Spilled i)
  | .inl _ => inferInstanceAs (LawfulSpillRecord SpilledPosting)
  | .inr _ => inferInstanceAs (LawfulSpillRecord SpilledValue)

/-- A record whose lengths are positive as 32-bit integers reads back from its encoding, whatever
follows it, and from no beginning of it.  In every run of the sorts that meets their conditions,
the walk of a sort of postings or of values groups its records. -/
theorem spilledRecords :
    (∀ record : PostingRecord, record.Fits →
      (∀ rest, PostingRecord.decode (record.encode ++ rest) = .ok record) ∧
        ∀ n < record.encode.length, ∃ error,
          PostingRecord.decode (record.encode.take n) = .error error) ∧
    (∀ record : ValueRecord, record.Fits →
      (∀ rest, ValueRecord.decode (record.encode ++ rest) = .ok record) ∧
        ∀ n < record.encode.length, ∃ error,
          ValueRecord.decode (record.encode.take n) = .error error) ∧
    ∀ (ι κ : Type) [DecidableEq ι] [DecidableEq κ] (fanIn limit : Nat) (disk : Disk)
      (events : List (Σ i : ι ⊕ κ, SortCall (Spilled i))), 2 ≤ fanIn →
      (SortSystem.start limit disk).RunMeets fanIn events →
      (∀ i pass, (((SortSystem.start limit disk).run fanIn events).slots (.inl i)).stage.pass? =
          some pass →
        ∃ out ends,
          SortedWalk (((SortSystem.start limit disk).run fanIn events).slots (.inl i)).pushed
            (((SortSystem.start limit disk).run fanIn events).slots (.inl i)).results out ends ∧
          PostingsGrouped (out.map Subtype.val)) ∧
      ∀ k pass, (((SortSystem.start limit disk).run fanIn events).slots (.inr k)).stage.pass? =
          some pass →
        ∃ out ends,
          SortedWalk (((SortSystem.start limit disk).run fanIn events).slots (.inr k)).pushed
            (((SortSystem.start limit disk).run fanIn events).slots (.inr k)).results out ends ∧
          ValuesGrouped (out.map Subtype.val) := by
  refine ⟨fun record hfits => ?_, fun record hfits => ?_, ?_⟩
  · have hreads := PostingRecord.reads hfits
    exact ⟨decodeWith_append hreads, fun n hn => decodeWith_early hreads hn⟩
  · have hreads := ValueRecord.reads hfits
    exact ⟨decodeWith_append hreads, fun n hn => decodeWith_early hreads hn⟩
  · intro ι κ _ _ fanIn limit disk events hfanIn hmeets
    have hok := (SortSystem.ok_start limit disk).run hfanIn hmeets
    refine ⟨fun i pass hpass => ?_, fun k pass hpass => ?_⟩
    · obtain ⟨out, ends, hwalk⟩ := hok.walk hpass
      exact ⟨out, ends, hwalk, postingsGrouped (List.pairwise_map.mpr hwalk.ascending)⟩
    · obtain ⟨out, ends, hwalk⟩ := hok.walk hpass
      exact ⟨out, ends, hwalk, valuesGrouped (List.pairwise_map.mpr hwalk.ascending)⟩

/-- A posting with one occurrence. -/
def firstPosting : SpilledPosting := ⟨⟨0, [97], 3, 1, [⟨0, 0, 1⟩]⟩, by decide⟩

/-- A posting of a longer term in an earlier document. -/
def laterPosting : SpilledPosting := ⟨⟨0, [97, 98], 2, 1, []⟩, by decide⟩

def firstValue : SpilledValue := ⟨⟨none, 3⟩, by decide⟩

def laterValue : SpilledValue := ⟨⟨some [97], 1⟩, by decide⟩

/-- A sort of postings and one of values that spill in turn. -/
def spilledCalls : List (Σ i : Unit ⊕ Unit, SortCall (Spilled i)) :=
  [⟨.inl (), .create entriesLocation⟩, ⟨.inr (), .create nodesLocation⟩,
    ⟨.inl (), .push laterPosting⟩, ⟨.inr (), .push laterValue⟩, ⟨.inl (), .push firstPosting⟩,
    ⟨.inr (), .push firstValue⟩, ⟨.inl (), .intoSorted⟩, ⟨.inr (), .intoSorted⟩,
    ⟨.inl (), .next⟩, ⟨.inr (), .next⟩, ⟨.inl (), .next⟩, ⟨.inr (), .next⟩]

theorem spilledRecords_postings :
    PostingRecord.decode (firstPosting.val.encode ++ [7]) = .ok firstPosting.val ∧
      ValueRecord.decode (ValueRecord.encode ⟨some [], 4⟩ ++ []) = .ok ⟨some [], 4⟩ ∧
      let slots := ((SortSystem.start 1 (fun _ => none)).run 2 spilledCalls).slots
      (∃ out ends, SortedWalk [laterPosting, firstPosting] (slots (.inl ())).results out ends ∧
        PostingsGrouped (out.map Subtype.val)) ∧
      ∃ out ends, SortedWalk [laterValue, firstValue] (slots (.inr ())).results out ends ∧
        ValuesGrouped (out.map Subtype.val) := by
  obtain ⟨hpostings, hvalues, hruns⟩ := spilledRecords
  have hmeets : (SortSystem.start 1 (fun _ => none)).RunMeets 2 spilledCalls :=
    ⟨⟨fun _ _ => rfl, nofun⟩, ⟨fun _ _ => rfl, fun | .inl () => by decide | .inr () => by decide⟩,
      ⟨by decide, by decide +kernel⟩, ⟨by decide, by decide +kernel⟩,
      ⟨by decide, by decide +kernel⟩, ⟨by decide, by decide +kernel⟩, trivial, trivial, trivial,
      trivial, trivial, trivial, trivial⟩
  generalize hsystem : (SortSystem.start 1 (fun _ => none)).run 2 spilledCalls = system
  have hopen : (system.slots (.inl ())).stage.pass?.isSome ∧
      (system.slots (.inr ())).stage.pass?.isSome := by
    rw [← hsystem]
    decide +kernel
  have hpushed : (system.slots (.inl ())).pushed = [laterPosting, firstPosting] ∧
      (system.slots (.inr ())).pushed = [laterValue, firstValue] := by
    rw [← hsystem]
    decide +kernel
  obtain ⟨pass, hpass⟩ := Option.isSome_iff_exists.mp hopen.1
  obtain ⟨pass', hpass'⟩ := Option.isSome_iff_exists.mp hopen.2
  have hwalks := hruns Unit Unit 2 1 (fun _ => none) spilledCalls (by decide) hmeets
  rw [hsystem] at hwalks
  have hposting := hwalks.1 () pass hpass
  have hvalue := hwalks.2 () pass' hpass'
  rw [hpushed.1] at hposting
  rw [hpushed.2] at hvalue
  exact ⟨(hpostings _ firstPosting.property).1 [7], (hvalues ⟨some [], 4⟩ (by decide)).1 [],
    hposting, hvalue⟩

/-- One byte behind a record. -/
theorem decode_of_overLong :
    PostingRecord.decode ((PostingRecord.mk 0 [97] 3 1 [⟨0, 0, 1⟩]).encode ++ [7]) =
      .ok ⟨0, [97], 3, 1, [⟨0, 0, 1⟩]⟩ := by
  decide +kernel

end Froe.Inverted
