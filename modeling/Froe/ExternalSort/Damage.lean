import Froe.ExternalSort.Passes

/-!
# Damaged run files

A run file is a sequence of frames, each a length and the bytes of a record.  A reader
that finds fewer bytes than a length takes has come to the end of the run, whether
there are none or some.  So a file that is cut off inside a length is read as a shorter
run, and only one that is cut off inside a record is an error.
-/

namespace Froe

open List (append_assoc length_append)

open SpillRecord

variable {Record : Type} [SpillRecord Record]

/-- Reads a run record by record.  Every record is some bytes of the file, which bound the number
of rounds. -/
def RunCursor.readAll (Record : Type) [SpillRecord Record] :
    Nat → RunCursor → Except SortError (List Record)
  | 0, _ => .ok []
  | rounds + 1, cursor =>
    match cursor.nextRecord Record with
    | (.error error, _) => .error error
    | (.ok none, _) => .ok []
    | (.ok (some record), cursor) => do
      let records ← RunCursor.readAll Record rounds cursor
      return record :: records

open RunCursor (nextRecord readAll)

def readRunFile (Record : Type) [SpillRecord Record] (disk : Disk) (path : RunPath) :
    Except SortError (List Record) := do
  let cursor ← RunCursor.open disk path
  cursor.readAll Record ((cursor.reader.getD []).length + 1)

def frame (record : Record) : Bytes :=
  (Bytes.be 4 (encode record).length).reverse ++ encode record

/-- The ends of the records of a run. -/
def IsBoundary (records : List Record) (cut : Nat) : Prop :=
  ∃ before after, records = before ++ after ∧ cut = (encodeRun before).length

def InsideLength (records : List Record) (cut : Nat) : Prop :=
  ∃ before record after, records = before ++ record :: after ∧
    (encodeRun before).length < cut ∧ cut < (encodeRun before).length + 4

instance (records : List Record) (cut : Nat) : Decidable (IsBoundary records cut) :=
  decidable_of_iff (∃ count ≤ records.length, cut = (encodeRun (records.take count)).length) <| by
    constructor
    · rintro ⟨count, -, hcut⟩
      exact ⟨_, _, (List.take_append_drop count records).symm, hcut⟩
    · rintro ⟨before, after, rfl, hcut⟩
      refine ⟨before.length, ?_, ?_⟩
      · rw [List.length_append]
        exact Nat.le_add_right _ _
      · rwa [List.take_left]

instance (records : List Record) (cut : Nat) : Decidable (InsideLength records cut) :=
  decidable_of_iff (∃ count < records.length, (encodeRun (records.take count)).length < cut ∧
    cut < (encodeRun (records.take count)).length + 4) <| by
    constructor
    · rintro ⟨count, hcount, hcut⟩
      refine ⟨records.take count, records[count], records.drop (count + 1), ?_, hcut⟩
      rw [← List.drop_eq_getElem_cons hcount, List.take_append_drop]
    · rintro ⟨before, record, after, rfl, hcut⟩
      refine ⟨before.length, ?_, ?_⟩
      · rw [List.length_append, List.length_cons]
        omega
      · rwa [List.take_left]

/-- The file of a run that is cut off. -/
def truncated (written : Disk) (path : RunPath) (cut : Nat) : Disk :=
  Function.update written path ((written path).map (List.take cut))

/-! ## Frames -/

theorem encodeRun_nil : encodeRun ([] : List Record) = [] := rfl

theorem encodeRun_cons (record : Record) (records : List Record) :
    encodeRun (record :: records) = frame record ++ encodeRun records :=
  List.flatMap_cons

theorem encodeRun_append (before after : List Record) :
    encodeRun (before ++ after) = encodeRun before ++ encodeRun after :=
  List.flatMap_append

theorem length_lengthBytes (n : Nat) : ((Bytes.be 4 n).reverse).length = 4 := by
  rw [List.length_reverse, Bytes.length_be]

theorem length_frame (record : Record) : (frame record).length = 4 + (encode record).length := by
  rw [frame, length_append, length_lengthBytes]

/-- Fewer bytes than a length takes are the end. -/
theorem nextRecord_short {path : RunPath} {bytes : Bytes} (h : bytes.length < 4) :
    nextRecord Record ⟨path, some bytes⟩ = (.ok none, ⟨path, none⟩) := by
  rw [nextRecord]
  dsimp only
  rw [if_pos h]

variable {record : Record} {kept : Nat} {records before after : List Record}

theorem nextRecord_frame [LawfulSpillRecord Record] (hfits : Fits record)
    (path : RunPath) (rest : Bytes) :
    nextRecord Record ⟨path, some (frame record ++ rest)⟩ =
      (.ok (some record), ⟨path, some rest⟩) := by
  have hfour := length_lengthBytes (encode record).length
  have hlength : Bytes.ofBe (Bytes.be 4 (encode record).length) = (encode record).length :=
    Bytes.ofBe_be_of_lt hfits
  rw [nextRecord, frame, append_assoc]
  dsimp only
  rw [if_neg (by rw [length_append, hfour]; omega),
    List.take_append_of_le_length hfour.ge, List.take_of_length_le hfour.le, List.reverse_reverse,
    hlength, List.drop_append_of_le_length hfour.ge, List.drop_of_length_le hfour.le,
    List.nil_append, if_neg (by rw [length_append]; omega), List.take_left, List.drop_left,
    LawfulSpillRecord.decode_encode record hfits]
  rfl

/-- A length without all of its bytes behind it is an error. -/
theorem nextRecord_torn (hfits : Fits record) (path : RunPath)
    (hlong : 4 ≤ kept) (htorn : kept < (frame record).length) :
    (nextRecord Record ⟨path, some ((frame record).take kept)⟩).1 =
      .error .unexpectedEof := by
  have hfour := length_lengthBytes (encode record).length
  have hlength : Bytes.ofBe (Bytes.be 4 (encode record).length) = (encode record).length :=
    Bytes.ofBe_be_of_lt hfits
  rw [length_frame] at htorn
  rw [nextRecord]
  dsimp only
  rw [if_neg (by rw [List.length_take, length_frame]; omega), List.take_take,
    Nat.min_eq_left hlong, frame, List.take_append_of_le_length hfour.ge,
    List.take_of_length_le hfour.le, List.reverse_reverse, hlength,
    if_pos (by rw [List.length_drop, List.length_take, length_append, hfour]; omega)]

/-! ## Cutting a run off -/

variable [LawfulSpillRecord Record]

section

variable (hfits : ∀ record ∈ records, Fits record) (path : RunPath) {rounds : Nat}
include hfits

/-- A run with less than a length behind it is read without that. -/
theorem readAll_short {rest : Bytes} (hrest : rest.length < 4)
    (hrounds : (encodeRun records ++ rest).length < rounds) :
    readAll Record rounds ⟨path, some (encodeRun records ++ rest)⟩ = .ok records := by
  induction records generalizing rounds with
  | nil =>
    cases rounds with
    | zero => exact absurd hrounds (Nat.not_lt_zero _)
    | succ rounds =>
      rw [readAll, encodeRun_nil, List.nil_append, nextRecord_short hrest]
  | cons record records ih =>
    rw [List.forall_mem_cons] at hfits
    cases rounds with
    | zero => exact absurd hrounds (Nat.not_lt_zero _)
    | succ rounds =>
      rw [encodeRun_cons, append_assoc, length_append, length_frame] at hrounds
      rw [readAll, encodeRun_cons, append_assoc, nextRecord_frame hfits.1]
      dsimp only
      rw [ih hfits.2 (by omega)]
      rfl

/-- A run with a torn record behind it is an error. -/
theorem readAll_torn (hrecord : Fits record) (hlong : 4 ≤ kept)
    (htorn : kept < (frame record).length)
    (hrounds : (encodeRun records ++ (frame record).take kept).length < rounds) :
    readAll Record rounds ⟨path, some (encodeRun records ++ (frame record).take kept)⟩ =
      .error .unexpectedEof := by
  induction records generalizing rounds with
  | nil =>
    cases rounds with
    | zero => exact absurd hrounds (Nat.not_lt_zero _)
    | succ rounds =>
      have hnext := nextRecord_torn hrecord path hlong htorn
      rw [readAll, encodeRun_nil, List.nil_append]
      revert hnext
      cases nextRecord Record ⟨path, some ((frame record).take kept)⟩ with
      | mk result cursor =>
        rintro rfl
        rfl
  | cons first records ih =>
    rw [List.forall_mem_cons] at hfits
    cases rounds with
    | zero => exact absurd hrounds (Nat.not_lt_zero _)
    | succ rounds =>
      rw [encodeRun_cons, append_assoc, length_append, length_frame] at hrounds
      rw [readAll, encodeRun_cons, append_assoc, nextRecord_frame hfits.1]
      dsimp only
      rw [ih hfits.2 (by omega)]
      rfl

end

omit [LawfulSpillRecord Record] in
/-- Where a run is cut off: behind some records and inside the next, or at its end. -/
theorem cut_cases (records : List Record) {cut : Nat} (hcut : cut ≤ (encodeRun records).length) :
    cut = (encodeRun records).length ∨
      ∃ before record after kept, records = before ++ record :: after ∧
        cut = (encodeRun before).length + kept ∧ kept < (frame record).length := by
  induction records generalizing cut with
  | nil => exact .inl (Nat.le_zero.mp hcut)
  | cons record records ih =>
    rw [encodeRun_cons, length_append] at hcut ⊢
    rcases Nat.lt_or_ge cut (frame record).length with hin | hout
    · exact .inr ⟨[], record, records, cut, rfl, (Nat.zero_add _).symm, hin⟩
    · rcases @ih (cut - (frame record).length) (by omega) with hend | hinside
      · exact .inl (by omega)
      · obtain ⟨before, next, after, kept, rfl, hcut', hkept⟩ := hinside
        refine .inr ⟨record :: before, next, after, kept, rfl, ?_, hkept⟩
        rw [encodeRun_cons, length_append]
        omega

omit [LawfulSpillRecord Record] in
theorem take_encodeRun (hkept : kept < (frame record).length) :
    (encodeRun (before ++ record :: after)).take ((encodeRun before).length + kept) =
      encodeRun before ++ (frame record).take kept := by
  rw [encodeRun_append, encodeRun_cons, List.take_length_add_append,
    List.take_append_of_le_length hkept.le]

omit [LawfulSpillRecord Record] in
theorem not_insideLength (hlong : 4 ≤ kept) (hkept : kept < (frame record).length) :
    ¬ InsideLength (before ++ record :: after) ((encodeRun before).length + kept) := by
  rintro ⟨other, next, rest, hsame, hlow, hhigh⟩
  rcases List.append_eq_append_iff.mp hsame with ⟨more, rfl, hmore⟩ | ⟨more, rfl, hmore⟩
  · rw [encodeRun_append, length_append] at hlow hhigh
    cases more with
    | nil =>
      rw [encodeRun_nil, List.length_nil] at hhigh
      omega
    | cons first more =>
      rw [List.cons_append, List.cons.injEq] at hmore
      rw [encodeRun_cons, length_append, ← hmore.1] at hlow
      omega
  · rw [encodeRun_append, length_append] at hlow hhigh
    cases more with
    | nil =>
      rw [encodeRun_nil, List.length_nil] at hhigh
      omega
    | cons first more =>
      rw [encodeRun_cons, length_append, length_frame] at hhigh
      omega

/-- A run that is cut off inside a record cannot be read, and one that is cut off inside a length
is read as a shorter one. -/
theorem readRunFile_truncated {written : Disk} {path : RunPath}
    (hfits : ∀ record ∈ records, Fits record) (hwritten : written path = some (encodeRun records))
    {cut : Nat} (hcut : cut ≤ (encodeRun records).length) (hnot : ¬ IsBoundary records cut) :
    InsideLength records cut ∧ (∃ before, before <+: records ∧ before ≠ records ∧
        readRunFile Record (truncated written path cut) path = .ok before) ∨
      ¬ InsideLength records cut ∧
        readRunFile Record (truncated written path cut) path = .error .unexpectedEof := by
  have hread : readRunFile Record (truncated written path cut) path =
      readAll Record (((encodeRun records).take cut).length + 1)
        ⟨path, some ((encodeRun records).take cut)⟩ := by
    rw [readRunFile, RunCursor.open, truncated, Function.update_self, hwritten]
    rfl
  rcases cut_cases records hcut with hend | ⟨before, record, after, kept, rfl, hkept, hlt⟩
  · exact absurd ⟨records, [], (List.append_nil records).symm, hend⟩ hnot
  · rw [List.forall_mem_append, List.forall_mem_cons] at hfits
    have hpos : kept ≠ 0 := by
      rintro rfl
      exact hnot ⟨before, record :: after, rfl, hkept⟩
    rw [hread, hkept, take_encodeRun hlt]
    rcases Nat.lt_or_ge kept 4 with hshort | hlong
    · refine .inl ⟨⟨before, record, after, rfl, by omega, by omega⟩, before,
        List.prefix_append .., ?_, ?_⟩
      · intro heq
        have hlength := congrArg List.length heq
        rw [length_append, List.length_cons] at hlength
        omega
      · exact readAll_short hfits.1 path (by rw [List.length_take]; omega) (Nat.lt_succ_self _)
    · exact .inr ⟨not_insideLength hlong hlt,
        readAll_torn hfits.1 path hfits.2.1 hlong hlt (Nat.lt_succ_self _)⟩

end Froe
