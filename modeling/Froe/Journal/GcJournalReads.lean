import Froe.Journal.Crash
import Froe.Journal.GcJournal

/-!
# Reading the garbage-collection journal back

A line that was appended to an empty file or behind a line break is read back as
the report it was written from, however the file is delivered.  Appending does
not look at the end of the file: behind a line that a crash cut off, the next
line joins it, and the joined line is read as another entry.
-/

namespace Froe

open Utf16 (charUtf16)

open Option (bind_eq_bind bind_some)
open Except (foldlM_cons_ok_iff ok_bind_eq pure_ok_iff)
open List (append_assoc append_nil forall_mem_cons length_append map_append map_cons mem_map)
open Digits (padded parseFrom)
open Utf8 (decodeLossy)

/-! ## Numbers -/

/-- The characters of some ASCII bytes. -/
def asciiChars (b : Bytes) : List Char := b.map fun x => Char.ofNat x.toNat

theorem toList_ascii (b : Bytes) : (Utf8.ascii b).toList = asciiChars b :=
  String.toList_ofList

variable {n : Nat} {b file tail : Bytes} {fields : JavaSplitFields}
  {report : GarbageCollectionReport} {reports : List GarbageCollectionReport}

theorem toNat_charOfNat (h : n < 128) : (Char.ofNat n).toNat = n :=
  Utf8.ofNat_toNat (.inl (by omega))

theorem charUtf16_ascii {x : UInt8} (h : x.toNat < 128) :
    charUtf16 (Char.ofNat x.toNat) = [UInt16.ofNat x.toNat] := by
  rw [charUtf16, toNat_charOfNat h, if_pos (by omega)]

theorem utf16_asciiChars (h : ∀ x ∈ b, x.toNat < 128) :
    (asciiChars b).flatMap charUtf16 = b.map fun x => UInt16.ofNat x.toNat := by
  induction b with
  | nil => rfl
  | cons x b ih =>
    rw [forall_mem_cons] at h
    rw [asciiChars, map_cons, List.flatMap_cons, charUtf16_ascii h.1, map_cons]
    exact congrArg _ (ih h.2)

/-- The digits of the ten ASCII digits. -/
theorem javaDecimalDigit_of_digit? {x : UInt8} {d : Nat} (h : Digits.digit? 10 x = some d) :
    javaDecimalDigit (UInt16.ofNat x.toNat) = some (UInt16.ofNat d) ∧ d < 10 ∧ x.toNat < 128 ∧
      x ≠ 45 ∧ x ≠ 43 := by
  simp only [Digits.digit?, Option.ite_none_right_eq_some] at h
  obtain ⟨⟨hrange, hdigit⟩, hd⟩ := h
  have hlt : x.toNat < 58 := by
    by_contra hge
    rw [if_neg hge] at hdigit
    omega
  rw [if_pos hlt] at hd hdigit
  have hx : x.toNat = 48 + d := by
    have := Option.some.inj hd
    omega
  have hall : ∀ n : Fin 10, javaDecimalDigit (UInt16.ofNat (48 + n)) = some (UInt16.ofNat n) := by
    decide
  refine ⟨?_, by omega, by omega, ?_, ?_⟩
  · rw [hx]
    exact hall ⟨d, by omega⟩
  · rintro rfl
    exact absurd hx (by simp; omega)
  · rintro rfl
    exact absurd hx (by simp; omega)

theorem parseFrom_ge {m : Nat} (h : parseFrom 10 n b = some m) : n ≤ m := by
  induction b generalizing n with
  | nil => exact (Option.some.inj h).le
  | cons x b ih =>
    rw [parseFrom, Option.bind_eq_some_iff] at h
    obtain ⟨d, -, hrest⟩ := h
    have := ih hrest
    omega

/-- Java's loop reads a digit string. -/
theorem accumulateDecimal_of_parseFrom {m : Nat}
    (h : parseFrom 10 n b = some m) (hm : m < 2 ^ 127) :
    accumulateDecimal n (b.map fun x => UInt16.ofNat x.toNat) = some (m : Int) := by
  induction b generalizing n with
  | nil =>
    rw [← Option.some.inj h]
    rfl
  | cons x b ih =>
    rw [parseFrom, Option.bind_eq_some_iff] at h
    obtain ⟨d, hd, hrest⟩ := h
    obtain ⟨hdigit, hten, -⟩ := javaDecimalDigit_of_digit? hd
    have hge := parseFrom_ge hrest
    have hnat : (UInt16.ofNat d).toNat = d := by
      rw [UInt16.toNat_ofNat']
      omega
    have hnext : (n : Int) * 10 + ((UInt16.ofNat d).toNat : Int) = ((n * 10 + d : Nat) : Int) := by
      rw [hnat]
      push_cast
      rfl
    rw [map_cons, accumulateDecimal, hdigit, bind_eq_bind, bind_some]
    dsimp only
    rw [hnext, if_pos (by omega)]
    exact ih hrest

/-- Java reads a digit string. -/
theorem parseJavaSignedDecimal_digits {minimum maximum : Int} (hne : b ≠ [])
    (hparse : Digits.parse 10 b = some n) (hmin : minimum ≤ n) (hmax : (n : Int) ≤ maximum)
    (hbound : n < 2 ^ 127) :
    parseJavaSignedDecimal (asciiChars b) minimum maximum = some (n : Int) := by
  have hascii : ∀ x ∈ b, x.toNat < 128 := by
    intro x hx
    obtain ⟨d, hd⟩ := Digits.parse_mem hparse hx
    exact (javaDecimalDigit_of_digit? hd).2.2.1
  obtain ⟨first, rest, rfl⟩ := List.exists_cons_of_ne_nil hne
  obtain ⟨d, hd, hrest⟩ := Option.bind_eq_some_iff.mp hparse
  obtain ⟨hdigit, hten, hfirst, hminus, hplus⟩ := javaDecimalDigit_of_digit? hd
  rw [Nat.zero_mul, Nat.zero_add] at hrest
  have haccumulate := accumulateDecimal_of_parseFrom hrest hbound
  have hnat : (UInt16.ofNat d).toNat = d := by
    rw [UInt16.toNat_ofNat']
    omega
  have hunit : ∀ c : UInt8, first ≠ c →
      (UInt16.ofNat first.toNat == UInt16.ofNat c.toNat) = false := by
    intro c hne
    refine beq_false_of_ne fun heq => hne (UInt8.toNat_inj.mp ?_)
    have hsame := congrArg UInt16.toNat heq
    have hlt := first.toNat_lt
    have hlt' := c.toNat_lt
    rw [UInt16.toNat_ofNat', UInt16.toNat_ofNat'] at hsame
    omega
  rw [parseJavaSignedDecimal, utf16_asciiChars hascii, map_cons]
  dsimp only
  rw [show ((45 : UInt16)) = UInt16.ofNat (45 : UInt8).toNat from rfl,
    show ((43 : UInt16)) = UInt16.ofNat (43 : UInt8).toNat from rfl, hunit 45 hminus,
    hunit 43 hplus]
  simp only [Bool.or_self, Bool.false_eq_true, if_false, false_and, hdigit, Option.map_some, hnat,
    bind_eq_bind, bind_some, haccumulate]
  rw [if_pos ⟨hmin, hmax⟩]

/-- Java reads a decimal number back. -/
theorem parseJavaSignedDecimal_decimalBytes {z minimum maximum : Int} (hmin : minimum ≤ z)
    (hmax : z ≤ maximum) (hbound : z.natAbs < 2 ^ 127) :
    parseJavaSignedDecimal (asciiChars (decimalBytes z)) minimum maximum = some z := by
  have hparse := @Digits.parse_padded 10 (by decide) (by decide) 1 z.natAbs
  by_cases hneg : z < 0
  · have hascii : ∀ x ∈ padded 10 1 z.natAbs, x.toNat < 128 := fun x hx =>
      lt_trans (digits_of_padded x hx).2 (by decide)
    have haccumulate := accumulateDecimal_of_parseFrom hparse hbound
    have hne : (padded 10 1 z.natAbs).map (fun x => UInt16.ofNat x.toNat) ≠ [] := by
      rw [Ne, List.map_eq_nil_iff]
      exact padded_ne_nil _
    rw [decimalBytes, if_pos hneg, parseJavaSignedDecimal, utf16_asciiChars
      (forall_mem_cons.mpr ⟨by decide, hascii⟩), map_cons]
    have hminus : (UInt16.ofNat (45 : UInt8).toNat == 45) = true := rfl
    have hzero : accumulateDecimal ((0 : Nat) : Int)
        ((padded 10 1 z.natAbs).map fun x => UInt16.ofNat x.toNat) =
      some (z.natAbs : Int) := haccumulate
    have hz : -(z.natAbs : Int) = z := by omega
    simp only [hminus, Bool.true_or, if_true, bind_eq_bind, bind_some, hzero, hne,
      and_false, if_false, hz]
    rw [if_pos ⟨hmin, hmax⟩]
  · have hz : (z.natAbs : Int) = z := by omega
    rw [decimalBytes, if_neg hneg]
    conv_rhs => rw [← hz]
    exact parseJavaSignedDecimal_digits (padded_ne_nil _) hparse (by omega) (by omega) hbound

/-! ## Lines -/

/-- The entry that a report is read back as. -/
def GarbageCollectionReport.entry (report : GarbageCollectionReport) :
    GarbageCollectionJournalEntry where
  repositorySize := Int64.ofNat report.repositorySize
  reclaimedSize := Int64.ofNat report.reclaimedSize
  timestampMilliseconds := Int64.ofNat report.timestamp
  generation := ⟨report.generation.generation, report.generation.fullGeneration, false⟩
  compactedNodes := Int64.ofNat report.compactedNodes
  rootRecordIdentifierText := Utf8.ascii (revisionBytes report.root)

/-- The numbers of a report are ones the format has. -/
structure GarbageCollectionReport.InRange (report : GarbageCollectionReport) : Prop where
  repositorySize : report.repositorySize < 2 ^ 63
  reclaimedSize : report.reclaimedSize < 2 ^ 63
  timestamp : report.timestamp < 2 ^ 63
  compactedNodes : report.compactedNodes < 2 ^ 63
  recordNumber : report.root.recordNumber.toNat ≤ 2 ^ 31 - 1

/-- The line of a report without its break. -/
def GarbageCollectionReport.text (report : GarbageCollectionReport) : Bytes :=
  [44].intercalate report.fields

theorem fields_chars (report : GarbageCollectionReport) :
    ∀ field ∈ report.fields, ∀ x ∈ field, 45 ≤ x.toNat ∧ x.toNat < 128 := by
  have hpadded : ∀ n, ∀ x ∈ padded 10 1 n, 45 ≤ x.toNat ∧ x.toNat < 128 := fun n x hx => by
    obtain ⟨hlow, hhigh⟩ := digits_of_padded x hx
    omega
  have hdecimal : ∀ n, ∀ x ∈ decimalBytes n, 45 ≤ x.toNat ∧ x.toNat < 128 := fun n x hx => by
    obtain ⟨hlow, hhigh⟩ := decimalBytes_chars n x hx
    omega
  simp only [GarbageCollectionReport.fields, forall_mem_cons]
  exact ⟨hpadded _, hpadded _, hpadded _, hdecimal _, hdecimal _, hpadded _,
    revisionBytes_chars _, nofun⟩

theorem mem_intercalate {α : Type} {separator x : α} {fields : List (List α)}
    (h : x ∈ [separator].intercalate fields) : x = separator ∨ ∃ field ∈ fields, x ∈ field := by
  induction fields with
  | nil => cases h
  | cons field fields ih =>
    cases fields with
    | nil =>
      rw [List.intercalate_singleton] at h
      exact .inr ⟨field, List.mem_cons_self .., h⟩
    | cons next fields =>
      rw [List.intercalate_cons_cons, List.mem_append, List.mem_append, List.mem_singleton] at h
      rcases h with (h | h) | h
      · exact .inr ⟨field, List.mem_cons_self .., h⟩
      · exact .inl h
      · rcases ih h with h | ⟨other, hmem, hx⟩
        · exact .inl h
        · exact .inr ⟨other, List.mem_cons_of_mem _ hmem, hx⟩

theorem text_chars (report : GarbageCollectionReport) :
    ∀ x ∈ report.text, 44 ≤ x.toNat ∧ x.toNat < 128 := by
  intro x hx
  rcases mem_intercalate hx with rfl | ⟨field, hfield, hx⟩
  · decide
  · obtain ⟨hlow, hhigh⟩ := fields_chars report field hfield x hx
    omega

theorem asciiChars_intercalate (fields : List Bytes) :
    asciiChars ([44].intercalate fields) = [','].intercalate (fields.map asciiChars) := by
  induction fields with
  | nil => rfl
  | cons field fields ih =>
    cases fields with
    | nil => rw [List.map_singleton, List.intercalate_singleton, List.intercalate_singleton]
    | cons next fields =>
      rw [map_cons, map_cons, List.intercalate_cons_cons, List.intercalate_cons_cons,
        asciiChars, map_append, map_append]
      exact congrArg _ ih

/-- The line of a report has its seven fields. -/
theorem splitLikeJava_text (report : GarbageCollectionReport) :
    splitLikeJava (asciiChars report.text) = ⟨report.fields.map asciiChars, 7⟩ := by
  have hsplit : (asciiChars report.text).splitOn ',' = report.fields.map asciiChars := by
    rw [GarbageCollectionReport.text, asciiChars_intercalate]
    refine List.splitOn_intercalate ',' (fun field hfield hcomma => ?_) (by
      simp [GarbageCollectionReport.fields])
    obtain ⟨bytes, hbytes, rfl⟩ := mem_map.mp hfield
    obtain ⟨x, hx, heq⟩ := mem_map.mp hcomma
    obtain ⟨hlow, hhigh⟩ := fields_chars report bytes hbytes x hx
    have hnat := congrArg Char.toNat heq
    rw [toNat_charOfNat hhigh] at hnat
    have hvalue : ','.toNat = 44 := rfl
    omega
  have hne : asciiChars report.text ≠ [] := by
    intro hempty
    rw [hempty] at hsplit
    cases hsplit
  have hroot : asciiChars (revisionBytes report.root) ≠ [] := by
    have hlength : (revisionBytes report.root).length ≠ 0 := by
      rw [revisionBytes, length_append, SegmentIdentifier.length_displayBytes]
      omega
    rw [asciiChars, Ne, List.map_eq_nil_iff]
    exact fun hempty => hlength (congrArg List.length hempty)
  rw [splitLikeJava, hsplit, if_neg hne]
  refine congrArg₂ JavaSplitFields.mk rfl ?_
  simp only [GarbageCollectionReport.fields, map_cons, List.map_nil, lastNonemptyFieldCount,
    if_neg hroot]

theorem parseI64_of_get {index : Nat} (hn : n < 2 ^ 63)
    (hget : fields.get index = some (asciiChars (padded 10 1 n))) :
    fields.parseI64 index = Int64.ofNat n := by
  rw [JavaSplitFields.parseI64, hget, bind_some,
    parseJavaSignedDecimal_digits (padded_ne_nil n)
      (Digits.parse_padded (by decide) (by decide) 1 n) (by omega) (by omega)
      (by omega)]
  rfl

theorem parseI32_of_get {index : Nat} {n : Int32}
    (hget : fields.get index = some (asciiChars (decimalBytes n.toInt))) :
    fields.parseI32 index = n := by
  have hlow := n.le_toInt
  have hhigh := n.toInt_lt
  rw [JavaSplitFields.parseI32, hget, bind_some,
    parseJavaSignedDecimal_decimalBytes (by omega) (by omega) (by omega)]
  exact Int32.ofInt_toInt n

/-- The line of a report is read back as its entry. -/
theorem parseGcJournalEntry_text (h : report.InRange) :
    parseGcJournalEntry (Utf8.ascii report.text) = report.entry := by
  rw [parseGcJournalEntry, toList_ascii, splitLikeJava_text]
  obtain ⟨fields, hfields⟩ : ∃ fields : JavaSplitFields,
      fields = ⟨report.fields.map asciiChars, 7⟩ := ⟨_, rfl⟩
  have hseven : fields.length = 7 := by rw [hfields]
  have hget : ∀ index, fields.get index =
      if index < 7 then (report.fields.map asciiChars)[index]? else none := by
    intro index
    rw [hfields]
    rfl
  rw [← hfields, hseven]
  simp only [if_true]
  rw [parseI64_of_get h.repositorySize (hget 0), parseI64_of_get h.reclaimedSize (hget 1),
    parseI64_of_get h.timestamp (hget 2), parseI32_of_get (hget 3), parseI32_of_get (hget 4),
    parseI64_of_get h.compactedNodes (hget 5), hget 6]
  rfl

/-! ## The scan -/

section

variable {options : GarbageCollectionJournalReadOptions} {scan scan' : GcScan}

/-- A byte does not depend on how many bytes have been read ahead. -/
theorem scanGcJournalByte_read {byte : UInt8} {read : Nat}
    (h : scanGcJournalByte options scan byte = .ok scan') :
    scanGcJournalByte options { scan with fileBytesRead := read } byte =
      .ok { scan' with fileBytesRead := read } := by
  unfold scanGcJournalByte at h ⊢
  dsimp only at h ⊢
  split at h
  · rename_i hfeed
    rw [if_pos hfeed, ← pure_ok_iff.mp h]
    rfl
  · rename_i hfeed
    rw [if_neg hfeed]
    split at h
    · rename_i hbreak
      rw [if_pos hbreak]
      obtain ⟨finished, hfinish, h⟩ := Except.bind_ok_iff.mp h
      rw [← pure_ok_iff.mp h]
      unfold finishGcJournalLine at hfinish ⊢
      dsimp only at hfinish ⊢
      split at hfinish
      · cases hfinish
      · rename_i hentries
        rw [if_neg hentries]
        split at hfinish
        · rename_i hvalid
          rw [if_pos hvalid, ← Except.ok.inj hfinish]
          rfl
        · cases hfinish
    · rename_i hbreak
      rw [if_neg hbreak]
      split at h
      · cases h
      · rename_i hline
        rw [if_neg hline, ← pure_ok_iff.mp h]
        rfl

theorem scanGcJournalBytes_read {bytes : Bytes} {read : Nat}
    (h : bytes.foldlM (scanGcJournalByte options) scan = .ok scan') :
    bytes.foldlM (scanGcJournalByte options) { scan with fileBytesRead := read } =
      .ok { scan' with fileBytesRead := read } := by
  induction bytes generalizing scan with
  | nil =>
    rw [← pure_ok_iff.mp h]
    rfl
  | cons byte bytes ih =>
    obtain ⟨next, hbyte, hrest⟩ := foldlM_cons_ok_iff.mp h
    exact foldlM_cons_ok_iff.mpr ⟨_, scanGcJournalByte_read hbyte, ih hrest⟩

variable {chunks lines : List Bytes}

/-- It does not matter how the bytes are delivered. -/
theorem scanGcJournalChunks
    (hlimit : scan.fileBytesRead + chunks.flatten.length ≤ options.maximumFileBytes)
    (h : chunks.flatten.foldlM (scanGcJournalByte options) scan = .ok scan') :
    chunks.foldlM (scanGcJournalChunk options) scan =
      .ok { scan' with fileBytesRead := scan.fileBytesRead + chunks.flatten.length } := by
  induction chunks generalizing scan scan' with
  | nil =>
    rw [← pure_ok_iff.mp h]
    rfl
  | cons chunk chunks ih =>
    rw [List.flatten_cons, length_append] at hlimit ⊢
    rw [List.flatten_cons, List.foldlM_append] at h
    obtain ⟨next, hchunk, hrest⟩ := Except.bind_ok_iff.mp h
    refine foldlM_cons_ok_iff.mpr
      ⟨{ next with fileBytesRead := scan.fileBytesRead + chunk.length }, ?_, ?_⟩
    · rw [scanGcJournalChunk, if_neg (by omega)]
      exact scanGcJournalBytes_read hchunk
    · rw [ih (by dsimp only; omega) (scanGcJournalBytes_read hrest)]
      dsimp only
      rw [Nat.add_assoc]

theorem scanGcJournal_collect {line : Bytes} (hbreaks : ∀ x ∈ line, isLineBreak x = false)
    (hlength : scan.lineBytes.length + line.length ≤ options.maximumLineBytes)
    (hreturn : scan.precedingCarriageReturn = false) :
    line.foldlM (scanGcJournalByte options) scan = .ok { scan with
      lineBytes := scan.lineBytes ++ line
      fileBytesProcessed := scan.fileBytesProcessed + line.length } := by
  induction line generalizing scan with
  | nil => simp [pure_ok_iff]
  | cons byte line ih =>
    rw [forall_mem_cons] at hbreaks
    rw [List.length_cons] at hlength
    obtain ⟨hten, hthirteen⟩ : byte ≠ 10 ∧ byte ≠ 13 := by
      have hbreak := hbreaks.1
      rw [isLineBreak, Bool.or_eq_false_iff] at hbreak
      exact ⟨beq_eq_false_iff_ne.mp hbreak.1, beq_eq_false_iff_ne.mp hbreak.2⟩
    have hbyte : scanGcJournalByte options scan byte = .ok { scan with
        lineBytes := scan.lineBytes ++ [byte]
        fileBytesProcessed := scan.fileBytesProcessed + 1
        precedingCarriageReturn := false } := by
      rw [scanGcJournalByte, if_neg (fun h => hten h.2), if_neg (not_or.mpr ⟨hthirteen, hten⟩), if_neg (by omega)]
      rfl
    refine foldlM_cons_ok_iff.mpr ⟨_, hbyte, ?_⟩
    rw [ih hbreaks.2 (by rw [length_append, List.length_singleton]; omega) rfl]
    simp only [append_assoc, List.singleton_append, List.length_cons, hreturn]
    congr 2
    omega

structure GcScan.Between (scan : GcScan) (lines : List String) : Prop where
  lineBytes : scan.lineBytes = []
  precedingCarriageReturn : scan.precedingCarriageReturn = false
  entriesRead : scan.entriesRead = lines.length
  lines : scan.lines = lines

/-- A terminated line is consumed. -/
theorem GcScan.Between.line {lines : List String} (h : scan.Between lines) {line : Bytes}
    (hbreaks : ∀ x ∈ line, isLineBreak x = false) (hvalid : Utf8.isValid line = true)
    (hlength : line.length ≤ options.maximumLineBytes)
    (hentries : lines.length < options.maximumEntries) :
    ∃ scan', (line ++ [10]).foldlM (scanGcJournalByte options) scan = .ok scan' ∧
      scan'.Between (lines ++ [decodeLossy line]) := by
  have hcollect := scanGcJournal_collect hbreaks
    (show scan.lineBytes.length + line.length ≤ options.maximumLineBytes by
      rw [h.lineBytes, List.length_nil]; omega) h.precedingCarriageReturn
  rw [h.lineBytes, List.nil_append] at hcollect
  have hfinish : finishGcJournalLine options
      { scan with
        lineBytes := line
        fileBytesProcessed := scan.fileBytesProcessed + line.length + 1
        precedingCarriageReturn := false } = .ok { scan with
      lineBytes := line
      fileBytesProcessed := scan.fileBytesProcessed + line.length + 1
      precedingCarriageReturn := false
      entriesRead := scan.entriesRead + 1
      lines := scan.lines ++ [decodeLossy line] } := by
    rw [finishGcJournalLine]
    dsimp only
    rw [if_neg (by rw [h.entriesRead]; omega), if_pos hvalid]
  have hbyte : scanGcJournalByte options
      { scan with
        lineBytes := line
        fileBytesProcessed := scan.fileBytesProcessed + line.length } 10 = .ok { scan with
      lineBytes := []
      fileBytesProcessed := scan.fileBytesProcessed + line.length + 1
      lineStartByteOffset := scan.fileBytesProcessed + line.length + 1
      precedingCarriageReturn := false
      entriesRead := scan.entriesRead + 1
      lines := scan.lines ++ [decodeLossy line] } := by
    rw [scanGcJournalByte]
    dsimp only
    rw [if_neg (by rw [h.precedingCarriageReturn]; nofun), if_pos (.inr rfl), hfinish,
      ok_bind_eq]
    rfl
  have hall : (line ++ [10]).foldlM (scanGcJournalByte options) scan = .ok { scan with
      lineBytes := []
      fileBytesProcessed := scan.fileBytesProcessed + line.length + 1
      lineStartByteOffset := scan.fileBytesProcessed + line.length + 1
      precedingCarriageReturn := false
      entriesRead := scan.entriesRead + 1
      lines := scan.lines ++ [decodeLossy line] } := by
    rw [List.foldlM_append, hcollect, ok_bind_eq]
    exact foldlM_cons_ok_iff.mpr ⟨_, hbyte, rfl⟩
  refine ⟨_, hall, rfl, rfl, ?_, ?_⟩
  · dsimp only
    rw [h.entriesRead, length_append, List.length_singleton]
  · dsimp only
    rw [h.lines]

/-- A line that a scan consumes whole. -/
structure ScannedLine (options : GarbageCollectionJournalReadOptions) (line : Bytes) : Prop where
  breaks : ∀ x ∈ line, isLineBreak x = false
  valid : Utf8.isValid line = true
  length : line.length ≤ options.maximumLineBytes

theorem GcScan.Between.append {done : List String} (h : scan.Between done)
    (hlines : ∀ line ∈ lines, ScannedLine options line)
    (hentries : done.length + lines.length ≤ options.maximumEntries) :
    ∃ scan', (lines.map (· ++ [10])).flatten.foldlM (scanGcJournalByte options) scan = .ok scan' ∧
      scan'.Between (done ++ lines.map decodeLossy) := by
  induction lines generalizing scan done with
  | nil =>
    refine ⟨scan, rfl, ?_⟩
    rwa [List.map_nil, append_nil]
  | cons line lines ih =>
    rw [forall_mem_cons] at hlines
    rw [List.length_cons] at hentries
    obtain ⟨next, hnext, hbetween⟩ := h.line hlines.1.breaks hlines.1.valid hlines.1.length
      (show done.length < options.maximumEntries by omega)
    obtain ⟨last, hlast, hbetween⟩ := ih hbetween hlines.2
      (by rw [length_append, List.length_singleton]; omega)
    refine ⟨last, ?_, ?_⟩
    · rw [map_cons, List.flatten_cons, List.foldlM_append, hnext, ok_bind_eq]
      exact hlast
    · rwa [append_assoc] at hbetween

theorem scanGcJournalLines_ok {file tail : Bytes}
    (hfile : file = (lines.map (· ++ [10])).flatten ++ tail)
    (hchunks : chunks.flatten = file) (hsize : file.length ≤ options.maximumFileBytes)
    (hlines : ∀ line ∈ lines, ScannedLine options line) (htail : ScannedLine options tail)
    (hentries : lines.length + (if tail = [] then 0 else 1) ≤ options.maximumEntries) :
    scanGcJournalLines options file.length chunks =
      .ok ((lines ++ if tail = [] then [] else [tail]).map decodeLossy) := by
  have hstart : GcScan.start.Between [] := ⟨rfl, rfl, rfl, rfl⟩
  obtain ⟨scan, hscan, hbetween⟩ := hstart.append hlines (by
    rw [List.length_nil, Nat.zero_add]
    split at hentries <;> omega)
  rw [List.nil_append] at hbetween
  have hcollect := @scanGcJournal_collect options scan tail htail.breaks (by
    rw [hbetween.lineBytes, List.length_nil, Nat.zero_add]
    exact htail.length) hbetween.precedingCarriageReturn
  rw [hbetween.lineBytes, List.nil_append] at hcollect
  have hbytes : chunks.flatten.foldlM (scanGcJournalByte options) GcScan.start = .ok { scan with
      lineBytes := tail
      fileBytesProcessed := scan.fileBytesProcessed + tail.length } := by
    rw [hchunks, hfile, List.foldlM_append, hscan, ok_bind_eq]
    exact hcollect
  have hall := scanGcJournalChunks (by rw [hchunks]; exact (Nat.zero_add _).le.trans hsize) hbytes
  rw [scanGcJournalLines, if_neg (not_lt.mpr hsize), hall, ok_bind_eq]
  dsimp only
  by_cases hempty : tail = []
  · rw [if_pos hempty, if_pos hempty, append_nil, hbetween.lines]
    rfl
  · rw [if_neg hempty] at hentries ⊢
    rw [if_neg hempty, finishGcJournalLine]
    dsimp only
    rw [if_neg (by rw [hbetween.entriesRead, List.length_map]; omega), if_pos htail.valid,
      ok_bind_eq, hbetween.lines, map_append]
    rfl

end

/-! ## Histories -/

/-- A file that the next line does not join. -/
def EndsLine (file : Bytes) : Prop := file = [] ∨ file.getLast? = some 10

instance (file : Bytes) : Decidable (EndsLine file) := inferInstanceAs (Decidable (_ ∨ _))

/-- Every append of a history starts on an empty file or behind a line break. -/
def Unbroken : Bytes → List GcLogEvent → Prop
  | _, [] => True
  | file, event :: events => EndsLine file ∧ Unbroken (event.step file) events

def gcJournalLines (file : Bytes) : List Bytes :=
  let parts := file.splitOn 10
  if parts.getLast? = some [] then parts.dropLast else parts

structure WithinLimits (options : GarbageCollectionJournalReadOptions) (file : Bytes) : Prop where
  fileBytes : file.length ≤ options.maximumFileBytes
  lineBytes : ∀ line ∈ gcJournalLines file, line.length ≤ options.maximumLineBytes
  entries : (gcJournalLines file).length ≤ options.maximumEntries

theorem garbageCollectionLogEntry_eq (report : GarbageCollectionReport) :
    garbageCollectionLogEntry report = report.text ++ [10] := rfl

/-- A file of the lines of some reports and the beginning of one more. -/
structure GcLogOf (file : Bytes) (reports : List GarbageCollectionReport) (tail : Bytes) :
    Prop where
  file : file = ((reports.map GarbageCollectionReport.text).map (· ++ [10])).flatten ++ tail
  tail : ∃ report : GarbageCollectionReport, tail <+: report.text

variable (h : GcLogOf file reports tail)

include h in
theorem GcLogOf.tail_chars : ∀ x ∈ tail, 44 ≤ x.toNat ∧ x.toNat < 128 := by
  obtain ⟨report, hbeginning⟩ := h.tail
  exact fun x hx => text_chars report x (hbeginning.subset hx)

include h in
theorem GcLogOf.tail_eq_nil (hends : EndsLine file) : tail = [] := by
  by_contra hne
  have hlast : file.getLast? = tail.getLast? := by
    rw [h.file]
    exact List.getLast?_append_of_ne_nil _ hne
  rcases hends with hempty | hten
  · rw [h.file, List.append_eq_nil_iff] at hempty
    exact hne hempty.2
  · rw [hlast] at hten
    obtain ⟨hlow, -⟩ := h.tail_chars 10 (List.mem_of_getLast? hten)
    exact absurd hlow (by decide)

theorem GcLogOf.append (h : GcLogOf file reports []) (report : GarbageCollectionReport) :
    GcLogOf (file ++ garbageCollectionLogEntry report) (reports ++ [report]) [] := by
  refine ⟨?_, report, List.nil_prefix⟩
  rw [h.file, map_append, map_append, List.flatten_append, garbageCollectionLogEntry_eq]
  simp

/-- An append on a file that ends in a line break. -/
theorem GcLogOf.step {file tail : Bytes} {reports : List GarbageCollectionReport}
    (h : GcLogOf file reports tail) (hends : EndsLine file) (event : GcLogEvent) :
    ∃ tail', GcLogOf (event.step file) (reports ++ event.complete.toList) tail' ∧
      ∀ report, event = .append report → tail' = [] := by
  obtain rfl := h.tail_eq_nil hends
  cases event with
  | append report => exact ⟨[], h.append report, fun _ _ => rfl⟩
  | torn report written =>
    by_cases hcomplete : (garbageCollectionLogEntry report).length ≤ written
    · refine ⟨[], ?_, nofun⟩
      rw [GcLogEvent.step, List.take_of_length_le hcomplete, GcLogEvent.complete,
        if_pos hcomplete]
      exact h.append report
    · refine ⟨report.text.take written, ⟨?_, report, List.take_prefix _ _⟩, nofun⟩
      have hlength : written ≤ report.text.length := by
        rw [garbageCollectionLogEntry_eq, length_append, List.length_singleton] at hcomplete
        omega
      rw [GcLogEvent.step, GcLogEvent.complete, if_neg hcomplete, Option.toList_none,
        append_nil, h.file, append_nil, garbageCollectionLogEntry_eq,
        List.take_append_of_le_length hlength]

include h in
/-- A history without joined lines. -/
theorem GcLogOf.run {events : List GcLogEvent} (hunbroken : Unbroken file events) :
    ∃ tail', GcLogOf (events.foldl GcLogEvent.step file)
        (reports ++ events.filterMap GcLogEvent.complete) tail' ∧
      (∀ report, events.getLast? = some (.append report) → tail' = []) ∧
      (events = [] → tail' = tail) := by
  induction events generalizing file tail reports with
  | nil =>
    refine ⟨tail, ?_, nofun, fun _ => rfl⟩
    rwa [List.filterMap_nil, append_nil]
  | cons event events ih =>
    obtain ⟨hends, hunbroken⟩ := hunbroken
    obtain ⟨next, hnext, hlast⟩ := h.step hends event
    obtain ⟨tail', hrun, hlast', hsame⟩ := ih hnext hunbroken
    refine ⟨tail', ?_, fun report hreport => ?_, nofun⟩
    · have hcons : (event :: events).filterMap GcLogEvent.complete =
          event.complete.toList ++ events.filterMap GcLogEvent.complete := by
        cases hcomplete : event.complete with
        | none => rw [List.filterMap_cons, hcomplete]; rfl
        | some report => rw [List.filterMap_cons, hcomplete]; rfl
      rwa [hcons, ← append_assoc]
    · cases events with
      | nil =>
        rw [hsame rfl]
        exact hlast report (Option.some.inj hreport)
      | cons next events => exact hlast' report hreport

theorem splitOn_lines (lines : List Bytes) (tail : Bytes)
    (hlines : ∀ line ∈ lines, (10 : UInt8) ∉ line) (htail : (10 : UInt8) ∉ tail) :
    ((lines.map (· ++ [10])).flatten ++ tail).splitOn 10 = lines ++ [tail] := by
  have hnone : ∀ {line : Bytes}, (10 : UInt8) ∉ line → ∀ x ∈ line, (x == 10) = false :=
    fun hline x hx => beq_false_of_ne fun heq => hline (heq ▸ hx)
  induction lines with
  | nil => exact List.splitOnP_eq_singleton (hnone htail)
  | cons line lines ih =>
    rw [forall_mem_cons] at hlines
    rw [map_cons, List.flatten_cons, append_assoc, append_assoc]
    refine (List.splitOnP_append_cons_of_forall_mem (hnone hlines.1) 10 rfl _).trans ?_
    exact congrArg _ (ih hlines.2)

include h in
theorem GcLogOf.lines :
    gcJournalLines file = reports.map GarbageCollectionReport.text ++
      if tail = [] then [] else [tail] := by
  have hten : ∀ {line : Bytes}, (∀ x ∈ line, 44 ≤ x.toNat ∧ x.toNat < 128) →
      (10 : UInt8) ∉ line := fun hline hmem => absurd (hline 10 hmem).1 (by decide)
  have hsplit := splitOn_lines (reports.map GarbageCollectionReport.text) tail
    (fun line hline => by
      obtain ⟨report, -, rfl⟩ := mem_map.mp hline
      exact hten (text_chars report)) (hten h.tail_chars)
  rw [← h.file] at hsplit
  rw [gcJournalLines, hsplit, List.getLast?_append_of_ne_nil _ (List.cons_ne_nil _ _)]
  by_cases hempty : tail = []
  · rw [if_pos (by rw [hempty]; rfl), if_pos hempty, List.dropLast_concat, append_nil]
  · rw [if_neg (fun heq : [tail].getLast? = some [] => hempty (Option.some.inj heq)), if_neg hempty]

theorem scannedLine_of_chars {options : GarbageCollectionJournalReadOptions} {line : Bytes}
    (hchars : ∀ x ∈ line, 44 ≤ x.toNat ∧ x.toNat < 128)
    (hlength : line.length ≤ options.maximumLineBytes) : ScannedLine options line :=
  ⟨fun x hx => isLineBreak_of_le (le_trans (by decide) (hchars x hx).1),
    Utf8.isValid_of_ascii fun x hx => (hchars x hx).2, hlength⟩

include h in
/-- All lines of a file within the limits are read. -/
theorem GcLogOf.read {options : GarbageCollectionJournalReadOptions} {chunks : List Bytes}
    (hchunks : chunks.flatten = file) (hlimits : WithinLimits options file) :
    scanGcJournalLines options file.length chunks =
      .ok ((gcJournalLines file).map decodeLossy) := by
  have hentries := hlimits.entries
  have hlengths := hlimits.lineBytes
  rw [h.lines] at hentries hlengths
  rw [h.lines]
  refine scanGcJournalLines_ok h.file hchunks hlimits.fileBytes (fun line hline => ?_) ?_ ?_
  · obtain ⟨report, -, heq⟩ := mem_map.mp hline
    refine scannedLine_of_chars ?_ (hlengths line (List.mem_append_left _ hline))
    rw [← heq]
    exact text_chars report
  · refine scannedLine_of_chars h.tail_chars ?_
    by_cases hempty : tail = []
    · rw [hempty]
      exact Nat.zero_le _
    · refine hlengths tail (List.mem_append_right _ ?_)
      rw [if_neg hempty]
      exact List.mem_singleton_self _
  · rw [length_append] at hentries
    refine le_trans (Nat.add_le_add_left ?_ _) hentries
    by_cases hempty : tail = []
    · rw [if_pos hempty, if_pos hempty]
      exact Nat.le_refl _
    · rw [if_neg hempty, if_neg hempty]
      exact Nat.le_refl _

theorem GcLogEvent.report_of_complete {event : GcLogEvent}
    (h : event.complete = some report) : event.report = report := by
  cases event with
  | append _ => exact Option.some.inj h
  | torn _ written =>
    rw [GcLogEvent.complete] at h
    split at h
    · exact Option.some.inj h
    · cases h

theorem parse_texts (h : ∀ report ∈ reports, report.InRange) :
    ((reports.map GarbageCollectionReport.text).map decodeLossy).map parseGcJournalEntry =
      reports.map GarbageCollectionReport.entry := by
  rw [List.map_map, List.map_map]
  refine List.map_congr_left fun report hmem => ?_
  have hascii := fun x hx => (text_chars report x hx).2
  show parseGcJournalEntry (decodeLossy report.text) = report.entry
  rw [Utf8.decodeLossy_ascii hascii, parseGcJournalEntry_text (h report hmem)]

/-- In a history whose appends all start behind a line break, the last append that returned is
the entry that is read, every complete append is listed in order with its own values, and the
roots are those that were given. -/
theorem readGcJournal_of_unbroken {events : List GcLogEvent}
    (hranges : ∀ event ∈ events, event.report.InRange) (hunbroken : Unbroken [] events)
    {options : GarbageCollectionJournalReadOptions} {chunks : List Bytes}
    (hchunks : chunks.flatten = gcLogAfter events)
    (hlimits : WithinLimits options (gcLogAfter events)) :
    (∃ rest, readAllGcJournalWithOptions options (gcLogAfter events).length chunks =
      .ok ((events.filterMap GcLogEvent.complete).map GarbageCollectionReport.entry ++ rest)) ∧
    ∀ report, events.getLast? = some (.append report) →
      readGcJournalWithOptions options (gcLogAfter events).length chunks = .ok report.entry ∧
      report.entry.rootRecordIdentifier = some report.root ∧
      readAllGcJournalWithOptions options (gcLogAfter events).length chunks =
        .ok ((events.filterMap GcLogEvent.complete).map GarbageCollectionReport.entry) := by
  have hstart : GcLogOf [] [] [] := ⟨rfl, ⟨0, 0, 0, .null, 0, ⟨⟨0, 0⟩, 0⟩⟩, List.nil_prefix⟩
  obtain ⟨tail, hlog, hlast, -⟩ := hstart.run hunbroken
  rw [List.nil_append] at hlog
  change GcLogOf (gcLogAfter events) _ tail at hlog
  have hcomplete : ∀ report ∈ events.filterMap GcLogEvent.complete, report.InRange := by
    intro report hmem
    obtain ⟨event, hevent, heq⟩ := List.mem_filterMap.mp hmem
    rw [← GcLogEvent.report_of_complete heq]
    exact hranges event hevent
  have hall : readAllGcJournalWithOptions options (gcLogAfter events).length chunks =
      .ok ((events.filterMap GcLogEvent.complete).map GarbageCollectionReport.entry ++
        ((if tail = [] then [] else [tail]).map Utf8.decodeLossy).map parseGcJournalEntry) := by
    rw [readAllGcJournalWithOptions, hlog.read hchunks hlimits, hlog.lines, List.map_append,
      Except.ok_bind_eq, List.map_append, parse_texts hcomplete]
    rfl
  refine ⟨⟨_, hall⟩, fun report hreport => ?_⟩
  have htail : tail = [] := hlast report hreport
  rw [if_pos htail, List.map_nil, List.map_nil, List.append_nil] at hall
  obtain ⟨earlier, rfl⟩ := List.getLast?_eq_some_iff.mp hreport
  have hinRange : report.InRange := hranges (.append report) (List.mem_append_right _ (.head _))
  refine ⟨?_, ?_, hall⟩
  · rw [readAllGcJournalWithOptions, hlog.read hchunks hlimits, Except.ok_bind_eq] at hall
    rw [readGcJournalWithOptions, hlog.read hchunks hlimits, Except.ok_bind_eq,
      Except.pure_ok_iff.mp hall, List.filterMap_append, List.map_append]
    refine congrArg Except.ok ?_
    exact congrArg (Option.getD · _) List.getLast?_concat
  · rw [GarbageCollectionJournalEntry.rootRecordIdentifier, GarbageCollectionReport.entry,
      Utf8.utf8_ascii fun x hx => ?_, parseRecordIdentifierText_revision,
      if_pos hinRange.recordNumber]
    exact (fields_chars report _ (by simp [GarbageCollectionReport.fields]) x hx).2

def reportOfSize (repositorySize : Nat) : GarbageCollectionReport :=
  ⟨repositorySize, 1, 2, ⟨3, 3, true⟩, 4, ⟨⟨0, 0⟩, 5⟩⟩

/-- The limits of the tests. -/
def roomyReadOptions : GarbageCollectionJournalReadOptions := ⟨1000, 100, 10⟩

/-- Two appends, of which the second is written after a crash that left no byte. -/
def tornCollections : List GcLogEvent :=
  [.append (reportOfSize 6), .torn (reportOfSize 8) 0, .append (reportOfSize 7)]

theorem readGcJournal_of_unbroken_torn :
    readGcJournalWithOptions roomyReadOptions (gcLogAfter tornCollections).length
        [gcLogAfter tornCollections] = .ok (reportOfSize 7).entry ∧
      (reportOfSize 7).entry.rootRecordIdentifier = some (reportOfSize 7).root ∧
      ∃ rest, readAllGcJournalWithOptions roomyReadOptions
        (gcLogAfter (tornCollections ++ [.torn (reportOfSize 9) 5])).length
        [gcLogAfter (tornCollections ++ [.torn (reportOfSize 9) 5])] =
          .ok ([(reportOfSize 6).entry, (reportOfSize 7).entry] ++ rest) := by
  have hranges : ∀ event ∈ tornCollections ++ [.torn (reportOfSize 9) 5],
      event.report.InRange := by
    intro event hmem
    simp only [tornCollections, List.cons_append, List.nil_append, List.mem_cons, List.not_mem_nil,
      or_false] at hmem
    rcases hmem with rfl | rfl | rfl | rfl
    all_goals exact ⟨by decide, by decide, by decide, by decide, by decide⟩
  have hunbroken : Unbroken [] (tornCollections ++ [.torn (reportOfSize 9) 5]) :=
    ⟨.inl rfl, .inr (by decide +kernel), .inr (by decide +kernel), .inr (by decide +kernel),
      trivial⟩
  have hlimits : WithinLimits roomyReadOptions (gcLogAfter tornCollections) :=
    ⟨by decide +kernel, by decide +kernel, by decide +kernel⟩
  have hlimits' : WithinLimits roomyReadOptions
      (gcLogAfter (tornCollections ++ [.torn (reportOfSize 9) 5])) :=
    ⟨by decide +kernel, by decide +kernel, by decide +kernel⟩
  obtain ⟨-, hlast⟩ := @readGcJournal_of_unbroken tornCollections
    (fun event hmem => hranges event (List.mem_append_left _ hmem))
    ⟨hunbroken.1, hunbroken.2.1, hunbroken.2.2.1, trivial⟩ _ _ (List.flatten_singleton ..) hlimits
  obtain ⟨hall, -⟩ := readGcJournal_of_unbroken hranges hunbroken (List.flatten_singleton ..)
    hlimits'
  exact ⟨(hlast _ rfl).1, (hlast _ rfl).2.1, hall⟩

/-- A line behind one that a crash cut is read as another entry. -/
theorem readGcJournal_behind_torn :
    gcLogAfter [.torn (reportOfSize 6) 1, .append (reportOfSize 7)] =
        54 :: garbageCollectionLogEntry (reportOfSize 7) ∧
      readGcJournalWithOptions roomyReadOptions
          (gcLogAfter [.torn (reportOfSize 6) 1, .append (reportOfSize 7)]).length
          [gcLogAfter [.torn (reportOfSize 6) 1, .append (reportOfSize 7)]] =
        .ok (reportOfSize 67).entry ∧
      (reportOfSize 67).entry ≠ (reportOfSize 7).entry := by
  refine ⟨by decide +kernel, by decide +kernel, by decide +kernel⟩

end Froe
