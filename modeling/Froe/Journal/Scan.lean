import Froe.Journal.Log
import Froe.Lib.LossyText

/-!
# The physical lines of the journal

Maintenance does not read the journal as the store does: it splits the raw bytes
into physical lines, terminators included, and says of each line why the ordinary
reader keeps or skips it.  The two agree on every input: the lines concatenate to
the file, and those that classify as records are the entries of the reader
(`journalEntries_readable`).
-/

namespace Froe

open Utf8 (decodeLossy)

/-! ## Classifying lines -/

/-- The third field of a line. -/
inductive RawJournalTimestamp where
  | missing
  | malformed (raw : Bytes)
  | milliseconds (raw : Bytes) (value : Int64)
deriving DecidableEq, Repr

/-- A line that names a record. -/
structure RawJournalRecord where
  recordIdentifier : RecordIdentifier
  revisionText : Bytes
  tag : Bytes
  timestamp : RawJournalTimestamp
deriving DecidableEq, Repr

/-- Why the ordinary reader retains or ignores a line. -/
inductive RawJournalLineClassification where
  | parserSkippedNoSpace
  | invalidRecordIdentifier (revisionText : Bytes)
  | record (record : RawJournalRecord)
deriving DecidableEq, Repr

/-- A line as it stands in the file. -/
structure RawJournalLine where
  /-- The bytes of the line with its terminator. -/
  rawBytes : Bytes
  contentLength : Nat
  classification : RawJournalLineClassification
deriving DecidableEq, Repr

/-- Parses a signed 64-bit decimal. -/
def parseSigned64 (text : Bytes) : Option Int64 :=
  (parseDecimal text).bind fun n =>
    if -(2 ^ 63) ≤ n ∧ n < 2 ^ 63 then some (Int64.ofInt n) else none

/-- What a parser reads from bytes that must be a text. -/
def parseUtf8 {α : Type} (f : Bytes → Option α) (bytes : Bytes) : Option α :=
  if Utf8.isValid bytes = true then f bytes else none

def classifyTimestamp : Option Bytes → RawJournalTimestamp
  | none => .missing
  | some raw =>
    match parseUtf8 parseSigned64 raw with
    | some value => .milliseconds raw value
    | none => .malformed raw

/-- What a line is. -/
def classifyLine (content : Bytes) : RawJournalLineClassification :=
  if (32 : UInt8) ∉ content then .parserSkippedNoSpace
  else
    let fields := content.splitOnP (· == 32)
    let revisionText := fields.headD []
    let tag := fields[1]?.getD []
    match parseUtf8 parseRecordIdentifierText revisionText with
    | none => .invalidRecordIdentifier revisionText
    | some recordIdentifier =>
      .record ⟨recordIdentifier, revisionText, tag, classifyTimestamp fields[2]?⟩

def makeLine (raw : Bytes) (contentLength : Nat) : RawJournalLine :=
  ⟨raw, contentLength, classifyLine (raw.take contentLength)⟩

/-- The loop of `splitAndClassifyLines`, with the content of the line so far. -/
def splitLinesFrom : Bytes → Bytes → List RawJournalLine
  | current, [] => if current = [] then [] else [makeLine current current.length]
  | current, 13 :: 10 :: rest =>
    makeLine (current ++ [13, 10]) current.length :: splitLinesFrom [] rest
  | current, c :: rest =>
    if isLineBreak c then makeLine (current ++ [c]) current.length :: splitLinesFrom [] rest
    else splitLinesFrom (current ++ [c]) rest

/-- The lines of a journal. -/
def splitAndClassifyLines (source : Bytes) : List RawJournalLine := splitLinesFrom [] source

/-! ## What a reader keeps of a line -/

/-- The timestamp a reader takes. -/
def RawJournalTimestamp.read : RawJournalTimestamp → Int64
  | .milliseconds _ value => value
  | _ => -1

/-- The first field of a line with a space. -/
def RawJournalLineClassification.revisionText : RawJournalLineClassification → Option Bytes
  | .parserSkippedNoSpace => none
  | .invalidRecordIdentifier revisionText => some revisionText
  | .record fields => some fields.revisionText

/-- The head and the timestamp of a line that classifies as a record. -/
def RawJournalLineClassification.readable :
    RawJournalLineClassification → Option (RecordIdentifier × Int64)
  | .record fields => some (fields.recordIdentifier, fields.timestamp.read)
  | _ => none

/-- The head and the timestamp of an entry with a valid revision. -/
def JournalEntry.readable (entry : JournalEntry) : Option (RecordIdentifier × Int64) :=
  entry.recordIdentifier.map fun recordIdentifier =>
    (recordIdentifier, entry.timestampMilliseconds)

/-! ## The lines -/

/-- No byte of the file is lost. -/
theorem rawBytes_splitLinesFrom (current source : Bytes) :
    (splitLinesFrom current source).flatMap RawJournalLine.rawBytes = current ++ source := by
  fun_induction splitLinesFrom current source with
  | case1 => rfl
  | case2 current _ => rw [List.flatMap_singleton, List.append_nil]; rfl
  | case3 current rest ih =>
    rw [List.flatMap_cons, ih]
    simp [makeLine]
  | case4 current c rest _ _ ih =>
    rw [List.flatMap_cons, ih]
    simp [makeLine]
  | case5 current c rest _ _ ih =>
    rw [ih]
    simp

theorem take_makeLine (current terminator : Bytes) :
    (makeLine (current ++ terminator) current.length).rawBytes.take
      (makeLine (current ++ terminator) current.length).contentLength = current :=
  List.take_left

/-- The contents of the lines, for a reader that takes nothing from an empty line. -/
theorem contents_splitLinesFrom {β : Type} {g : Bytes → Option β} (hg : g [] = none)
    (current source : Bytes) (hcurrent : ∀ x ∈ current, isLineBreak x = false) :
    (splitLinesFrom current source).filterMap
        (fun line => g (line.rawBytes.take line.contentLength)) =
      ((current ++ source).splitOnP isLineBreak).filterMap g := by
  fun_induction splitLinesFrom current source with
  | case1 => simp [hg]
  | case2 current _ =>
    have hline := take_makeLine current []
    rw [List.append_nil] at hline
    rw [List.append_nil, List.splitOnP_eq_singleton hcurrent, List.filterMap_cons, hline]
    rfl
  | case3 current rest ih =>
    -- the break between the two bytes ends an empty line
    have hempty : ([] ++ 10 :: rest).splitOnP isLineBreak = [] :: rest.splitOnP isLineBreak :=
      List.splitOnP_append_cons_of_forall_mem nofun 10 rfl rest
    rw [List.nil_append] at hempty
    rw [List.splitOnP_append_cons_of_forall_mem hcurrent 13 rfl, hempty, List.filterMap_cons,
      take_makeLine, ih nofun, List.filterMap_cons, List.filterMap_cons, hg]
    rfl
  | case4 current c rest _ hbreak ih =>
    rw [List.splitOnP_append_cons_of_forall_mem hcurrent c hbreak, List.filterMap_cons,
      take_makeLine, ih nofun, List.filterMap_cons]
    rfl
  | case5 current c rest _ hbreak ih =>
    have hlonger : ∀ x ∈ current ++ [c], isLineBreak x = false := by
      intro x hx
      rcases List.mem_append.mp hx with hx | hx
      · exact hcurrent x hx
      · rw [List.mem_singleton.mp hx]
        exact Bool.eq_false_iff.mpr hbreak
    rw [ih hlonger, List.append_assoc]
    rfl

/-- Every line is classified by its content. -/
theorem classification_of_mem {current source : Bytes} {line : RawJournalLine}
    (h : line ∈ splitLinesFrom current source) :
    line.classification = classifyLine (line.rawBytes.take line.contentLength) := by
  fun_induction splitLinesFrom current source with
  | case1 => cases h
  | case2 current _ =>
    rw [List.mem_singleton.mp h]
    rfl
  | case3 current rest ih =>
    rcases List.mem_cons.mp h with rfl | h
    · rfl
    · exact ih h
  | case4 current c rest _ _ ih =>
    rcases List.mem_cons.mp h with rfl | h
    · rfl
    · exact ih h
  | case5 current c rest _ _ ih => exact ih h

/-- What is read from the classified lines is read from the lines between the breaks. -/
theorem splitAndClassifyLines_filterMap {β : Type} {g : RawJournalLineClassification → Option β}
    (hg : g .parserSkippedNoSpace = none) (source : Bytes) :
    (splitAndClassifyLines source).filterMap (fun line => g line.classification) =
      (source.splitOnP isLineBreak).filterMap fun content => g (classifyLine content) := by
  have hcontents := contents_splitLinesFrom (g := fun content => g (classifyLine content)) hg []
    source nofun
  rw [List.nil_append] at hcontents
  rw [← hcontents, splitAndClassifyLines]
  refine List.filterMap_congr fun line hmem => ?_
  rw [classification_of_mem hmem]

/-! ## Both readers of one line -/

variable {b : Bytes}

theorem parse_ascii {base : Nat} (hbase : base ≤ 16) {n : Nat}
    (h : Digits.parse base b = some n) : ∀ x ∈ b, x.toNat < 128 := by
  intro x hx
  obtain ⟨d, hd⟩ := Digits.parse_mem h hx
  simp only [Digits.digit?, Option.ite_none_right_eq_some] at hd
  obtain ⟨⟨-, hdigit⟩, -⟩ := hd
  split at hdigit <;> omega

theorem parseDecimal_ascii {n : Int} (h : parseDecimal b = some n) :
    ∀ x ∈ b, x.toNat < 128 := by
  unfold parseDecimal at h
  split at h
  · cases h
  · rename_i digits
    split at h
    · cases h
    · obtain ⟨m, hm, -⟩ := Option.map_eq_some_iff.mp h
      obtain ⟨k, hk, -⟩ := Option.bind_eq_some_iff.mp hm
      exact List.forall_mem_cons.mpr ⟨by decide, parse_ascii (by decide) hk⟩
  · rename_i digits
    split at h
    · cases h
    · obtain ⟨m, hm, -⟩ := Option.map_eq_some_iff.mp h
      obtain ⟨k, hk, -⟩ := Option.bind_eq_some_iff.mp hm
      exact List.forall_mem_cons.mpr ⟨by decide, parse_ascii (by decide) hk⟩
  · obtain ⟨m, hm, -⟩ := Option.map_eq_some_iff.mp h
    obtain ⟨k, hk, -⟩ := Option.bind_eq_some_iff.mp hm
    exact parse_ascii (by decide) hk

theorem parseSigned64_ascii {value : Int64} (h : parseSigned64 b = some value) :
    ∀ x ∈ b, x.toNat < 128 := by
  obtain ⟨n, hn, -⟩ := Option.bind_eq_some_iff.mp h
  exact parseDecimal_ascii hn

theorem parseRecordNumber_ascii {n : Nat} (h : parseRecordNumber b = some n) :
    ∀ x ∈ b, x.toNat < 128 := by
  unfold parseRecordNumber at h
  split at h
  · split at h
    · cases h
    · exact List.forall_mem_cons.mpr ⟨by decide, parse_ascii (by decide) h⟩
  · split at h
    · cases h
    · exact List.forall_mem_cons.mpr ⟨by decide, parse_ascii (by decide) h⟩
  · cases h

theorem parseRecordIdentifierText_ascii {record : RecordIdentifier}
    (h : parseRecordIdentifierText b = some record) : ∀ x ∈ b, x.toNat < 128 := by
  unfold parseRecordIdentifierText at h
  split at h
  · cases h
  · obtain ⟨segment, hsegment, h⟩ := Option.bind_eq_some_iff.mp h
    obtain ⟨number, hnumber, -⟩ := Option.bind_eq_some_iff.mp h
    intro x hx
    rw [← List.take_append_drop 36 b] at hx
    rcases List.mem_append.mp hx with hx | hx
    · obtain ⟨i, hi, rfl⟩ := List.getElem_of_mem hx
      have hlength : i < 36 := lt_of_lt_of_le hi (List.length_take_le 36 b)
      obtain ⟨y, hy, -, hascii⟩ := SegmentIdentifier.fromStr_chars hsegment hlength
      rw [List.getElem?_eq_getElem hi] at hy
      exact Option.some.inj hy ▸ hascii
    · exact parseRecordNumber_ascii hnumber x hx

theorem read_classifyTimestamp (field : Option Bytes) :
    (classifyTimestamp field).read =
      match field with
      | none => -1
      | some raw => (parseSigned64 (decodeLossy raw).utf8).getD (-1) := by
  cases field with
  | none => rfl
  | some raw =>
    dsimp only
    rw [Utf8.parse_decodeLossy (fun _ _ => parseSigned64_ascii) raw, classifyTimestamp, parseUtf8]
    cases (if Utf8.isValid raw = true then parseSigned64 raw else none) with
    | none => rfl
    | some value => rfl

/-- The fields of a decoded line. -/
theorem splitOnP_space (content : Bytes) :
    (decodeLossy content).utf8.splitOnP (· == 32) =
      (content.splitOnP (· == 32)).map fun field => (decodeLossy field).utf8 :=
  Utf8.splitOnP_decodeLossy (fun c hc => by rw [beq_iff_eq.mp hc]; decide) content

theorem mem_decodeLossy_iff {content : Bytes} {c : UInt8} (hc : c.toNat < 128) :
    c ∈ (decodeLossy content).utf8 ↔ c ∈ content := by
  constructor
  · exact Utf8.mem_of_mem_decodeLossy hc
  · intro h
    obtain ⟨before, behind, rfl⟩ := List.append_of_mem h
    rw [Utf8.utf8_decodeLossy_append before hc behind]
    exact List.mem_append_right _ (List.mem_cons_self ..)

/-- One line of the decoded text and the same line of the file. -/
theorem parseJournalLine_decodeLossy (content : Bytes) :
    (parseJournalLine (decodeLossy content).utf8).map JournalEntry.revisionText =
        (classifyLine content).revisionText.map (fun text => (decodeLossy text).utf8) ∧
      (parseJournalLine (decodeLossy content).utf8).bind JournalEntry.readable =
        (classifyLine content).readable := by
  rw [parseJournalLine, classifyLine]
  by_cases hspace : (32 : UInt8) ∈ content
  · rw [if_pos ((mem_decodeLossy_iff (by decide)).mpr hspace), if_neg (not_not.mpr hspace),
      splitOnP_space]
    dsimp only
    obtain ⟨first, rest, hfields⟩ := List.exists_cons_of_ne_nil
      (List.splitOnP_ne_nil (· == 32) content)
    have htimestamp := read_classifyTimestamp (first :: rest)[2]?
    have hidentifier := Utf8.parse_decodeLossy (fun _ _ => parseRecordIdentifierText_ascii) first
    have hread : parseTimestamp ((first :: rest).map fun field => (decodeLossy field).utf8) =
        (classifyTimestamp (first :: rest)[2]?).read := by
      rw [htimestamp, parseTimestamp, List.getElem?_map]
      cases (first :: rest)[2]? with
      | none => rfl
      | some field => rfl
    rw [hfields, hread, List.headD_cons, List.map_cons, List.headD_cons, parseUtf8, ← hidentifier]
    cases hparsed : parseRecordIdentifierText (decodeLossy first).utf8 with
    | none =>
      refine ⟨rfl, ?_⟩
      simp [JournalEntry.readable, JournalEntry.recordIdentifier, hparsed,
        RawJournalLineClassification.readable]
    | some record =>
      refine ⟨rfl, ?_⟩
      simp [JournalEntry.readable, JournalEntry.recordIdentifier, hparsed,
        RawJournalLineClassification.readable]
  · rw [if_neg (mt (mem_decodeLossy_iff (by decide)).mp hspace), if_pos hspace]
    exact ⟨rfl, rfl⟩

/-! ## Both readers of the file -/

/-- The entries of the reader are the lines of the classifier in reverse order: the same revision
fields, decoded, and the same heads and timestamps of those that are valid. -/
theorem journalEntries_readable (journalPath : String) (content : Bytes) :
    ∃ entries, readJournal journalPath (some content) = .ok entries ∧
      entries.filterMap JournalEntry.readable =
        ((splitAndClassifyLines content).filterMap fun line =>
          line.classification.readable).reverse ∧
      entries.map JournalEntry.revisionText =
        (((splitAndClassifyLines content).filterMap fun line =>
          line.classification.revisionText).map fun text =>
            (Utf8.decodeLossy text).utf8).reverse ∧
      (splitAndClassifyLines content).flatMap RawJournalLine.rawBytes = content := by
  have hlines : (Utf8.decodeLossy content).utf8.splitOnP isLineBreak =
      (content.splitOnP isLineBreak).map fun line => (Utf8.decodeLossy line).utf8 := by
    refine Utf8.splitOnP_decodeLossy (fun c hc => ?_) content
    rcases Bool.or_eq_true_iff.mp hc with hc | hc
    · rw [beq_iff_eq.mp hc]
      decide
    · rw [beq_iff_eq.mp hc]
      decide
  refine ⟨_, rfl, ?_, ?_, rawBytes_splitLinesFrom [] content⟩
  · rw [splitAndClassifyLines_filterMap rfl, journalEntries, hlines, List.filterMap_filterMap,
      List.filterMap_reverse, List.filterMap_map]
    refine congrArg List.reverse (List.filterMap_congr fun line _ => ?_)
    exact (parseJournalLine_decodeLossy line).2
  · rw [splitAndClassifyLines_filterMap rfl, journalEntries, hlines, List.map_filterMap,
      List.filterMap_reverse, List.filterMap_map, List.map_filterMap]
    refine congrArg List.reverse (List.filterMap_congr fun line _ => ?_)
    exact (parseJournalLine_decodeLossy line).1

end Froe
