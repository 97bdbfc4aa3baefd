import Froe.Journal.Retention
import Mathlib.Data.List.Sort

/-!
# The rewritten journal

The lines that stay are written as they were, one behind the other, and a last line
without a line break gets one.  A line with a record does not begin with a line break, so
none of them joins the line in front of it, and the new journal has exactly these lines.
-/

namespace Froe

open List (append_assoc append_nil cons_append mem_filter mem_map)

/-! ## The rewrite -/

/-- One more line that stays. -/
def selectIndex (lines : List RawJournalLine) (retained : Finset Nat) (index : Nat) :
    Result (Finset Nat) :=
  match lines[index]? with
  | none => invalid s!"journal cleanup selected nonexistent line index {index}"
  | some line =>
    match line.classification with
    | .record _ =>
      if index ∈ retained then
        invalid s!"journal cleanup selected line index {index} more than once"
      else return insert index retained
    | _ => invalid s!"journal cleanup selected non-record line index {index}"

/-- Refuses no index, a repeated one and one of no record. -/
def validateRetainedIndexes (lines : List RawJournalLine) (indexes : List Nat) :
    Result (Finset Nat) :=
  if indexes.isEmpty then invalid "journal cleanup would remove every syntactic record"
  else indexes.foldlM (selectIndex lines) ∅

def endsLine (output : Bytes) : Bool := output.getLast?.any isLineBreak

/-- The bytes of the lines that stay. -/
def assembleReplacement (lines : List RawJournalLine) (retained : Finset Nat) : Bytes :=
  let output := lines.zipIdx.flatMap fun entry =>
    if entry.2 ∈ retained then entry.1.rawBytes else []
  if endsLine output then output else output ++ [10]

/-- The lines that stay. -/
def retainedLines (lines : List RawJournalLine) (retained : Finset Nat) : List RawJournalLine :=
  (lines.zipIdx.filter fun entry => entry.2 ∈ retained).map Prod.fst

/-- A line with a line break behind it. -/
def RawJournalLine.terminated (line : RawJournalLine) : RawJournalLine :=
  if line.rawBytes.length = line.contentLength then { line with rawBytes := line.rawBytes ++ [10] }
  else line

/-- The lines with the last one terminated. -/
def terminateLast : List RawJournalLine → List RawJournalLine
  | [] => []
  | [line] => [line.terminated]
  | line :: next :: rest => line :: terminateLast (next :: rest)

/-! ## Physical lines -/

def RawJournalLine.Closed (line : RawJournalLine) : Prop :=
  ∃ content terminator, line = makeLine (content ++ terminator) content.length ∧
    (∀ x ∈ content, isLineBreak x = false) ∧
    (terminator = [10] ∨ terminator = [13] ∨ terminator = [13, 10])

/-- A line without a line break. -/
def RawJournalLine.Unfinished (line : RawJournalLine) : Prop :=
  ∃ content, line = makeLine content content.length ∧ (∀ x ∈ content, isLineBreak x = false) ∧
    content ≠ []

theorem forall_append_singleton {current : Bytes} {c : UInt8}
    (hcurrent : ∀ x ∈ current, isLineBreak x = false) (hc : isLineBreak c = false) :
    ∀ x ∈ current ++ [c], isLineBreak x = false := by
  intro x hx
  rcases List.mem_append.mp hx with hx | hx
  · exact hcurrent x hx
  · rw [List.mem_singleton.mp hx]
    exact hc

theorem isLineBreak_iff {c : UInt8} : isLineBreak c = true ↔ c = 10 ∨ c = 13 := by
  rw [isLineBreak, Bool.or_eq_true, beq_iff_eq, beq_iff_eq]

/-- Every line but the last is closed. -/
theorem splitLinesFrom_shape (current source : Bytes)
    (hcurrent : ∀ x ∈ current, isLineBreak x = false) :
    ∃ closed last, splitLinesFrom current source = closed ++ last ∧
      (∀ line ∈ closed, line.Closed) ∧
      (last = [] ∨ ∃ line, last = [line] ∧ line.Unfinished) := by
  fun_induction splitLinesFrom current source with
  | case1 => exact ⟨[], [], rfl, (by rintro _ ⟨⟩), .inl rfl⟩
  | case2 current hne =>
    exact ⟨[], _, rfl, (by rintro _ ⟨⟩), .inr ⟨_, rfl, current, rfl, hcurrent, hne⟩⟩
  | case3 current rest ih =>
    obtain ⟨closed, last, hsplit, hclosed, hlast⟩ := ih (by rintro _ ⟨⟩)
    refine ⟨_ :: closed, last, by rw [hsplit]; rfl, List.forall_mem_cons.mpr ⟨?_, hclosed⟩, hlast⟩
    exact ⟨current, [13, 10], rfl, hcurrent, .inr (.inr rfl)⟩
  | case4 current c rest _ hbreak ih =>
    obtain ⟨closed, last, hsplit, hclosed, hlast⟩ := ih (by rintro _ ⟨⟩)
    refine ⟨_ :: closed, last, by rw [hsplit]; rfl, List.forall_mem_cons.mpr ⟨?_, hclosed⟩, hlast⟩
    refine ⟨current, [c], rfl, hcurrent, ?_⟩
    rcases isLineBreak_iff.mp hbreak with rfl | rfl
    · exact .inl rfl
    · exact .inr (.inl rfl)
  | case5 current c rest _ hbreak ih =>
    exact ih (forall_append_singleton hcurrent (Bool.eq_false_iff.mpr hbreak))

/-- Content is collected. -/
theorem splitLinesFrom_content (current content rest : Bytes)
    (h : ∀ x ∈ content, isLineBreak x = false) :
    splitLinesFrom current (content ++ rest) = splitLinesFrom (current ++ content) rest := by
  induction content generalizing current with
  | nil => rw [List.nil_append, append_nil]
  | cons c content ih =>
    rw [List.forall_mem_cons] at h
    have hstep : splitLinesFrom current (c :: (content ++ rest)) =
        splitLinesFrom (current ++ [c]) (content ++ rest) := by
      rw [splitLinesFrom.eq_3]
      · rw [if_neg (by rw [h.1]; nofun)]
      · rintro tail rfl
        cases h.1
    rw [cons_append, hstep, ih _ h.2, append_assoc, List.singleton_append]

variable {line : RawJournalLine} {lines : List RawJournalLine} {retained : Finset Nat}
  {index : Nat} {indexes : List Nat} {retention : Option ℕ+}

/-- A closed line is split off, unless the rest begins with a byte that joins its line break. -/
theorem splitLinesFrom_closed (h : line.Closed) {rest : Bytes} (hrest : rest.head? ≠ some 10) :
    splitLinesFrom [] (line.rawBytes ++ rest) = line :: splitLinesFrom [] rest := by
  obtain ⟨content, terminator, rfl, hcontent, hterminator⟩ := h
  have hraw : (makeLine (content ++ terminator) content.length).rawBytes = content ++ terminator :=
    rfl
  rw [hraw, append_assoc, splitLinesFrom_content _ _ _ hcontent, List.nil_append]
  rcases hterminator with rfl | rfl | rfl
  · rfl
  · cases rest with
    | nil => rfl
    | cons c rest =>
      rw [List.singleton_append, splitLinesFrom.eq_3]
      · rfl
      · rintro tail -
        rintro ⟨⟩
        exact hrest rfl
  · rfl

/-! ## Lines with a record -/

def RawJournalLine.IsRecord (line : RawJournalLine) : Prop :=
  ∃ record, line.classification = .record record

/-- A line with a record has a space in its content. -/
theorem content_ne_nil_of_record {content : Bytes} {record : RawJournalRecord}
    (h : classifyLine content = .record record) : content ≠ [] := by
  rintro rfl
  cases h

theorem head?_of_record (hshape : line.Closed ∨ line.Unfinished) (hrecord : line.IsRecord) :
    ∃ c rest, line.rawBytes = c :: rest ∧ isLineBreak c = false := by
  obtain ⟨record, hrecord⟩ := hrecord
  obtain ⟨content, terminator, rfl, hcontent⟩ : ∃ content terminator,
      line = makeLine (content ++ terminator) content.length ∧
        ∀ x ∈ content, isLineBreak x = false := by
    rcases hshape with ⟨content, terminator, rfl, hcontent, -⟩ | ⟨content, rfl, hcontent, -⟩
    · exact ⟨content, terminator, rfl, hcontent⟩
    · exact ⟨content, [], by rw [append_nil], hcontent⟩
  have hclass : classifyLine content = .record record := by
    rw [← hrecord, makeLine, List.take_left]
  cases content with
  | nil => exact absurd rfl (content_ne_nil_of_record hclass)
  | cons c content => exact ⟨c, content ++ terminator, rfl, hcontent c (.head _)⟩

theorem splitLinesFrom_records {closed : List RawJournalLine}
    (hclosed : ∀ line ∈ closed, line.Closed ∧ line.IsRecord) {rest : Bytes}
    (hrest : rest.head? ≠ some 10) :
    splitLinesFrom [] (closed.flatMap RawJournalLine.rawBytes ++ rest) =
      closed ++ splitLinesFrom [] rest := by
  induction closed with
  | nil => rfl
  | cons line closed ih =>
    rw [List.forall_mem_cons] at hclosed
    rw [List.flatMap_cons, append_assoc, splitLinesFrom_closed hclosed.1.1, ih hclosed.2,
      cons_append]
    cases closed with
    | nil => exact hrest
    | cons next closed =>
      obtain ⟨c, tail, hraw, hc⟩ := head?_of_record (.inl (hclosed.2 next (.head _)).1)
        (hclosed.2 next (.head _)).2
      rw [List.flatMap_cons, hraw, cons_append, cons_append, List.head?_cons]
      rintro ⟨⟩
      cases hc

theorem RawJournalLine.Closed.terminated (h : line.Closed) :
    line.terminated = line := by
  obtain ⟨content, terminator, rfl, -, hterminator⟩ := h
  rw [RawJournalLine.terminated, if_neg]
  intro hlength
  have hraw : (makeLine (content ++ terminator) content.length).rawBytes = content ++ terminator :=
    rfl
  rw [hraw, List.length_append, makeLine] at hlength
  dsimp only at hlength
  rcases hterminator with rfl | rfl | rfl <;> simp at hlength

theorem RawJournalLine.Closed.endsLine (h : line.Closed)
    (before : Bytes) : Froe.endsLine (before ++ line.rawBytes) = true := by
  obtain ⟨content, terminator, rfl, -, hterminator⟩ := h
  have hraw : (makeLine (content ++ terminator) content.length).rawBytes = content ++ terminator :=
    rfl
  rw [hraw, ← append_assoc, Froe.endsLine]
  rcases hterminator with rfl | rfl | rfl
  · rw [List.getLast?_append_of_ne_nil _ (List.cons_ne_nil _ _)]
    rfl
  · rw [List.getLast?_append_of_ne_nil _ (List.cons_ne_nil _ _)]
    rfl
  · rw [List.getLast?_append_of_ne_nil _ (List.cons_ne_nil _ _)]
    rfl

/-- The last byte of an unfinished line does not end it; another one does. -/
theorem RawJournalLine.Unfinished.ends (h : line.Unfinished) (before : Bytes) :
    Froe.endsLine (before ++ line.rawBytes) = false ∧
      line.terminated.rawBytes = line.rawBytes ++ [10] ∧
      splitLinesFrom [] (line.rawBytes ++ [10]) = [line.terminated] := by
  obtain ⟨content, rfl, hcontent, hne⟩ := h
  have hraw : (makeLine content content.length).rawBytes = content := rfl
  have hterminated : (makeLine content content.length).terminated =
      makeLine (content ++ [10]) content.length := by
    rw [RawJournalLine.terminated]
    refine (if_pos rfl).trans ?_
    rw [makeLine, makeLine, List.take_left, List.take_length]
  refine ⟨?_, by rw [hterminated]; rfl, ?_⟩
  · rw [hraw, Froe.endsLine, List.getLast?_append_of_ne_nil _ hne, List.getLast?_eq_some_getLast hne,
      Option.any_some]
    exact hcontent _ (List.getLast_mem hne)
  · rw [hraw, splitLinesFrom_content _ _ _ hcontent, List.nil_append, hterminated]
    rfl

theorem terminateLast_append_singleton (lines : List RawJournalLine) (line : RawJournalLine) :
    terminateLast (lines ++ [line]) = lines ++ [line.terminated] := by
  induction lines with
  | nil => rfl
  | cons first lines ih =>
    cases lines with
    | nil => rfl
    | cons second lines =>
      rw [cons_append, cons_append, terminateLast, ← cons_append, ih]
      rfl

/-! ## The lines that stay -/

theorem flatMap_retained (lines : List RawJournalLine) (retained : Finset Nat) :
    (lines.zipIdx.flatMap fun entry => if entry.2 ∈ retained then entry.1.rawBytes else []) =
      (retainedLines lines retained).flatMap RawJournalLine.rawBytes := by
  rw [retainedLines, List.flatMap_map]
  generalize lines.zipIdx = entries
  induction entries with
  | nil => rfl
  | cons entry entries ih =>
    rw [List.flatMap_cons, ih]
    by_cases hmem : entry.2 ∈ retained
    · rw [if_pos hmem, List.filter_cons_of_pos (by simpa using hmem), List.flatMap_cons]
    · rw [if_neg hmem, List.filter_cons_of_neg (by simpa using hmem)]
      rfl

/-- Some of closed lines and one that may be unfinished. -/
theorem retainedLines_shape (source : Bytes) (retained : Finset Nat) :
    ∃ closed last, retainedLines (splitAndClassifyLines source) retained = closed ++ last ∧
      (∀ line ∈ closed, line.Closed) ∧
      (last = [] ∨ ∃ line, last = [line] ∧ line.Unfinished) := by
  obtain ⟨closed, last, hsplit, hclosed, hlast⟩ := splitLinesFrom_shape [] source nofun
  refine ⟨_, _, by rw [splitAndClassifyLines, hsplit, retainedLines, List.zipIdx_append,
    List.filter_append, List.map_append], ?_, ?_⟩
  · intro line hmem
    obtain ⟨entry, hentry, rfl⟩ := mem_map.mp hmem
    exact hclosed _ (List.fst_mem_of_mem_zipIdx (List.mem_of_mem_filter hentry))
  · rcases hlast with rfl | ⟨line, rfl, hline⟩
    · exact .inl rfl
    · rw [List.zipIdx_singleton]
      by_cases hmem : 0 + closed.length ∈ retained
      · rw [List.filter_cons_of_pos (by simpa using hmem)]
        exact .inr ⟨line, rfl, hline⟩
      · rw [List.filter_cons_of_neg (by simpa using hmem)]
        exact .inl rfl

theorem selectIndex_ok_iff {next : Finset Nat} :
    selectIndex lines retained index = .ok next ↔
      (∃ line, lines[index]? = some line ∧ line.IsRecord) ∧ index ∉ retained ∧
        insert index retained = next := by
  rw [selectIndex]
  cases hline : lines[index]? with
  | none => exact iff_of_false nofun fun h => nomatch h.1.choose_spec.1
  | some line =>
    dsimp only
    have hrecord : (∃ other, some line = some other ∧ other.IsRecord) ↔ line.IsRecord :=
      ⟨fun ⟨_, heq, h⟩ => Option.some.inj heq ▸ h, fun h => ⟨line, rfl, h⟩⟩
    rw [hrecord, RawJournalLine.IsRecord]
    cases line.classification with
    | parserSkippedNoSpace => exact iff_of_false nofun fun h => nomatch h.1.choose_spec
    | invalidRecordIdentifier text => exact iff_of_false nofun fun h => nomatch h.1.choose_spec
    | record record =>
      dsimp only
      by_cases hmem : index ∈ retained
      · rw [if_pos hmem]
        exact iff_of_false nofun fun h => h.2.1 hmem
      · rw [if_neg hmem]
        exact ⟨fun h => ⟨⟨record, rfl⟩, hmem, Except.ok.inj h⟩, fun h => congrArg Except.ok h.2.2⟩

theorem foldlM_selectIndex_ok_iff {start : Finset Nat} :
    indexes.foldlM (selectIndex lines) start = .ok retained ↔
      (∀ index ∈ indexes, (∃ line, lines[index]? = some line ∧ line.IsRecord) ∧ index ∉ start) ∧
        indexes.Nodup ∧ start ∪ indexes.toFinset = retained := by
  induction indexes generalizing start with
  | nil =>
    rw [List.foldlM_nil, List.toFinset_nil, Finset.union_empty]
    exact ⟨fun h => ⟨nofun, .nil, Except.ok.inj h⟩, fun h => congrArg Except.ok h.2.2⟩
  | cons index indexes ih =>
    rw [Except.foldlM_cons_ok_iff, List.forall_mem_cons, List.nodup_cons, List.toFinset_cons]
    constructor
    · rintro ⟨next, hselect, hrest⟩
      obtain ⟨hrecord, hfresh, rfl⟩ := selectIndex_ok_iff.mp hselect
      obtain ⟨hrecords, hnodup, rfl⟩ := ih.mp hrest
      refine ⟨⟨⟨hrecord, hfresh⟩, fun other hmem => ⟨(hrecords other hmem).1, fun hother =>
        (hrecords other hmem).2 (Finset.mem_insert_of_mem hother)⟩⟩, ⟨fun hmem =>
        (hrecords index hmem).2 (Finset.mem_insert_self ..), hnodup⟩, ?_⟩
      rw [Finset.insert_union, Finset.union_insert]
    · rintro ⟨⟨⟨hrecord, hfresh⟩, hrecords⟩, ⟨hnotmem, hnodup⟩, rfl⟩
      refine ⟨_, selectIndex_ok_iff.mpr ⟨hrecord, hfresh, rfl⟩, ih.mpr ⟨fun other hmem =>
        ⟨(hrecords other hmem).1, fun hother => ?_⟩, hnodup, ?_⟩⟩
      · rcases Finset.mem_insert.mp hother with rfl | hother
        · exact hnotmem hmem
        · exact (hrecords other hmem).2 hother
      · rw [Finset.insert_union, Finset.union_insert]

theorem validateRetainedIndexes_ok_iff :
    validateRetainedIndexes lines indexes = .ok retained ↔
      indexes ≠ [] ∧ (∀ index ∈ indexes, ∃ line, lines[index]? = some line ∧ line.IsRecord) ∧
        indexes.Nodup ∧ indexes.toFinset = retained := by
  rw [validateRetainedIndexes]
  by_cases hempty : indexes = []
  · rw [if_pos (List.isEmpty_iff.mpr hempty)]
    exact iff_of_false nofun fun h => h.1 hempty
  · rw [if_neg (mt List.isEmpty_iff.mp hempty), foldlM_selectIndex_ok_iff, Finset.empty_union]
    exact ⟨fun h => ⟨hempty, fun index hmem => (h.1 index hmem).1, h.2⟩,
      fun h => ⟨fun index hmem => ⟨h.2.1 index hmem, Finset.notMem_empty _⟩, h.2.2⟩⟩

/-- The rewritten journal has exactly the lines that stay. -/
theorem splitAndClassifyLines_assembleReplacement {source : Bytes}
    (h : validateRetainedIndexes (splitAndClassifyLines source) indexes = .ok retained) :
    splitAndClassifyLines (assembleReplacement (splitAndClassifyLines source) retained) =
      terminateLast (retainedLines (splitAndClassifyLines source) retained) := by
  obtain ⟨hindexes, hselected, -, rfl⟩ := validateRetainedIndexes_ok_iff.mp h
  obtain ⟨first, hfirst⟩ := List.exists_mem_of_ne_nil _ hindexes
  rw [← List.mem_toFinset] at hfirst
  have hrecords : ∀ index ∈ indexes.toFinset,
      ∃ line, (splitAndClassifyLines source)[index]? = some line ∧ line.IsRecord :=
    fun index hmem => hselected index (List.mem_toFinset.mp hmem)
  have hall : ∀ line ∈ retainedLines (splitAndClassifyLines source) indexes.toFinset,
      line.IsRecord := by
    intro line hmem
    obtain ⟨entry, hentry, rfl⟩ := mem_map.mp hmem
    obtain ⟨hzip, hretained⟩ := mem_filter.mp hentry
    obtain ⟨line, hline, hrecord⟩ := hrecords entry.2 (of_decide_eq_true hretained)
    rw [List.mem_zipIdx_iff_getElem?] at hzip
    rw [hzip] at hline
    cases hline
    exact hrecord
  have hne : retainedLines (splitAndClassifyLines source) indexes.toFinset ≠ [] := by
    obtain ⟨line, hline, -⟩ := hrecords first hfirst
    refine List.ne_nil_of_mem (mem_map.mpr ⟨(line, first), ?_, rfl⟩)
    exact mem_filter.mpr ⟨List.mem_zipIdx_iff_getElem?.mpr hline, decide_eq_true hfirst⟩
  obtain ⟨closed, last, hshape, hclosed, hlast⟩ := retainedLines_shape source indexes.toFinset
  rw [assembleReplacement, flatMap_retained]
  rw [hshape] at hall hne ⊢
  rw [List.forall_mem_append] at hall
  have hclosed' : ∀ line ∈ closed, line.Closed ∧ line.IsRecord :=
    fun line hmem => ⟨hclosed line hmem, hall.1 line hmem⟩
  rcases hlast with rfl | ⟨line, rfl, hline⟩
  · rw [append_nil] at hne ⊢
    obtain ⟨front, final, rfl⟩ : ∃ front final, closed = front ++ [final] := by
      rcases List.eq_nil_or_concat closed with rfl | ⟨front, final, rfl⟩
      · exact absurd rfl hne
      · exact ⟨front, final, List.concat_eq_append⟩
    have hfinal := hclosed final (List.mem_append_right _ (.head _))
    have hsplit := @splitLinesFrom_records _ hclosed' [] (by rintro ⟨⟩)
    rw [append_nil] at hsplit
    rw [terminateLast_append_singleton, hfinal.terminated, if_pos]
    · rw [splitAndClassifyLines, hsplit]
      exact append_nil _
    · rw [List.flatMap_append, List.flatMap_singleton]
      exact hfinal.endsLine _
  · obtain ⟨hends, -, hsplit⟩ := hline.ends (closed.flatMap RawJournalLine.rawBytes)
    rw [terminateLast_append_singleton, List.flatMap_append, List.flatMap_singleton, hends,
      if_neg (by rintro ⟨⟩), append_assoc, splitAndClassifyLines, splitLinesFrom_records hclosed', hsplit]
    obtain ⟨c, rest, hraw, hc⟩ := head?_of_record (.inr hline) (hall.2 line (.head _))
    rw [hraw, cons_append, List.head?_cons]
    rintro ⟨⟩
    cases hc

/-! ## The lines of a plan -/

theorem mem_newest (h : index ∈ newest retention indexes) : index ∈ indexes := by
  cases retention with
  | none => exact h
  | some bound => exact List.mem_of_mem_drop h

theorem pairwise_newest
    (h : indexes.Pairwise (· < ·)) : (newest retention indexes).Pairwise (· < ·) := by
  cases retention with
  | none => exact h
  | some bound => exact h.sublist (List.drop_sublist _ _)

theorem record_of_mem_readableIndexes {revisions : Revisions} {currentHead : RecordIdentifier}
    (h : index ∈ readableIndexes revisions currentHead lines) :
    ∃ line, lines[index]? = some line ∧ line.IsRecord := by
  obtain ⟨entry, hentry, rfl⟩ := mem_map.mp h
  obtain ⟨hmem, hread⟩ := mem_filter.mp hentry
  refine ⟨entry.1, List.mem_zipIdx_iff_getElem?.mp hmem, ?_⟩
  rw [readableRecord, presentRecord] at hread
  cases hclass : entry.1.classification with
  | parserSkippedNoSpace =>
    rw [hclass] at hread
    cases hread
  | invalidRecordIdentifier text =>
    rw [hclass] at hread
    cases hread
  | record record => exact ⟨record, hclass⟩

/-- The lines at ascending numbers. -/
theorem retainedLines_toFinset (hascending : indexes.Pairwise (· < ·))
    (hin : ∀ index ∈ indexes, ∃ line, lines[index]? = some line) :
    (retainedLines lines indexes.toFinset).map some = indexes.map (lines[·]?) := by
  have hall : (lines.zipIdx.map Prod.snd).Pairwise (· < ·) := by
    rw [List.zipIdx_map_snd]
    exact List.pairwise_lt_range'
  have hnumbers : (lines.zipIdx.filter fun entry => entry.2 ∈ indexes.toFinset).map Prod.snd =
      indexes := by
    refine List.Pairwise.eq_of_mem_iff (hall.sublist (List.filter_sublist.map Prod.snd)) hascending
      fun index => ?_
    constructor
    · intro hmem
      obtain ⟨entry, hentry, rfl⟩ := mem_map.mp hmem
      exact List.mem_toFinset.mp (of_decide_eq_true (mem_filter.mp hentry).2)
    · intro hmem
      obtain ⟨line, hline⟩ := hin index hmem
      refine mem_map.mpr ⟨(line, index), mem_filter.mpr ⟨?_, ?_⟩, rfl⟩
      · exact List.mem_zipIdx_iff_getElem?.mpr hline
      · exact decide_eq_true (List.mem_toFinset.mpr hmem)
  refine Eq.trans ?_ (congrArg (List.map (lines[·]?)) hnumbers)
  rw [retainedLines, List.map_map, List.map_map]
  refine List.map_congr_left fun entry hmem => ?_
  exact (List.mem_zipIdx_iff_getElem?.mp (List.mem_of_mem_filter hmem)).symm

/-- Every line stays or goes and none does both; the lines that stay are the newest that can be
read, and the one that names the head is among them; their bytes are the lines of the plan; and
the rewritten journal has exactly these lines, of which the last is terminated. -/
theorem journal_retention_exact {revisions : Revisions} {lines : List RawJournalLine}
    {currentHead : RecordIdentifier} {retention : Option ℕ+} {analysis : JournalAnalysis}
    (h : analyzeJournalLines revisions lines currentHead retention = .ok analysis) :
    analysis.Exact revisions lines currentHead retention ∧
      validateRetainedIndexes lines analysis.retainedIndexes =
        .ok analysis.retainedIndexes.toFinset ∧
      (retainedLines lines analysis.retainedIndexes.toFinset).map RawJournalLine.rawBytes =
        analysis.plan.retainedRawLines ∧
      ∀ source, lines = splitAndClassifyLines source →
        splitAndClassifyLines (assembleReplacement lines analysis.retainedIndexes.toFinset) =
          terminateLast (retainedLines lines analysis.retainedIndexes.toFinset) := by
  have hexact := analyzeJournalLines_exact h
  obtain ⟨head, hhead, -⟩ := hexact.head
  have hrecords : ∀ index ∈ analysis.retainedIndexes,
      ∃ line, lines[index]? = some line ∧ line.IsRecord := by
    intro index hmem
    rw [hexact.retained] at hmem
    exact record_of_mem_readableIndexes (mem_newest hmem)
  have hascending : analysis.retainedIndexes.Pairwise (· < ·) := by
    rw [hexact.retained]
    exact pairwise_newest (pairwise_readableIndexes revisions currentHead lines)
  have hvalid : validateRetainedIndexes lines analysis.retainedIndexes =
      .ok analysis.retainedIndexes.toFinset :=
    validateRetainedIndexes_ok_iff.mpr ⟨List.ne_nil_of_mem hhead, hrecords,
      hascending.imp Nat.ne_of_lt, rfl⟩
  refine ⟨hexact, hvalid, ?_, ?_⟩
  · have hlines := retainedLines_toFinset hascending fun index hmem =>
      (hrecords index hmem).imp fun _ => And.left
    have hbytes := congrArg (List.filterMap (Option.map RawJournalLine.rawBytes)) hlines
    rw [List.filterMap_map, List.filterMap_map] at hbytes
    rw [hexact.rawLines]
    exact (congrFun List.filterMap_eq_map _).symm.trans hbytes
  · rintro source rfl
    exact splitAndClassifyLines_assembleReplacement hvalid

/-- A revision of segment number `n`. -/
def revisionAt (n : UInt64) : RecordIdentifier := ⟨⟨n, 0xA000000000000000⟩, 0⟩

/-- Two lines that name one revision around one without a space. -/
def repeatedRevision : List RawJournalLine :=
  [⟨[120, 32, 10], 2, .record ⟨revisionAt 1, [120], [], .missing⟩⟩,
    ⟨[121, 10], 1, .parserSkippedNoSpace⟩,
    ⟨[122, 32], 2, .record ⟨revisionAt 1, [122], [], .missing⟩⟩]

theorem journal_retention_exact_repeated :
    ∃ analysis, analyzeJournalLines ⟨fun _ => true, fun _ => false⟩ repeatedRevision (revisionAt 1)
        (some 1) = .ok analysis ∧ analysis.retainedIndexes = [2] := by
  obtain ⟨analysis, hanalysis⟩ : ∃ analysis, analyzeJournalLines ⟨fun _ => true, fun _ => false⟩
      repeatedRevision (revisionAt 1) (some 1) = .ok analysis := ⟨_, rfl⟩
  obtain ⟨hexact, -⟩ := journal_retention_exact hanalysis
  exact ⟨analysis, hanalysis, hexact.retained.trans (by decide)⟩

end Froe
