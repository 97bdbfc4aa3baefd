import Froe.Writer.Nodes

/-!
# Writing does not fail

Over a sink that takes every segment, a record of a moderate size can always be
written: a segment that holds nothing but its first record has room for it
(`Fresh`).  So values and lists of any length are written, and the number of
segments they draw is bounded (`Succeeds`); with it goes the fact that the
identifiers of the segments are those that were drawn (`Numbered`).
-/

namespace Froe

open List (append_assoc length_map length_nil map_append map_singleton)
open StateT (bind_ok_iff get_bind_ok_iff get_ok_iff pure_ok_iff)

open RecordWriter

variable {c : Session} {w w' : RecordWriter}

/-- A segment with one record has room for another one. -/
def Fresh (w : RecordWriter) : Prop :=
  w.current.records.length ≤ 1 →
    w.current.referencedSegments = [] ∧ dataLength w.current.records ≤ 16516

/-- The identifiers of the segments are those that were drawn. -/
def Numbered (c : Session) (w : RecordWriter) : Prop :=
  w.identifiers.Perm ((List.range w.dataSegments).map c.environment.dataSegmentIdentifier ++
    (List.range w.bulkSegments).map c.environment.bulkSegmentIdentifier)

/-! ## Fresh segments -/

theorem startSegment_fresh (env : Environment) (w : RecordWriter) :
    (w.startSegment env).current.referencedSegments = [] ∧
      dataLength (w.startSegment env).current.records ≤ 16516 ∧
      (w.startSegment env).current.records.length = 1 ∧
      (w.startSegment env).current.identifier = env.dataSegmentIdentifier w.dataSegments := by
  obtain ⟨current, fields, hstart, hfilled, hle⟩ := RecordWriter.startSegment_spec env w
  rw [hstart]
  dsimp only
  have hlength : current.records.length = 1 := hfilled.length
  obtain ⟨record, hrecord⟩ := List.length_eq_one_iff.mp hlength
  have hholds := hfilled.holds.record
  rw [hrecord] at hholds
  have hcontent := Option.some.inj (show some record = some _ from hholds)
  refine ⟨?_, ?_, hlength, hfilled.grows.identifier⟩
  · refine List.eq_nil_iff_forall_not_mem.mpr fun segment hmem => ?_
    rcases hfilled.references segment hmem with hold | ⟨-, hnew⟩
    · cases hold
    · cases hnew
  · rw [hrecord, hcontent]
    simp only [dataLength, map_singleton, List.sum_singleton,
      SegmentBufferBuilder.length_flatMap_fieldBytes]
    unfold alignedSize
    omega

theorem Step.fresh (hw : Valid c w) (h : Step c w w') (hfresh : Fresh w) : Fresh w' := by
  have hstarted := hw.started
  cases h with
  | record hfilled _ _ =>
    intro hle
    have hlength := hfilled.length
    dsimp only at hle
    omega
  | external hfilled _ _ =>
    intro hle
    have hlength := hfilled.length
    simp only [SegmentBufferBuilder.registerBinaryReference] at hle
    omega
  | roll _ _ =>
    intro _
    obtain ⟨hreferences, hdata, -⟩ := startSegment_fresh c.environment w
    exact ⟨hreferences, hdata⟩
  | bulk _ _ => exact hfresh
  | cacheValue _ _ => exact hfresh
  | cacheTemplate _ _ => exact hfresh

theorem Steps.fresh (h : Steps c w w') (hw : Valid c w) (hfresh : Fresh w) : Fresh w' := by
  induction h with
  | refl => exact hfresh
  | tail hsteps hstep ih => exact hstep.fresh (Steps.valid hsteps hw) ih

theorem Step.numbered (h : Step c w w') (hnumbered : Numbered c w) : Numbered c w' := by
  cases h with
  | record hfilled _ _ =>
    unfold Numbered RecordWriter.identifiers at *
    dsimp only
    rwa [hfilled.grows.identifier]
  | external hfilled _ _ =>
    unfold Numbered RecordWriter.identifiers at *
    simp only [SegmentBufferBuilder.registerBinaryReference]
    rwa [hfilled.grows.identifier]
  | roll _ _ =>
    obtain ⟨current, fields, hstart, hfilled, -⟩ := w.startSegment_spec c.environment
    unfold Numbered RecordWriter.identifiers at *
    have hidentifier : current.identifier = c.environment.dataSegmentIdentifier w.dataSegments :=
      hfilled.grows.identifier
    rw [hstart]
    dsimp only
    rw [hidentifier, List.range_succ, map_append, map_append, map_singleton,
      map_singleton]
    refine (hnumbered.append_right [c.environment.dataSegmentIdentifier w.dataSegments]).trans ?_
    rw [append_assoc, append_assoc]
    exact List.Perm.append_left _ List.perm_append_comm
  | bulk _ _ =>
    unfold Numbered RecordWriter.identifiers at *
    dsimp only
    rw [map_append, map_singleton, List.range_succ, map_append, map_singleton,
      ← append_assoc]
    refine List.Perm.trans ?_ (hnumbered.append_right _)
    rw [append_assoc, append_assoc]
    exact List.Perm.append_left _ List.perm_append_comm
  | cacheValue _ _ => exact hnumbered
  | cacheTemplate _ _ => exact hnumbered

theorem Steps.numbered (h : Steps c w w') (hnumbered : Numbered c w) : Numbered c w' := by
  induction h with
  | refl => exact hnumbered
  | tail _ hstep ih => exact hstep.numbered ih

/-! ## Success -/

/-- How many segments have been drawn. -/
def RecordWriter.drawn (w : RecordWriter) : Nat := w.dataSegments + w.bulkSegments

/-- A session whose sink takes every segment and whose records may refer to every segment. -/
structure Session.Open (c : Session) : Prop where
  takes : ∀ sink segment, c.environment.takesSegment sink segment = .ok ()
  outside : ∀ segment, c.outside segment

/-- A step that never fails and draws a bounded number of segments. -/
def Succeeds (c : Session) (k : Nat) {α : Type} (f : Writing α) : Prop :=
  ∀ w, Valid c w → Fresh w → ∃ a w', f.run w = .ok (a, w') ∧ Steps c w w' ∧
    w'.drawn ≤ w.drawn + k

section

variable {α β : Type} {k l : Nat} {f : Writing α}

theorem Succeeds.mono (h : Succeeds c k f) (hle : k ≤ l) : Succeeds c l f := by
  intro w hw hfresh
  obtain ⟨a, w', hrun, hsteps, hdrawn⟩ := h w hw hfresh
  exact ⟨a, w', hrun, hsteps, by omega⟩

theorem Succeeds.pure (a : α) : Succeeds c 0 (pure a) := fun w _ _ =>
  ⟨a, w, pure_ok_iff.mpr ⟨rfl, rfl⟩, Steps.refl _, Nat.le_refl _⟩

theorem Succeeds.bind {g : α → Writing β} (hf : Succeeds c k f)
    (hg : ∀ a, (∃ w w', Valid c w ∧ f.run w = .ok (a, w')) → Succeeds c l (g a)) :
    Succeeds c (k + l) (f >>= g) := by
  intro w hw hfresh
  obtain ⟨a, w₁, hrun, hsteps, hdrawn⟩ := hf w hw hfresh
  obtain ⟨b, w₂, hrun', hsteps', hdrawn'⟩ := hg a ⟨w, w₁, hw, hrun⟩ w₁ (hsteps.valid hw)
    (hsteps.fresh hw hfresh)
  exact ⟨b, w₂, bind_ok_iff.mpr ⟨a, w₁, hrun, hrun'⟩, hsteps.trans hsteps', by omega⟩

theorem Succeeds.mapM {f : α → Writing β} {as : List α}
    (h : ∀ a ∈ as, Succeeds c k (f a)) : Succeeds c (as.length * k) (as.mapM f) := by
  induction as with
  | nil =>
    rw [List.mapM_nil, length_nil, Nat.zero_mul]
    exact Succeeds.pure []
  | cons a as ih =>
    have hrest := ih fun a' ha' => h a' (List.mem_cons_of_mem _ ha')
    have hall := (h a (List.mem_cons_self ..)).bind fun b _ =>
      hrest.bind fun bs _ => Succeeds.pure (b :: bs)
    rw [List.mapM_cons]
    refine hall.mono ?_
    rw [List.length_cons, Nat.succ_mul]
    omega

end

/-- A segment with more than its first record is handed to the sink. -/
theorem flushCurrentSegment_rolls (hopen : c.Open) (hlong : 1 < w.current.records.length) :
    (flushCurrentSegment c.environment).run w = .ok (⟨⟩,
      { w.startSegment c.environment with
        sink := (w.startSegment c.environment).sink ++ [w.current.finish] }) := by
  rw [flushCurrentSegment]
  refine get_bind_ok_iff.mpr ?_
  rw [if_neg (by omega)]
  refine StateT.set_bind_ok_iff.mpr ?_
  exact bind_ok_iff.mpr ⟨_, _, get_ok_iff.mpr ⟨rfl, rfl⟩,
    bind_ok_iff.mpr ⟨⟨⟩, _, StateT.lift_ok_iff.mpr ⟨hopen.takes _ _, rfl⟩,
      StateT.set_ok_iff.mpr rfl⟩⟩

theorem drawn_startSegment (env : Environment) (w : RecordWriter) :
    (w.startSegment env).drawn = w.drawn + 1 := by
  obtain ⟨current, fields, hstart, -⟩ := RecordWriter.startSegment_spec env w
  rw [RecordWriter.drawn, RecordWriter.drawn, hstart]
  dsimp only
  omega

theorem flushCurrentSegment_succeeds (hopen : c.Open) :
    Succeeds c 1 (flushCurrentSegment c.environment) := by
  intro w _ _
  by_cases hlong : 1 < w.current.records.length
  · have hrun := flushCurrentSegment_rolls hopen hlong
    exact ⟨⟨⟩, _, hrun, flushCurrentSegment_steps hrun, (drawn_startSegment c.environment w).le⟩
  · have hrun : (flushCurrentSegment c.environment).run w = .ok (⟨⟩, w) := by
      rw [flushCurrentSegment]
      refine get_bind_ok_iff.mpr ?_
      rw [if_pos (not_lt.mp hlong)]
      rfl
    exact ⟨⟨⟩, w, hrun, Steps.refl _, Nat.le_add_right _ _⟩

theorem allocate_succeeds (hopen : c.Open) {recordType : RecordType} {size : Nat}
    {referenced : List RecordIdentifier} (hfresh : Fresh w) (hsize : size ≤ 2 ^ 17)
    (hreferenced : referenced.length ≤ 2 ^ 12) :
    ∃ number w', (allocate c.environment recordType size referenced).run w = .ok (number, w') ∧
      w'.drawn ≤ w.drawn + 1 := by
  have hroom : ∀ b : SegmentBufferBuilder, b.referencedSegments = [] →
      dataLength b.records ≤ 16516 → b.records.length ≤ 1 →
      b.allocate recordType size (referenced.map RecordIdentifier.segment) ≠ none := by
    intro b hempty hdata hone
    rw [SegmentBufferBuilder.allocate_of_room (by
        rw [hempty, length_map, length_nil]
        unfold maximumSegmentReferences
        omega) (by
        rw [hempty, length_map, length_nil]
        omega)]
    nofun
  rw [allocate]
  cases halloc : w.current.allocate recordType size (referenced.map RecordIdentifier.segment) with
  | some allocated =>
    obtain ⟨number, current⟩ := allocated
    refine ⟨number, { w with current := current }, bind_ok_iff.mpr ⟨w, w,
      get_ok_iff.mpr ⟨rfl, rfl⟩, ?_⟩, Nat.le_succ _⟩
    rw [halloc]
    rfl
  | none =>
    have hlong : 1 < w.current.records.length := by
      by_contra hle
      obtain ⟨hreferences, hdata⟩ := hfresh (by omega)
      exact hroom _ hreferences hdata (by omega) halloc
    obtain ⟨hreferences, hdata, hone, -⟩ := startSegment_fresh c.environment w
    obtain ⟨started, hstarted⟩ : ∃ started : RecordWriter, started =
      { w.startSegment c.environment with
        sink := (w.startSegment c.environment).sink ++ [w.current.finish] } := ⟨_, rfl⟩
    have hflush := flushCurrentSegment_rolls hopen hlong
    rw [← hstarted] at hflush
    obtain ⟨⟨number, current⟩, hnext⟩ := Option.ne_none_iff_exists'.mp
      (hroom started.current (by rw [hstarted]; exact hreferences) (by rw [hstarted]; exact hdata)
        (by rw [hstarted]; exact hone.le))
    refine ⟨number, { started with current := current }, bind_ok_iff.mpr ⟨w, w,
      get_ok_iff.mpr ⟨rfl, rfl⟩, ?_⟩, ?_⟩
    · rw [halloc]
      dsimp only
      refine bind_ok_iff.mpr ⟨⟨⟩, started, hflush, bind_ok_iff.mpr ⟨started, started,
        get_ok_iff.mpr ⟨rfl, rfl⟩, ?_⟩⟩
      rw [hnext]
      rfl
    · rw [hstarted]
      exact (drawn_startSegment c.environment w).le

section

variable (hopen : c.Open)
include hopen

/-- A record of a moderate size is written. -/
theorem writeRecord_succeeds {recordType : RecordType} {size : Nat}
    {referenced : List RecordIdentifier} {fields : RecordIdentifier → List Field}
    (htype : recordType ≠ .externalBlobIdentifier)
    (hfieldsSize : ∀ own, size = fieldsLength (fields own)) (hpos : 0 < size)
    (hfields : ∀ own record, .identifier record ∈ fields own → record = own ∨ record ∈ referenced)
    (hsize : size ≤ 2 ^ 17) (hreferenced : referenced.length ≤ 2 ^ 12) :
    Succeeds c 1 (writeRecord c.environment recordType size referenced fields) := by
  intro w hw hfresh
  obtain ⟨number, w₁, hallocate, hdrawn⟩ := @allocate_succeeds c w hopen recordType size referenced
    hfresh hsize hreferenced
  have hrun : (writeRecord c.environment recordType size referenced fields).run w =
      .ok (⟨w₁.current.identifier, UInt32.ofNat number⟩, { w₁ with
        current := w₁.current.fill number 0
          (fields ⟨w₁.current.identifier, UInt32.ofNat number⟩) }) :=
    bind_ok_iff.mpr ⟨number, w₁, hallocate, rfl⟩
  exact ⟨_, _, hrun, (writeRecord_spec hw hrun htype hfieldsSize hpos hfields
    fun record _ => .inl (hopen.outside record.segment)).1, hdrawn⟩

/-! ## Lists -/

theorem writeListBucket_succeeds {chunk : List RecordIdentifier}
    (hpos : 0 < chunk.length) (hle : chunk.length ≤ bucketCapacity) :
    Succeeds c 1 (writeListBucket c.environment chunk) := by
  unfold bucketCapacity at hle
  unfold writeListBucket
  split
  · exact (Succeeds.pure _).mono (Nat.zero_le _)
  · exact writeRecord_succeeds hopen nofun
      (fun _ => by rw [SegmentView.fieldsLength_identifiers, Nat.mul_comm]) (by omega)
      (fun _ record hmem => .inr (by simpa using hmem)) (by omega) (by omega)

theorem writeListLevels_succeeds {rounds : Nat} {level : List RecordIdentifier} :
    Succeeds c level.length (writeListLevels c.environment rounds level) := by
  induction rounds generalizing level with
  | zero => exact (Succeeds.pure _).mono (Nat.zero_le _)
  | succ rounds ih =>
    rw [writeListLevels]
    split
    · exact (Succeeds.pure _).mono (Nat.zero_le _)
    · rename_i hlong
      have hbuckets : Succeeds c ((level.chunks bucketCapacity).length * 1)
          ((level.chunks bucketCapacity).mapM (writeListBucket c.environment)) := by
        refine Succeeds.mapM fun chunk hmem => ?_
        obtain ⟨hpos, hle, -⟩ := List.mem_chunks (by decide) hmem
        exact writeListBucket_succeeds hopen hpos hle
      have hboth := hbuckets.bind (l := (level.chunks bucketCapacity).length)
        (g := writeListLevels c.environment rounds) (by
          rintro next ⟨t, t', -, hrun⟩
          have hlength := StateT.mapM_length hrun
          exact ih.mono (by omega))
      refine hboth.mono ?_
      rw [List.length_chunks (by decide)]
      unfold bucketCapacity
      omega

theorem writeListBody_succeeds (elements : List RecordIdentifier) :
    Succeeds c elements.length (writeListBody c.environment elements) := by
  unfold writeListBody
  split
  · exact (Succeeds.pure _).mono (Nat.zero_le _)
  · exact (writeListLevels_succeeds hopen).bind fun top _ => Succeeds.pure top.head?

theorem writeCountedList_succeeds (elements : List RecordIdentifier) :
    Succeeds c (elements.length + 1) (writeCountedList c.environment elements) := by
  refine (writeListBody_succeeds hopen elements).bind fun body _ => ?_
  cases body with
  | none =>
    exact writeRecord_succeeds hopen nofun (fun _ => rfl) (by decide)
      (fun _ record hmem => by simp at hmem) (by decide) (by decide)
  | some body =>
    exact writeRecord_succeeds hopen nofun (fun _ => rfl) (by decide)
      (fun _ record hmem => .inr (by simpa using hmem)) (by decide) (by simp)

end

/-! ## Values -/

variable {content : Bytes} {blocks : List RecordIdentifier}

theorem writeBulkSegment_succeeds (hopen : c.Open) (hlength : content.length = maximumSegmentSize) :
    Succeeds c 1 (writeBulkSegment c.environment content) := by
  intro w _ _
  have hrun : (writeBulkSegment c.environment content).run w = .ok
      (c.environment.bulkSegmentIdentifier w.bulkSegments, { w with
        sink := w.sink ++ [.bulk (c.environment.bulkSegmentIdentifier w.bulkSegments) content]
        bulkSegments := w.bulkSegments + 1 }) := by
    refine bind_ok_iff.mpr ⟨w, w, get_ok_iff.mpr ⟨rfl, rfl⟩,
      bind_ok_iff.mpr ⟨⟨⟩, _, StateT.set_ok_iff.mpr rfl,
        bind_ok_iff.mpr ⟨⟨⟩, _, bind_ok_iff.mpr ⟨_, _,
          get_ok_iff.mpr ⟨rfl, rfl⟩, bind_ok_iff.mpr ⟨⟨⟩, _,
            StateT.lift_ok_iff.mpr ⟨hopen.takes _ _, rfl⟩, StateT.set_ok_iff.mpr rfl⟩⟩,
          pure_ok_iff.mpr ⟨rfl, rfl⟩⟩⟩⟩
  refine ⟨_, _, hrun, (writeBulkSegment_spec hrun hlength).1, ?_⟩
  rw [RecordWriter.drawn, RecordWriter.drawn]
  dsimp only
  omega

theorem writeBulkRuns_succeeds (hopen : c.Open) {rounds : Nat} {content : Bytes} :
    Succeeds c content.length (writeBulkRuns c.environment rounds content) := by
  induction rounds generalizing content with
  | zero => exact (Succeeds.pure _).mono (Nat.zero_le _)
  | succ rounds ih =>
    rw [writeBulkRuns]
    split
    · exact (Succeeds.pure _).mono (Nat.zero_le _)
    · rename_i hlong
      have hlength : (content.take maximumSegmentSize).length = maximumSegmentSize := by
        rw [List.length_take]
        omega
      have hall := (writeBulkSegment_succeeds hopen hlength).bind fun identifier _ =>
        (@ih (content.drop maximumSegmentSize)).bind fun later _ =>
          Succeeds.pure (c := c) (bulkBlocks identifier ++ later.1, later.2)
      refine hall.mono ?_
      rw [List.length_drop]
      unfold maximumSegmentSize at *
      omega

theorem writeBlock_succeeds (hopen : c.Open) {bytes : Bytes} (hpos : 0 < bytes.length)
    (hle : bytes.length ≤ blockSize) : Succeeds c 1 (writeBlock c.environment bytes) := by
  unfold blockSize at hle
  exact writeRecord_succeeds hopen nofun (fun _ => by simp [fieldsLength, Field.length]) hpos
    (fun _ record hmem => by simp at hmem) (by omega) (by decide)

theorem writeBlocks_succeeds (hopen : c.Open) (content : Bytes) :
    Succeeds c (2 * content.length) (writeBlocks c.environment content) := by
  have hruns := @writeBulkRuns_succeeds c hopen content.length content
  have hall := hruns.bind (l := content.length) (g := fun runs => do
    let blocks ← (runs.2.chunks blockSize).mapM (writeBlock c.environment)
    return runs.1 ++ blocks) (by
      rintro runs ⟨w, w', hw, hrun⟩
      obtain ⟨-, -, first, hsplit, -⟩ := writeBulkRuns_spec hw hrun
      have hlength : runs.2.length ≤ content.length := by
        rw [hsplit, List.length_append]
        omega
      have hblocks : Succeeds c ((runs.2.chunks blockSize).length * 1)
          ((runs.2.chunks blockSize).mapM (writeBlock c.environment)) := by
        refine Succeeds.mapM fun bytes hmem => ?_
        obtain ⟨hpos, hle, -⟩ := List.mem_chunks (by decide) hmem
        exact writeBlock_succeeds hopen hpos hle
      refine (hblocks.bind fun blocks _ => Succeeds.pure (c := c) (runs.1 ++ blocks)).mono ?_
      rw [List.length_chunks (by decide)]
      unfold blockSize
      omega)
  exact hall.mono (by omega)

theorem length_writeBulkRuns {env : Environment} {rounds : Nat}
    {runs : List RecordIdentifier × Bytes}
    (h : (writeBulkRuns env rounds content).run w = .ok (runs, w')) :
    runs.1.length * blockSize + runs.2.length = content.length := by
  induction rounds generalizing w w' content runs with
  | zero =>
    obtain ⟨rfl, -⟩ := pure_ok_iff.mp h
    rw [length_nil, Nat.zero_mul, Nat.zero_add]
  | succ rounds ih =>
    rw [writeBulkRuns] at h
    split at h
    · obtain ⟨rfl, -⟩ := pure_ok_iff.mp h
      rw [length_nil, Nat.zero_mul, Nat.zero_add]
    · rename_i hlong
      obtain ⟨identifier, w₁, -, h⟩ := bind_ok_iff.mp h
      obtain ⟨later, w₂, hlater, h⟩ := bind_ok_iff.mp h
      obtain ⟨rfl, -⟩ := pure_ok_iff.mp h
      have hrest := ih hlater
      have hbulk : (bulkBlocks identifier).length * blockSize = maximumSegmentSize := by
        rw [bulkBlocks, length_map, List.length_range]
        rfl
      rw [List.length_drop] at hrest
      dsimp only
      rw [List.length_append, Nat.add_mul, hbulk]
      omega

/-- A content is cut into blocks. -/
theorem length_writeBlocks {env : Environment}
    (h : (writeBlocks env content).run w = .ok (blocks, w')) :
    blocks.length = (content.length + blockSize - 1) / blockSize := by
  obtain ⟨runs, w₁, hruns, h⟩ := bind_ok_iff.mp h
  obtain ⟨rest, w₂, hrest, h⟩ := bind_ok_iff.mp h
  obtain ⟨rfl, -⟩ := pure_ok_iff.mp h
  have hlength := length_writeBulkRuns hruns
  rw [List.length_append, ← StateT.mapM_length hrest, List.length_chunks (by decide)]
  unfold blockSize at *
  omega

theorem writeLongValue_succeeds (hopen : c.Open) {kind : String} {length : Nat} (hne : blocks ≠ []) :
    Succeeds c (blocks.length + 1) (writeLongValue c.environment kind length blocks) := by
  refine (writeListBody_succeeds hopen blocks).bind ?_
  rintro body ⟨w, w', hw, hrun⟩
  obtain ⟨-, ⟨hempty, -⟩ | ⟨list, rfl, -⟩⟩ := writeListBody_spec hw hrun
    fun record _ => .inl (hopen.outside record.segment)
  · exact absurd hempty hne
  · exact writeRecord_succeeds hopen nofun
      (fun _ => by simp [fieldsLength, Field.length, longHeader]) (by decide)
      (fun _ record hmem => .inr (by simpa using hmem)) (by decide) (by simp)

/-- A value of any length is written. -/
theorem writeValueBytes_succeeds (hopen : c.Open) (content : Bytes) :
    Succeeds c (3 * content.length + 1) (writeValueBytes c.environment content) := by
  unfold writeValueBytes
  split
  · rename_i hsmall
    unfold smallValueLimit at hsmall
    refine Succeeds.mono ?_ (show 1 ≤ _ by omega)
    exact writeRecord_succeeds hopen nofun (fun _ => by simp [fieldsLength, Field.length])
      (by omega) (fun _ record hmem => by simp at hmem) (by omega) (by decide)
  split
  · rename_i hmedium
    unfold mediumValueLimit at hmedium
    refine Succeeds.mono ?_ (show 1 ≤ _ by omega)
    exact writeRecord_succeeds hopen nofun
      (fun _ => by simp [fieldsLength, Field.length, mediumHeader]) (by omega)
      (fun _ record hmem => by simp at hmem) (by omega) (by decide)
  · rename_i hlong
    unfold mediumValueLimit at hlong
    have hall := (writeBlocks_succeeds hopen content).bind (l := content.length + 1)
      (g := writeLongValue c.environment "value" content.length) (by
        rintro blocks ⟨w, w', -, hrun⟩
        have hlength := length_writeBlocks hrun
        unfold blockSize at hlength
        exact (writeLongValue_succeeds hopen (List.ne_nil_of_length_pos (by omega))).mono
          (by omega))
    exact hall.mono (by omega)

/-- A text of any length is written. -/
theorem writeString_succeeds (hopen : c.Open) (text : String) :
    Succeeds c (3 * text.utf8.length + 1) (writeString c.environment text) := by
  by_cases hlong : text.utf8.length > maximumDeduplicatedValueBytes
  · rw [writeString, writeDeduplicatedValue, if_pos hlong]
    exact writeValueBytes_succeeds hopen text.utf8
  · intro w hw hfresh
    have hrun : ∃ record w', (writeDeduplicatedValue c.environment text.utf8).run w =
        .ok (record, w') ∧ w'.drawn ≤ w.drawn + (3 * text.utf8.length + 1) := by
      rw [writeDeduplicatedValue, if_neg hlong]
      cases hfound : w.valueCache.get text.utf8 with
      | some existing =>
        refine ⟨existing, w, get_bind_ok_iff.mpr ?_,
          Nat.le_add_right _ _⟩
        rw [hfound]
        rfl
      | none =>
        obtain ⟨written, w₁, hwritten, -, hdrawn⟩ := writeValueBytes_succeeds hopen text.utf8 w hw
          hfresh
        refine ⟨written, { w₁ with
            valueCache := w₁.valueCache.insert text.utf8 written },
          get_bind_ok_iff.mpr ?_, hdrawn⟩
        rw [hfound]
        exact bind_ok_iff.mpr ⟨written, w₁, hwritten, rfl⟩
    obtain ⟨record, w', hrun, hdrawn⟩ := hrun
    exact ⟨record, w', hrun, (writeDeduplicatedValue_spec hw hrun).1, hdrawn⟩

/-! ## Maps and nodes -/

/-- A map of one entry is written, whatever its name. -/
theorem writeMap_succeeds (hopen : c.Open) (name : String) (value : RecordIdentifier) :
    Succeeds c (3 * name.utf8.length + 2) (writeMap c.environment [(name, value)]) := by
  have hprepare : Succeeds c (3 * name.utf8.length + 1 + (0 + 0))
      (prepareEntries c.environment [] [(name, value)]) := by
    rw [prepareEntries, if_neg List.not_mem_nil]
    exact (writeString_succeeds hopen name).bind fun key _ =>
      (Succeeds.pure []).bind fun rest _ => Succeeds.pure _
  have hall := hprepare.bind (l := 1) (g := writeMapBucket c.environment maximumLevel 0) (by
    rintro prepared ⟨w, w', hw, hrun⟩
    obtain ⟨-, -, hmap, -⟩ := prepareEntries_spec hw hrun
      fun entry _ => .inl (hopen.outside entry.2.segment)
    have hone : prepared.length = 1 := by
      have := congrArg List.length hmap
      rwa [length_map] at this
    rw [show maximumLevel = 6 + 1 from rfl, writeMapBucket,
      if_pos (show prepared.length ≤ mapLeafCapacity by rw [hone]; decide), writeMapLeaf]
    have hsorted : (sortBy compareEntries prepared).length = 1 := by
      rw [(perm_sortBy compareEntries prepared).length_eq, hone]
    refine writeRecord_succeeds hopen (by rintro ⟨⟩)
      (fun _ => (fieldsLength_mapLeafFields 0 (sortBy compareEntries prepared)).symm) (by omega)
      (fun _ record hmem => .inr (by simpa [mapLeafFields] using hmem)) (by omega) ?_
    rw [length_flatMap_pairs, hsorted]
    decide)
  rw [writeMap, if_neg (show ¬ [(name, value)].length ≥ 2 ^ 29 - 1 by simp)]
  exact hall.mono (by omega)

/-- A template is found or written. -/
theorem writeTemplate_succeeds {k : Nat} {primaryType : Option String} {mixinTypes : List String}
    {childNodes : ChildNodesToWrite} {properties : List PropertyToWrite} (h : Succeeds c k
      (writeTemplateRecord c.environment primaryType mixinTypes childNodes properties)) :
    Succeeds c k (writeTemplate c.environment primaryType mixinTypes childNodes properties) := by
  intro w hw hfresh
  have hrun : ∃ record w', (writeTemplate c.environment primaryType mixinTypes childNodes
      properties).run w = .ok (record, w') ∧ w'.drawn ≤ w.drawn + k := by
    obtain ⟨key, hkey⟩ : ∃ key, key = TemplateKey.of primaryType mixinTypes childNodes properties :=
      ⟨_, rfl⟩
    rw [writeTemplate, ← hkey]
    cases hfound : w.templateCache.get key with
    | some existing =>
      refine ⟨existing, w, get_bind_ok_iff.mpr ?_,
        Nat.le_add_right _ _⟩
      rw [hfound]
      rfl
    | none =>
      obtain ⟨written, w₁, hwritten, -, hdrawn⟩ := h w hw hfresh
      refine ⟨written, { w₁ with
          templateCache := w₁.templateCache.insert key written },
        get_bind_ok_iff.mpr ?_, hdrawn⟩
      rw [hfound]
      exact bind_ok_iff.mpr ⟨written, w₁, hwritten, rfl⟩
  obtain ⟨record, w', hrun, hdrawn⟩ := hrun
  exact ⟨record, w', hrun, (writeTemplate_spec hw hrun).1, hdrawn⟩

/-- A node with nothing but a primary type is written, whatever the type. -/
theorem writeNode_succeeds (hopen : c.Open) (primaryType : String) :
    Succeeds c (3 * primaryType.utf8.length + 3)
      (writeNode c.environment (some primaryType) [] .zero []) := by
  have htemplate : Succeeds c (3 * primaryType.utf8.length + 1 + 0 + (0 + (0 + (0 + 0 + 1))))
      (writeTemplateRecord c.environment (some primaryType) [] .zero []) := by
    rw [writeTemplateRecord, if_neg (by simp), if_neg (by simp)]
    have hprimary : Succeeds c (3 * primaryType.utf8.length + 1 + 0)
        (writeOptionalString c.environment (some primaryType)) :=
      (writeString_succeeds hopen primaryType).bind fun record _ => Succeeds.pure (some record)
    refine hprimary.bind fun primary hran => ?_
    refine (Succeeds.pure []).bind fun mixins hmixins => ?_
    obtain ⟨_, _, -, hmixins⟩ := hmixins
    obtain ⟨rfl, -⟩ := pure_ok_iff.mp hmixins
    refine (Succeeds.pure none).bind fun child hchild => ?_
    obtain ⟨_, _, -, hchild⟩ := hchild
    obtain ⟨rfl, -⟩ := pure_ok_iff.mp hchild
    have hnames : Succeeds c (0 + 0) (writePropertyNames c.environment []) :=
      (Succeeds.pure []).bind fun names hnames => by
        obtain ⟨_, _, -, hrun⟩ := hnames
        obtain ⟨rfl, -⟩ := pure_ok_iff.mp hrun
        exact Succeeds.pure none
    refine hnames.bind fun list _ => ?_
    refine writeRecord_succeeds hopen (by rintro ⟨⟩) (fun _ => ?_) (by omega)
      (fun _ record hmem => .inr (by simpa using hmem)) ?_ ?_
    · rw [fieldsLength_cons, fieldsLength_append, SegmentView.fieldsLength_identifiers,
        fieldsLength_slotTags, Field.length, Bytes.length_be32, Nat.mul_comm, Nat.add_assoc]
    · cases primary <;> cases list <;> simp
    · cases primary <;> cases list <;> simp
  have hnode : Succeeds c (3 * primaryType.utf8.length + 1 + 0 + (0 + (0 + (0 + 0 + 1))) +
      (0 + (0 + 0 + (0 + 1)))) (writeNode c.environment (some primaryType) [] .zero []) := by
    rw [writeNode, writeNodeWithStableIdentifier]
    refine (writeTemplate_succeeds htemplate).bind fun template _ => ?_
    refine (Succeeds.pure none).bind fun child hchild => ?_
    obtain ⟨_, _, -, hchild⟩ := hchild
    obtain ⟨rfl, -⟩ := pure_ok_iff.mp hchild
    have hlist : Succeeds c (0 + 0) (writePropertyList c.environment (inOrder [])) :=
      (Succeeds.pure []).bind fun slots hslots => by
        obtain ⟨_, _, -, hrun⟩ := hslots
        obtain ⟨rfl, -⟩ := pure_ok_iff.mp hrun
        exact Succeeds.pure none
    refine hlist.bind fun list _ => ?_
    refine (Succeeds.pure none).bind fun block hblock => ?_
    obtain ⟨_, _, -, hblock⟩ := hblock
    obtain ⟨rfl, -⟩ := pure_ok_iff.mp hblock
    refine writeRecord_succeeds hopen (by rintro ⟨⟩) (fun _ => ?_) (by omega) (fun own record hmem => ?_) ?_
      ?_
    · rw [fieldsLength_cons, SegmentView.fieldsLength_identifiers, Field.length, Nat.mul_comm]
    · rcases List.mem_cons.mp hmem with hzero | hmem
      · exact .inl (Field.identifier.inj hzero)
      · exact .inr (by simpa using hmem)
    · cases list <;> simp
    · cases list <;> simp
  exact hnode.mono (by omega)

end Froe

