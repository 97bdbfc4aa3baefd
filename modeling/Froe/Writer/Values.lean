import Froe.Writer.Lists

/-!
# Writing values

Short values stand in their record.  A long value is cut into blocks: full runs
of 256 KiB become bulk segments, the remainder becomes block records, and a list
of the blocks is what the value record points at.  Every value that is not too
long for the reader is read back (`writeValueBytes_spec`), the ones that were
found in the cache included.
-/

namespace Froe

open StateT (bind_ok_iff get_bind_ok_iff pure_ok_iff)

/-- The largest value that is remembered for reuse. -/
def maximumDeduplicatedValueBytes : Nat := 1024

/-- The blocks of a bulk segment. -/
def bulkBlocks (identifier : SegmentIdentifier) : List RecordIdentifier :=
  (List.range (maximumSegmentSize / blockSize)).map fun i =>
    ⟨identifier, UInt32.ofNat (i * blockSize)⟩

namespace RecordWriter

variable (env : Environment)

/-- Writes a bulk segment of blocks. -/
def writeBulkSegment (content : Bytes) : Writing SegmentIdentifier := do
  let w ← get
  let bulkIdentifier := env.bulkSegmentIdentifier w.bulkSegments
  set { w with bulkSegments := w.bulkSegments + 1 }
  writeSegment env (.bulk bulkIdentifier content)
  return bulkIdentifier

/-- The loop over the full runs of 256 KiB: their blocks, and the remainder.  Every run is not
empty, so that the length bounds the number of rounds. -/
def writeBulkRuns : Nat → Bytes → Writing (List RecordIdentifier × Bytes)
  | 0, remaining => return ([], remaining)
  | rounds + 1, remaining => do
    if remaining.length < maximumSegmentSize then return ([], remaining)
    else
      let bulkIdentifier ← writeBulkSegment env (remaining.take maximumSegmentSize)
      let later ← writeBulkRuns rounds (remaining.drop maximumSegmentSize)
      return (bulkBlocks bulkIdentifier ++ later.1, later.2)

/-- Writes a block record. -/
def writeBlock (bytes : Bytes) : Writing RecordIdentifier :=
  writeRecord env .block bytes.length [] fun _ => [.raw bytes]

/-- Writes content in bulk segments, and its end in block records. -/
def writeBlocks (content : Bytes) : Writing (List RecordIdentifier) := do
  let runs ← writeBulkRuns env content.length content
  let blocks ← (runs.2.chunks blockSize).mapM (writeBlock env)
  return runs.1 ++ blocks

/-- Writes a long value over its blocks. -/
def writeLongValue (kind : String) (length : Nat) (blocks : List RecordIdentifier) :
    Writing RecordIdentifier := do
  match ← writeListBody env blocks with
  | none => throw (.invalidFormat s!"a long {kind} always has at least one block")
  | some body =>
    writeRecord env .value (8 + 6) [body] fun _ => [.raw (longHeader length), .identifier body]

/-- Writes a value: inline below 16512 bytes, over blocks above. -/
def writeValueBytes (content : Bytes) : Writing RecordIdentifier := do
  if content.length < smallValueLimit then
    writeRecord env .value (1 + content.length) [] fun _ =>
      [.raw [UInt8.ofNat content.length], .raw content]
  else if content.length < mediumValueLimit then
    writeRecord env .value (2 + content.length) [] fun _ =>
      [.raw (mediumHeader content.length), .raw content]
  else
    let blocks ← writeBlocks env content
    writeLongValue env "value" content.length blocks

/-- Writes a value, or finds an identical one that this writer has written. -/
def writeDeduplicatedValue (bytes : Bytes) : Writing RecordIdentifier := do
  if bytes.length > maximumDeduplicatedValueBytes then writeValueBytes env bytes
  else
    match (← get).valueCache.get bytes with
    | some existing => return existing
    | none =>
      let written ← writeValueBytes env bytes
      let w ← get
      set { w with valueCache := w.valueCache.insert bytes written }
      return written

/-- Writes a text. -/
def writeString (text : String) : Writing RecordIdentifier := writeDeduplicatedValue env text.utf8

/-- Writes a binary. -/
def writeBinaryContent (content : Bytes) : Writing RecordIdentifier := writeValueBytes env content

/-- Writes a record for an external blob and registers the blob with the segment of the record:
allocating it may have started a fresh one. -/
def writeRegistered (blobIdentifier : String) (size : Nat) (referenced : List RecordIdentifier)
    (fields : List Field) : Writing RecordIdentifier := do
  let record ← allocate env .externalBlobIdentifier size referenced
  let w ← get
  set { w with
    current := (w.current.registerBinaryReference blobIdentifier).fill record 0 fields }
  return ⟨w.current.identifier, UInt32.ofNat record⟩

/-- Writes the identifier of a binary kept elsewhere. -/
def writeExternalBinaryIdentifier (blobIdentifier : String) : Writing RecordIdentifier := do
  let encoded := blobIdentifier.utf8
  if encoded.length < blobIdentifierSmallLimit then
    writeRegistered env blobIdentifier (2 + encoded.length) []
      [.raw (Bytes.be 2 (0xE000 ||| encoded.length)), .raw encoded]
  else
    let stringIdentifier ← writeString env blobIdentifier
    writeRegistered env blobIdentifier (1 + 6) [stringIdentifier]
      [.raw [0xF0], .identifier stringIdentifier]

end RecordWriter

open RecordWriter

variable {c : Session} {w w' : RecordWriter} {content : Bytes}

/-! ## Blocks -/

/-- Records hold the blocks of some content. -/
def BlocksAt (provider : SegmentProvider) (blocks : List RecordIdentifier) (content : Bytes) :
    Prop :=
  List.Forall₂ (fun block chunk => RecordAt provider block [.raw chunk]) blocks
    (List.chunks blockSize content)

variable {provider : SegmentProvider} {blocks : List RecordIdentifier}
  {identifier : SegmentIdentifier} {record : RecordIdentifier} {blobIdentifier : String}

theorem BlocksAt.read (h : BlocksAt provider blocks content) :
    readBlocks provider blocks content.length = .ok content := by
  have hpos : 0 < blockSize := by decide
  unfold BlocksAt at h
  induction content using List.chunks_induction hpos generalizing blocks with
  | hnil =>
    cases h
    rfl
  | hstep content hne ih =>
    rw [List.chunks_of_ne_nil hpos hne] at h
    cases h with
    | cons hblock hrest =>
      obtain ⟨view, hview, hholds⟩ := hblock
      have hbytes := hholds.readAll
      have hlength : (content.take blockSize).length = min content.length blockSize := by
        rw [List.length_take, Nat.min_comm]
      have hremaining : content.length - min content.length blockSize =
          (content.drop blockSize).length := by
        rw [List.length_drop]
        omega
      rw [hlength] at hbytes
      rw [readBlocks, hview, Except.ok_bind_eq, hbytes, Except.ok_bind_eq, hremaining, ih hrest,
        Except.ok_bind_eq]
      exact congrArg Except.ok (List.take_append_drop blockSize content)

theorem BlocksAt.length (h : BlocksAt provider blocks content) :
    blocks.length = (content.length + blockSize - 1) / blockSize := by
  rw [List.Forall₂.length_eq h, List.length_chunks (by decide)]

theorem BlocksAt.append {as bs : List RecordIdentifier}
    {first rest : Bytes} (hfirst : BlocksAt provider as first) (hrest : BlocksAt provider bs rest)
    (hfull : blockSize ∣ first.length) : BlocksAt provider (as ++ bs) (first ++ rest) := by
  unfold BlocksAt at *
  rw [List.chunks_append_of_dvd (by decide) hfull]
  exact List.rel_append hfirst hrest

section

variable (h : (writeBulkSegment c.environment content).run w = .ok (identifier, w'))
include h

theorem writeBulkSegment_ok :
    identifier = c.environment.bulkSegmentIdentifier w.bulkSegments ∧
      c.environment.takesSegment w.sink (.bulk identifier content) = .ok () ∧
      w' = { w with
        sink := w.sink ++ [.bulk identifier content]
        bulkSegments := w.bulkSegments + 1 } := by
  replace h := get_bind_ok_iff.mp h
  replace h := StateT.set_bind_ok_iff.mp h
  obtain ⟨_, _, hwrite, h⟩ := bind_ok_iff.mp h
  replace hwrite := get_bind_ok_iff.mp hwrite
  obtain ⟨_, _, hlift, hwrite⟩ := bind_ok_iff.mp hwrite
  obtain ⟨htaken, rfl⟩ := StateT.lift_ok_iff.mp hlift
  obtain rfl := StateT.set_ok_iff.mp hwrite
  obtain ⟨rfl, rfl⟩ := pure_ok_iff.mp h
  exact ⟨rfl, htaken, rfl⟩

theorem writeBulkSegment_spec (hlength : content.length = maximumSegmentSize) :
    Steps c w w' ∧ Allowed c w' identifier ∧
      Assured c w' (BlocksAt · (bulkBlocks identifier) content) := by
  obtain ⟨rfl, htaken, rfl⟩ := writeBulkSegment_ok h
  have hmem := List.mem_append_right w.sink (List.mem_singleton_self
    (BuiltSegment.bulk (c.environment.bulkSegmentIdentifier w.bulkSegments) content))
  refine ⟨(Step.bulk hlength htaken).steps, .inr (.inr ⟨_, hmem, rfl⟩), fun provider hserves => ?_⟩
  obtain ⟨view, hview, hholds⟩ := BuiltSegment.view_bulk (c.bulkSegment w.bulkSegments) hlength
  refine List.forall₂_iff_get.mpr ⟨?_, fun i hi hi' => ?_⟩
  · rw [bulkBlocks, List.length_map, List.length_range, List.length_chunks (by decide), hlength]
    decide
  · refine hserves.records _ _ (.inl ⟨_, hmem, view, ?_, hview, ?_⟩)
    · simp only [bulkBlocks, List.get_eq_getElem, List.getElem_map, BuiltSegment.bulk]
    · have hchunk := List.getElem?_chunks (show 0 < blockSize by decide) content i
      rw [List.getElem?_eq_getElem hi'] at hchunk
      split at hchunk
      · rename_i hlt
        have hslice := Option.some.inj hchunk
        simp only [bulkBlocks, List.length_map, List.length_range] at hi
        simp only [bulkBlocks, List.get_eq_getElem, List.getElem_map, List.getElem_range, hslice]
        refine hholds (i * blockSize) blockSize ?_ (by decide)
        unfold maximumSegmentSize blockSize at *
        omega
      · cases hchunk

end

theorem writeBulkRuns_spec {rounds : Nat} {runs : List RecordIdentifier × Bytes} (hw : Valid c w)
    (h : (writeBulkRuns c.environment rounds content).run w = .ok (runs, w')) :
    Steps c w w' ∧ (∀ block ∈ runs.1, Allowed c w' block.segment) ∧
      ∃ first, content = first ++ runs.2 ∧ blockSize ∣ first.length ∧
        Assured c w' (BlocksAt · runs.1 first) := by
  induction rounds generalizing w content runs with
  | zero =>
    obtain ⟨rfl, rfl⟩ := pure_ok_iff.mp h
    exact ⟨Steps.refl _, nofun, [], rfl, Nat.dvd_zero _, fun _ _ => .nil⟩
  | succ rounds ih =>
    rw [writeBulkRuns] at h
    split at h
    · obtain ⟨rfl, rfl⟩ := pure_ok_iff.mp h
      exact ⟨Steps.refl _, nofun, [], rfl, Nat.dvd_zero _, fun _ _ => .nil⟩
    · rename_i hlong
      obtain ⟨identifier, w₁, hbulk, h⟩ := bind_ok_iff.mp h
      obtain ⟨later, w₂, hlater, h⟩ := bind_ok_iff.mp h
      obtain ⟨rfl, rfl⟩ := pure_ok_iff.mp h
      have hlength : (content.take maximumSegmentSize).length = maximumSegmentSize := by
        rw [List.length_take]
        omega
      obtain ⟨hsteps, hallowed, hblocks⟩ := writeBulkSegment_spec hbulk hlength
      have hw₁ := hsteps.valid hw
      obtain ⟨hsteps', hallowed', first, hsplit, hfull, hrest⟩ := ih hw₁ hlater
      refine ⟨hsteps.trans hsteps', ?_, content.take maximumSegmentSize ++ first, ?_, ?_, ?_⟩
      · intro block hmem
        rcases List.mem_append.mp hmem with hmem | hmem
        · obtain ⟨i, -, rfl⟩ := List.mem_map.mp hmem
          exact hsteps'.allowed hallowed
        · exact hallowed' block hmem
      · rw [List.append_assoc, ← hsplit, List.take_append_drop]
      · rw [List.length_append, hlength]
        exact Nat.dvd_add (by decide) hfull
      · intro provider hserves
        refine BlocksAt.append (hsteps'.assured hw₁ hblocks provider hserves)
          (hrest provider hserves) ?_
        rw [hlength]
        decide

theorem writeBlock_spec {bytes : Bytes} {block : RecordIdentifier} (hw : Valid c w)
    (h : (writeBlock c.environment bytes).run w = .ok (block, w')) (hpos : 0 < bytes.length) :
    Steps c w w' ∧ Allowed c w' block.segment ∧ Assured c w' (RecordAt · block [.raw bytes]) := by
  obtain ⟨hsteps, hrecorded, hsegment, -⟩ := writeRecord_spec hw h nofun
    (fun _ => by simp [fieldsLength, Field.length]) hpos (fun _ record hmem => by simp at hmem)
    (fun record hmem => by cases hmem)
  exact ⟨hsteps, .inr (.inl hsegment), hrecorded.assured⟩

theorem writeBlocks_spec (hw : Valid c w)
    (h : (writeBlocks c.environment content).run w = .ok (blocks, w')) :
    Steps c w w' ∧ (∀ block ∈ blocks, Allowed c w' block.segment) ∧
      Assured c w' (BlocksAt · blocks content) := by
  obtain ⟨runs, w₁, hruns, h⟩ := bind_ok_iff.mp h
  obtain ⟨rest, w₂, hrest, h⟩ := bind_ok_iff.mp h
  obtain ⟨rfl, rfl⟩ := pure_ok_iff.mp h
  obtain ⟨hsteps, hallowed, first, hsplit, hfull, hblocks⟩ := writeBulkRuns_spec hw hruns
  have hw₁ := hsteps.valid hw
  obtain ⟨hsteps', hallowed', hblocks'⟩ := mapM_assured
    (P := fun bytes block provider => RecordAt provider block [.raw bytes]) hw₁
    (fun bytes hmem t block t' ht _ hrun => writeBlock_spec ht hrun
      (List.mem_chunks (by decide) hmem).1) hrest
  refine ⟨hsteps.trans hsteps', ?_, fun provider hserves => ?_⟩
  · intro block hmem
    rcases List.mem_append.mp hmem with hmem | hmem
    · exact hsteps'.allowed (hallowed block hmem)
    · exact hallowed' block hmem
  · rw [hsplit]
    exact BlocksAt.append (hsteps'.assured hw₁ hblocks provider hserves)
      (hblocks' provider hserves).flip hfull

/-! ## Values -/

/-- The largest content that a list of blocks holds. -/
def maximumValueLength : Nat := maximumListSize * blockSize

theorem writeLongValue_spec {kind : String} {length : Nat} (hw : Valid c w)
    (h : (writeLongValue c.environment kind length blocks).run w = .ok (record, w'))
    (hallowed : ∀ block ∈ blocks, Allowed c w block.segment) :
    Steps c w w' ∧ Allowed c w' record.segment ∧ ∃ list,
      Assured c w' fun provider => ListAt provider list blocks ∧
        RecordAt provider record [.raw (longHeader length), .identifier list] := by
  obtain ⟨body, w₁, hbody, h⟩ := bind_ok_iff.mp h
  obtain ⟨hsteps, hcases⟩ := writeListBody_spec hw hbody hallowed
  have hw₁ := hsteps.valid hw
  rcases hcases with ⟨-, rfl⟩ | ⟨list, rfl, hlist, hlistAt⟩
  · exact absurd h StateT.throw_ok
  · obtain ⟨hsteps', hrecorded, hsegment, -⟩ := writeRecord_spec hw₁ h nofun
      (fun _ => by simp [fieldsLength, Field.length, longHeader]) (by decide)
      (fun _ record hmem => .inr (by simpa using hmem))
      (fun record hmem => List.mem_singleton.mp hmem ▸ hlist)
    exact ⟨hsteps.trans hsteps', .inr (.inl hsegment), list, fun provider hserves =>
      ⟨hsteps'.assured hw₁ hlistAt provider hserves, hrecorded.assured provider hserves⟩⟩

/-- A long value over its blocks. -/
theorem ValueAt.of_blocks {list : RecordIdentifier} (hlow : mediumValueLimit ≤ content.length)
    (hhigh : content.length ≤ maximumValueLength) (hblocks : BlocksAt provider blocks content)
    (hlist : ListAt provider list blocks)
    (hrecord : RecordAt provider record [.raw (longHeader content.length), .identifier list]) :
    ValueAt provider record content := by
  refine .long list blocks hlow hrecord ?_ hblocks.read
  rw [← hblocks.length]
  refine hlist.entries ?_
  rw [hblocks.length]
  unfold maximumValueLength blockSize at *
  omega

/-- A value is read back. -/
theorem writeValueBytes_spec (hw : Valid c w)
    (h : (writeValueBytes c.environment content).run w = .ok (record, w')) :
    Steps c w w' ∧ Allowed c w' record.segment ∧
      (content.length ≤ maximumValueLength → Assured c w' (ValueAt · record content)) := by
  unfold writeValueBytes at h
  split at h
  · rename_i hsmall
    obtain ⟨hsteps, hrecorded, hsegment, -⟩ := writeRecord_spec hw h nofun
      (fun _ => by simp [fieldsLength, Field.length]) (by omega)
      (fun _ record hmem => by simp at hmem) (fun record hmem => by cases hmem)
    exact ⟨hsteps, .inr (.inl hsegment), fun _ provider hserves =>
      .small hsmall (hrecorded.assured provider hserves)⟩
  · rename_i hlow
    split at h
    · rename_i hmedium
      obtain ⟨hsteps, hrecorded, hsegment, -⟩ := writeRecord_spec hw h nofun
        (fun _ => by simp [fieldsLength, Field.length, mediumHeader]) (by omega)
        (fun _ record hmem => by simp at hmem) (fun record hmem => by cases hmem)
      exact ⟨hsteps, .inr (.inl hsegment), fun _ provider hserves =>
        .medium (not_lt.mp hlow) hmedium (hrecorded.assured provider hserves)⟩
    · rename_i hlong
      obtain ⟨blocks, w₁, hblocks, h⟩ := bind_ok_iff.mp h
      obtain ⟨hsteps, hallowed, hblocksAt⟩ := writeBlocks_spec hw hblocks
      have hw₁ := hsteps.valid hw
      obtain ⟨hsteps', hsegment, list, hrecord⟩ := writeLongValue_spec hw₁ h hallowed
      refine ⟨hsteps.trans hsteps', hsegment, fun hhigh provider hserves => ?_⟩
      obtain ⟨hlist, hrecord⟩ := hrecord provider hserves
      exact ValueAt.of_blocks (not_lt.mp hlong) hhigh
        (hsteps'.assured hw₁ hblocksAt provider hserves) hlist hrecord

/-- A value is read back, also when it was found in the cache. -/
theorem writeDeduplicatedValue_spec (hw : Valid c w)
    (h : (writeDeduplicatedValue c.environment content).run w = .ok (record, w')) :
    Steps c w w' ∧ Allowed c w' record.segment ∧
      (content.length ≤ maximumValueLength → Assured c w' (ValueAt · record content)) := by
  unfold writeDeduplicatedValue at h
  split at h
  · exact writeValueBytes_spec hw h
  · rename_i hshort
    replace h := get_bind_ok_iff.mp h
    split at h
    · rename_i existing hfound
      obtain ⟨rfl, rfl⟩ := pure_ok_iff.mp h
      obtain ⟨hvalue, hallowed⟩ := hw.values _ _ hfound
      exact ⟨Steps.refl _, hallowed, fun _ => hvalue⟩
    · obtain ⟨written, w₁, hwritten, h⟩ := bind_ok_iff.mp h
      replace h := get_bind_ok_iff.mp h
      replace h := StateT.set_bind_ok_iff.mp h
      obtain ⟨rfl, rfl⟩ := pure_ok_iff.mp h
      obtain ⟨hsteps, hallowed, hvalue⟩ := writeValueBytes_spec hw hwritten
      have hlength : content.length ≤ maximumValueLength := by
        unfold maximumDeduplicatedValueBytes at hshort
        have : 1024 ≤ maximumValueLength := by decide
        omega
      have hstep := Step.cacheValue (hvalue hlength) hallowed
      exact ⟨hsteps.trans hstep.steps, hstep.allowed hallowed,
        fun _ => hstep.assured (hsteps.valid hw) (hvalue hlength)⟩

/-- A text is read back. -/
theorem writeString_spec {text : String} (hw : Valid c w)
    (h : (writeString c.environment text).run w = .ok (record, w')) :
    Steps c w w' ∧ Allowed c w' record.segment ∧
      (Readable text → Assured c w' (ValueAt · record text.utf8)) := by
  obtain ⟨hsteps, hallowed, hvalue⟩ := writeDeduplicatedValue_spec hw h
  refine ⟨hsteps, hallowed, fun hreadable => hvalue ?_⟩
  have : 2 ^ 31 - 1 ≤ maximumValueLength := by decide
  exact hreadable.le.trans this

/-! ## External binaries -/

theorem SegmentBufferBuilder.fill_registerBinaryReference (b : SegmentBufferBuilder)
    (blobIdentifier : String) (number offset : Nat) (fields : List Field) :
    (b.registerBinaryReference blobIdentifier).fill number offset fields =
      (b.fill number offset fields).registerBinaryReference blobIdentifier := by
  induction fields generalizing b offset with
  | nil => rfl
  | cons field fields ih =>
    cases field with
    | raw bytes => exact ih (b.copyInto number offset bytes) (offset + bytes.length)
    | identifier record =>
      have hwrite : (b.registerBinaryReference blobIdentifier).writeIdentifierAt number offset
          record = (b.writeIdentifierAt number offset record).registerBinaryReference
            blobIdentifier := by
        unfold writeIdentifierAt referenceFor registerBinaryReference copyInto
        dsimp only
        split
        · rfl
        · split
          · rfl
          · rfl
      show ((b.registerBinaryReference blobIdentifier).writeIdentifierAt number offset
        record).fill number (offset + 6) fields = _
      rw [hwrite, ih]
      rfl

/-- The record of an external binary, and the registration of the blob. -/
theorem writeRegistered_spec {size : Nat} {own : RecordIdentifier}
    {referenced : List RecordIdentifier} {fields : List Field} (hw : Valid c w)
    (h : (writeRegistered c.environment blobIdentifier size referenced fields).run w =
      .ok (own, w'))
    (hexternal : ExternalFields c w blobIdentifier fields)
    (hsize : size = fieldsLength fields) (hpos : 0 < size)
    (hfields : ∀ record, .identifier record ∈ fields → record ∈ referenced)
    (hreferenced : ∀ record ∈ referenced, Allowed c w record.segment) :
    Steps c w w' ∧ w'.Recorded own fields ∧ own.segment = w'.current.identifier := by
  obtain ⟨number, _, hallocated, h⟩ := bind_ok_iff.mp h
  replace h := get_bind_ok_iff.mp h
  replace h := StateT.set_bind_ok_iff.mp h
  obtain ⟨hown, rfl⟩ := pure_ok_iff.mp h
  obtain ⟨w₁, current, hsteps, halloc, rfl⟩ := allocate_ok hallocated
  have hw₁ := hsteps.valid hw
  have hidentifier : current.identifier = w₁.current.identifier := by
    unfold SegmentBufferBuilder.allocate at halloc
    split at halloc
    · cases halloc
      rfl
    · cases halloc
  dsimp only at hown ⊢
  rw [hidentifier] at hown
  rw [SegmentBufferBuilder.fill_registerBinaryReference]
  obtain ⟨hnumber, hfilled⟩ := SegmentBufferBuilder.allocate_fill hw₁.bounded halloc hsize hpos
    fun record hmem => .inr (List.mem_map_of_mem (hfields record hmem))
  have hfields₁ : ExternalFields c w₁ blobIdentifier fields := by
    rcases hexternal with hshort | ⟨hlong, string, heq, hvalue⟩
    · exact .inl hshort
    · exact .inr ⟨hlong, string, heq, fun hreadable => hsteps.assured hw (hvalue hreadable)⟩
  have hstep := Step.external hfilled hfields₁ fun record hmem =>
    hsteps.allowed (hreferenced record hmem)
  have hrecorded := (recorded_of_filled hw₁ hfilled).of_grows
    (SegmentBufferBuilder.grows_registerBinaryReference _ blobIdentifier)
  rw [← hnumber, hown] at hrecorded
  refine ⟨hsteps.trans hstep.steps, hrecorded, ?_⟩
  show own.segment = (SegmentBufferBuilder.identifier _)
  rw [SegmentBufferBuilder.registerBinaryReference, hfilled.grows.identifier, ← hown]

/-- A record names a binary kept elsewhere. -/
def ExternalAt (provider : SegmentProvider) (record : RecordIdentifier) (blobIdentifier : String) :
    Prop :=
  (blobIdentifier.utf8.length < blobIdentifierSmallLimit ∧ RecordAt provider record
    [.raw (Bytes.be 2 (0xE000 ||| blobIdentifier.utf8.length)), .raw blobIdentifier.utf8]) ∨
  ∃ string, RecordAt provider record [.raw [0xF0], .identifier string] ∧
    ValueAt provider string blobIdentifier.utf8

theorem writeExternalBinaryIdentifier_spec (hw : Valid c w)
    (h : (writeExternalBinaryIdentifier c.environment blobIdentifier).run w = .ok (record, w')) :
    Steps c w w' ∧ Allowed c w' record.segment ∧
      (Readable blobIdentifier → Assured c w' (ExternalAt · record blobIdentifier)) := by
  unfold writeExternalBinaryIdentifier at h
  dsimp only at h
  split at h
  · rename_i hshort
    obtain ⟨hsteps, hrecorded, hsegment⟩ := writeRegistered_spec hw h (.inl ⟨hshort, rfl⟩)
      (by simp [fieldsLength, Field.length]) (by omega) (fun record hmem => by simp at hmem)
      (fun record hmem => by cases hmem)
    exact ⟨hsteps, .inr (.inl hsegment), fun _ provider hserves =>
      .inl ⟨hshort, hrecorded.assured provider hserves⟩⟩
  · rename_i hlong
    obtain ⟨string, w₁, hstring, h⟩ := bind_ok_iff.mp h
    obtain ⟨hsteps, hallowed, hvalue⟩ := writeString_spec hw hstring
    have hw₁ := hsteps.valid hw
    obtain ⟨hsteps', hrecorded, hsegment⟩ := writeRegistered_spec hw₁ h
      (.inr ⟨not_lt.mp hlong, string, rfl, hvalue⟩) (by simp [fieldsLength, Field.length])
      (by decide) (fun record hmem => by simpa using hmem)
      (fun record hmem => List.mem_singleton.mp hmem ▸ hallowed)
    exact ⟨hsteps.trans hsteps', .inr (.inl hsegment), fun hreadable provider hserves =>
      .inr ⟨string, hrecorded.assured provider hserves,
        hsteps'.assured hw₁ (hvalue hreadable) provider hserves⟩⟩

end Froe
