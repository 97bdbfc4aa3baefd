import Froe.Content.Template
import Froe.Writer.Stored

/-!
# The state of the record writer

Everything the writer does is a sequence of a few kinds of steps: it fills a
record of the segment under construction, hands that segment or a bulk segment
to the sink, and remembers a record in a cache.  What it has recorded stays
recorded (`Steps.recorded`), so a fact that follows from the records so far
(`Assured`) is kept by all later steps, the facts about the cached records
included (`Steps.valid`).
-/

namespace Froe

/-! ## What has been written -/

/-- A built segment as a reader sees it. -/
def BuiltSegment.view (segment : BuiltSegment) : Result SegmentView := do
  return ⟨← ParsedSegment.parse segment.identifier segment.bytes, segment.bytes⟩

/-- Serves what was written, and then the source. -/
def destination (source : SegmentProvider) (sink : List BuiltSegment) : SegmentProvider :=
  fun identifier =>
    match sink.find? fun segment => segment.identifier == identifier with
    | some segment => segment.view
    | none => source identifier

/-- What a writer runs in. -/
structure Session where
  environment : Environment
  /-- The segments that readers are served beside the written ones. -/
  source : SegmentProvider
  /-- The segments beside the written ones that records may refer to. -/
  outside : SegmentIdentifier → Prop
  dataSegment : ∀ n, (environment.dataSegmentIdentifier n).isDataSegment = true
  bulkSegment : ∀ n, (environment.bulkSegmentIdentifier n).isBulkSegment = true

/-- A record of a finished segment or of the one under construction, and its fields. -/
def RecordWriter.Recorded (w : RecordWriter) (record : RecordIdentifier) (fields : List Field) :
    Prop :=
  (∃ segment ∈ w.sink, ∃ view, segment.identifier = record.segment ∧ segment.view = .ok view ∧
    view.Holds record.recordNumber 0 fields) ∨
  ∃ number recordType, record = ⟨w.current.identifier, UInt32.ofNat number⟩ ∧ 1 ≤ number ∧
    w.current.Holds number recordType fields

/-- The identifiers of the segments, the one under construction last. -/
def RecordWriter.identifiers (w : RecordWriter) : List SegmentIdentifier :=
  w.sink.map BuiltSegment.identifier ++ [w.current.identifier]

/-- A record identifier that has been given out. -/
def RecordWriter.Used (w : RecordWriter) (record : RecordIdentifier) : Prop :=
  record.segment ∈ w.sink.map BuiltSegment.identifier ∨
    record.segment = w.current.identifier ∧ record.recordNumber.toNat < w.current.records.length

def BuiltSegment.bulk (identifier : SegmentIdentifier) (content : Bytes) : BuiltSegment :=
  ⟨identifier, content, .null, [], []⟩

section

variable (c : Session)

/-- A segment that a record may refer to. -/
def Allowed (w : RecordWriter) (segment : SegmentIdentifier) : Prop :=
  c.outside segment ∨ segment = w.current.identifier ∨
    ∃ built ∈ w.sink, built.identifier = segment

/-- A provider serves all that a writer wrote. -/
structure Serves (provider : SegmentProvider) (w : RecordWriter) : Prop where
  unique : w.identifiers.Nodup
  source : ∀ segment view, c.source segment = .ok view → provider segment = .ok view
  records : ∀ record fields, w.Recorded record fields → RecordAt provider record fields

/-- What holds of every provider that serves all that is recorded. -/
def Assured (w : RecordWriter) (P : SegmentProvider → Prop) : Prop :=
  ∀ provider, Serves c provider w → P provider

/-- The children of the nodes that share a template. -/
def TemplateKey.arity (key : TemplateKey) : ChildNodeArity :=
  if key.childArity = 0 then .zero
  else
    match key.singleChildName with
    | some name => .one name
    | none => .many

/-- The type byte; an array has the negative one. -/
def slotTag (propertyType : PropertyType) (isMultiple : Bool) : UInt8 :=
  if isMultiple then -propertyType.tag else propertyType.tag

/-- A template has the shape that a key stands for. -/
structure TemplateKey.Describes (key : TemplateKey) (template : Template) : Prop where
  primaryType : template.primaryType = key.primaryType
  mixinTypes : template.mixinTypes = key.mixinTypes
  childArity : template.childArity = key.arity
  properties : template.properties.map (fun slot =>
    (slot.name, slotTag slot.propertyType slot.isMultiple)) = key.properties

/-- A text that a reader takes. -/
def Readable (text : String) : Prop := text.utf8.length < 2 ^ 31 - 1

instance (text : String) : Decidable (Readable text) := inferInstanceAs (Decidable (_ < _))

def TemplateKey.texts (key : TemplateKey) : List String :=
  key.primaryType.toList ++ key.mixinTypes ++ key.singleChildName.toList ++
    key.properties.map Prod.fst

/-- A provider serves a template of a shape. -/
def TemplateAt (provider : SegmentProvider) (record : RecordIdentifier) (key : TemplateKey) :
    Prop :=
  ∃ template, readTemplate provider record = .ok template ∧ key.Describes template

/-- Identifiers of external blobs below this length stand in their record. -/
def blobIdentifierSmallLimit : Nat := 4096

/-- The content of an external binary's record. -/
def ExternalFields (w : RecordWriter) (blobIdentifier : String) (fields : List Field) : Prop :=
  (blobIdentifier.utf8.length < blobIdentifierSmallLimit ∧
    fields = [.raw (Bytes.be 2 (0xE000 ||| blobIdentifier.utf8.length)),
      .raw blobIdentifier.utf8]) ∨
  (blobIdentifierSmallLimit ≤ blobIdentifier.utf8.length ∧ ∃ string,
    fields = [.raw [0xF0], .identifier string] ∧
    (Readable blobIdentifier → Assured c w (ValueAt · string blobIdentifier.utf8)))

/-! ## Steps -/

/-- What a writer may do. -/
inductive Step : RecordWriter → RecordWriter → Prop
  | record {w : RecordWriter} {current : SegmentBufferBuilder} {recordType : RecordType}
      {referenced : List RecordIdentifier} {fields : List Field}
      (hfilled : w.current.Filled current recordType (referenced.map RecordIdentifier.segment)
        fields)
      (htype : recordType ≠ .externalBlobIdentifier)
      (hreferenced : ∀ record ∈ referenced, Allowed c w record.segment) :
      Step w { w with current := current }
  | external {w : RecordWriter} {current : SegmentBufferBuilder} {blobIdentifier : String}
      {referenced : List RecordIdentifier} {fields : List Field}
      (hfilled : w.current.Filled current .externalBlobIdentifier
        (referenced.map RecordIdentifier.segment) fields)
      (hfields : ExternalFields c w blobIdentifier fields)
      (hreferenced : ∀ record ∈ referenced, Allowed c w record.segment) :
      Step w { w with current := current.registerBinaryReference blobIdentifier }
  | roll {w : RecordWriter} (hrecords : 1 < w.current.records.length)
      (htaken : c.environment.takesSegment w.sink w.current.finish = .ok ()) :
      Step w { w.startSegment c.environment with sink := w.sink ++ [w.current.finish] }
  | bulk {w : RecordWriter} {content : Bytes} (hlength : content.length = maximumSegmentSize)
      (htaken : c.environment.takesSegment w.sink
        (.bulk (c.environment.bulkSegmentIdentifier w.bulkSegments) content) = .ok ()) :
      Step w { w with
        sink := w.sink ++
          [.bulk (c.environment.bulkSegmentIdentifier w.bulkSegments) content]
        bulkSegments := w.bulkSegments + 1 }
  | cacheValue {w : RecordWriter} {content : Bytes} {record : RecordIdentifier}
      (hvalue : Assured c w (ValueAt · record content)) (hrecord : Allowed c w record.segment) :
      Step w { w with valueCache := w.valueCache.insert content record }
  | cacheTemplate {w : RecordWriter} {key : TemplateKey} {record : RecordIdentifier}
      (htemplate : (∀ text ∈ key.texts, Readable text) → Assured c w (TemplateAt · record key))
      (hrecord : Allowed c w record.segment) :
      Step w { w with templateCache := w.templateCache.insert key record }

/-- What a writer may do one after the other. -/
def Steps : RecordWriter → RecordWriter → Prop := Relation.ReflTransGen (Step c)

/-- The invariant of a writer. -/
structure Valid (w : RecordWriter) : Prop where
  bounded : w.current.Bounded
  dataSegment : w.current.identifier.isDataSegment = true
  started : 1 ≤ w.current.records.length
  values : ∀ content record, w.valueCache.get content = some record →
    Assured c w (ValueAt · record content) ∧ Allowed c w record.segment
  templates : ∀ key record, w.templateCache.get key = some record →
    ((∀ text ∈ key.texts, Readable text) → Assured c w (TemplateAt · record key)) ∧
      Allowed c w record.segment

end

/-! ## Starting a segment -/

theorem fieldsLength_segmentInfoFields (info : Bytes) :
    0 < fieldsLength (segmentInfoFields info) ∧
      fieldsLength (segmentInfoFields info) ≤ 16513 := by
  unfold segmentInfoFields
  split
  · rename_i h
    unfold smallValueLimit at h
    simp only [fieldsLength, List.map_cons, List.map_nil, Field.length, List.sum_cons,
      List.sum_nil, List.length_singleton]
    omega
  · simp only [fieldsLength, List.map_cons, List.map_nil, Field.length, List.sum_cons,
      List.sum_nil, mediumHeader, Bytes.length_be, List.length_take, mediumValueLimit]
    omega

theorem segmentInfoFields_raw {info : Bytes} {record : RecordIdentifier} :
    .identifier record ∉ segmentInfoFields info := by
  unfold segmentInfoFields
  split
  · simp
  · simp

namespace RecordWriter

/-- A fresh segment holds the segment-info record only. -/
theorem startSegment_spec (env : Environment) (w : RecordWriter) :
    ∃ current fields,
      w.startSegment env = { w with
        segmentSequence := w.segmentSequence + 1
        current := current
        dataSegments := w.dataSegments + 1 } ∧
      (SegmentBufferBuilder.new (env.dataSegmentIdentifier w.dataSegments) w.generation).Filled
        current .value [] fields ∧ fieldsLength fields ≤ 16513 := by
  obtain ⟨fields, hfields⟩ : ∃ fields, fields = segmentInfoFields (segmentInfo w.writerIdentifier
    w.segmentSequence (env.milliseconds (w.dataSegments + 1))).utf8 := ⟨_, rfl⟩
  obtain ⟨hpos, hle⟩ := fieldsLength_segmentInfoFields (segmentInfo w.writerIdentifier
    w.segmentSequence (env.milliseconds (w.dataSegments + 1))).utf8
  rw [← hfields] at hpos hle
  obtain ⟨b, hb⟩ : ∃ b, b = SegmentBufferBuilder.new (env.dataSegmentIdentifier w.dataSegments)
    w.generation := ⟨_, rfl⟩
  have hempty : b.referencedSegments = [] ∧ b.records = [] := by
    rw [hb]
    exact ⟨rfl, rfl⟩
  have halloc := @SegmentBufferBuilder.allocate_of_room b .value (fieldsLength fields) []
    (by rw [hempty.1]; exact Nat.zero_le _)
    (by rw [hempty.1, hempty.2]; show 32 + 0 * 16 + (0 + 1) * 9 + (0 + _) ≤ _; omega)
  obtain ⟨-, hfilled⟩ := SegmentBufferBuilder.allocate_fill
    (hb ▸ SegmentBufferBuilder.bounded_new _ _) halloc rfl hpos
    (fun record hmem => absurd (hfields ▸ hmem) segmentInfoFields_raw)
  refine ⟨_, fields, ?_, hb ▸ hfilled, hle⟩
  rw [startSegment, writeSegmentInfoRecord]
  simp only [← hfields, ← hb, halloc]

end RecordWriter

/-! ## Reading what is finished -/

namespace BuiltSegment

/-- A finished segment is read as it was built. -/
theorem view_finish {b : SegmentBufferBuilder} (hb : b.Bounded)
    (hdata : b.identifier.isDataSegment = true) :
    ∃ parsed, b.finish.view = .ok ⟨parsed, b.finish.bytes⟩ ∧ b.ParsedAs parsed := by
  obtain ⟨parsed, hparse, hparsed⟩ := SegmentBufferBuilder.parse_finish hb hdata
  refine ⟨parsed, ?_, hparsed⟩
  rw [view, show b.finish.identifier = b.identifier from rfl, hparse]
  rfl

theorem view_bulk {identifier : SegmentIdentifier} {content : Bytes}
    (hbulk : identifier.isBulkSegment = true) (hlength : content.length = maximumSegmentSize) :
    ∃ view, (bulk identifier content).view = .ok view ∧
      ∀ offset length, offset + length ≤ maximumSegmentSize → 0 < length →
        view.Holds (UInt32.ofNat offset) 0 [.raw (content.slice offset length)] := by
  refine ⟨⟨.bulk identifier content.length, content⟩, ?_, ?_⟩
  · rw [view, show (bulk identifier content).identifier = identifier from rfl,
      show (bulk identifier content).bytes = content from rfl, ParsedSegment.parse,
      if_neg (by omega), SegmentIdentifier.kind_eq_bulk.mpr hbulk]
    rfl
  · intro offset length hinside hpos
    refine ⟨fun start n hn => ?_, trivial⟩
    rw [Bytes.length_slice_of_le (by omega)] at hn
    have hnat : (UInt32.ofNat offset).toNat = offset := by
      unfold maximumSegmentSize at hinside
      rw [UInt32.toNat_ofNat']
      omega
    have hposition : SegmentView.recordPosition ⟨.bulk identifier content.length, content⟩
        (UInt32.ofNat offset) = .ok offset := by
      show ParsedSegment.bufferPosition (.bulk identifier content.length) (UInt32.ofNat offset) = _
      unfold ParsedSegment.bufferPosition
      rw [hnat, if_neg (by
        show ¬ (((content.length : Int) - maximumSegmentSize + offset < 0) ∨
          ((content.length : Int) ≤ content.length - maximumSegmentSize + offset))
        omega)]
      congr 1
      show ((content.length : Int) - maximumSegmentSize + offset).toNat = offset
      omega
    rw [SegmentView.readBytes, hposition, Except.ok_bind_eq, Nat.zero_add]
    have hrange : content.range? (offset + start) (offset + start + n) =
        some ((content.slice offset length).slice start n) := by
      rw [Bytes.range?_of_le (by omega), Bytes.slice_slice (by omega)]
    rw [hrange]

end BuiltSegment

/-! ## Runs of steps -/

section

variable {c : Session} {w w' : RecordWriter}

theorem SegmentBufferBuilder.grows_registerBinaryReference (b : SegmentBufferBuilder)
    (blobIdentifier : String) : b.Grows (b.registerBinaryReference blobIdentifier) :=
  ⟨rfl, List.prefix_refl _, List.prefix_refl _⟩

variable {record : RecordIdentifier} {fields : List Field} {segment : SegmentIdentifier}
  {provider : SegmentProvider} {P : SegmentProvider → Prop}

/-- Growing the segment under construction keeps all that is recorded. -/
theorem RecordWriter.Recorded.of_grows {current : SegmentBufferBuilder} (h : w.Recorded record fields) (hgrows : w.current.Grows current) :
    RecordWriter.Recorded { w with current := current } record fields := by
  rcases h with hsink | ⟨number, recordType, rfl, hnumber, hholds⟩
  · exact .inl hsink
  · refine .inr ⟨number, recordType, ?_, hnumber, hholds.of_grows hgrows⟩
    rw [hgrows.identifier]

theorem Step.recorded (hw : Valid c w) (h : Step c w w') (hrecorded : w.Recorded record fields) : w'.Recorded record fields := by
  cases h with
  | record hfilled _ _ => exact hrecorded.of_grows hfilled.grows
  | external hfilled _ _ =>
    exact hrecorded.of_grows
      (hfilled.grows.trans (SegmentBufferBuilder.grows_registerBinaryReference _ _))
  | roll _ _ =>
    rcases hrecorded with ⟨segment, hmem, hsegment⟩ | ⟨number, recordType, rfl, _, hholds⟩
    · exact .inl ⟨segment, List.mem_append_left _ hmem, hsegment⟩
    · obtain ⟨parsed, hview, hparsed⟩ := BuiltSegment.view_finish hw.bounded hw.dataSegment
      exact .inl ⟨_, List.mem_append_right _ (List.mem_singleton_self _), _, rfl, hview,
        hholds.finish hw.bounded hparsed⟩
  | bulk _ _ =>
    rcases hrecorded with ⟨segment, hmem, hsegment⟩ | hcurrent
    · exact .inl ⟨segment, List.mem_append_left _ hmem, hsegment⟩
    · exact .inr hcurrent
  | cacheValue _ _ => exact hrecorded
  | cacheTemplate _ _ => exact hrecorded

theorem Step.allowed (h : Step c w w') (hallowed : Allowed c w segment) : Allowed c w' segment := by
  rcases hallowed with houtside | hcurrent | ⟨built, hmem, hbuilt⟩
  · exact .inl houtside
  · cases h with
    | record hfilled _ _ => exact .inr (.inl (hcurrent.trans hfilled.grows.identifier.symm))
    | external hfilled _ _ => exact .inr (.inl (hcurrent.trans hfilled.grows.identifier.symm))
    | roll _ _ =>
      exact .inr (.inr ⟨_, List.mem_append_right _ (List.mem_singleton_self _), hcurrent.symm⟩)
    | bulk _ _ => exact .inr (.inl hcurrent)
    | cacheValue _ _ => exact .inr (.inl hcurrent)
    | cacheTemplate _ _ => exact .inr (.inl hcurrent)
  · cases h with
    | record _ _ _ => exact .inr (.inr ⟨built, hmem, hbuilt⟩)
    | external _ _ _ => exact .inr (.inr ⟨built, hmem, hbuilt⟩)
    | roll _ _ => exact .inr (.inr ⟨built, List.mem_append_left _ hmem, hbuilt⟩)
    | bulk _ _ => exact .inr (.inr ⟨built, List.mem_append_left _ hmem, hbuilt⟩)
    | cacheValue _ _ => exact .inr (.inr ⟨built, hmem, hbuilt⟩)
    | cacheTemplate _ _ => exact .inr (.inr ⟨built, hmem, hbuilt⟩)

theorem Step.identifiers (h : Step c w w') : w.identifiers.Sublist w'.identifiers := by
  cases h with
  | record hfilled _ _ =>
    rw [RecordWriter.identifiers, RecordWriter.identifiers,
      show _ = w.current.identifier from hfilled.grows.identifier]
  | external hfilled _ _ =>
    have hidentifier := hfilled.grows.identifier
    unfold RecordWriter.identifiers
    dsimp only [SegmentBufferBuilder.registerBinaryReference]
    rw [hidentifier]
  | roll _ _ =>
    rw [RecordWriter.identifiers, RecordWriter.identifiers, List.map_append]
    exact List.sublist_append_left ..
  | bulk _ _ =>
    rw [RecordWriter.identifiers, RecordWriter.identifiers, List.map_append]
    exact (List.sublist_append_left ..).append_right _
  | cacheValue _ _ => exact List.Sublist.refl _
  | cacheTemplate _ _ => exact List.Sublist.refl _

theorem Step.used (h : Step c w w') (hused : w.Used record) :
    w'.Used record := by
  cases h with
  | record hfilled _ _ =>
    refine hused.imp_right fun ⟨hsegment, hnumber⟩ =>
      ⟨hsegment.trans hfilled.grows.identifier.symm, ?_⟩
    exact hnumber.trans (hfilled.length ▸ Nat.lt_succ_self _)
  | external hfilled _ _ =>
    refine hused.imp_right fun ⟨hsegment, hnumber⟩ =>
      ⟨hsegment.trans hfilled.grows.identifier.symm, ?_⟩
    exact hnumber.trans (hfilled.length ▸ Nat.lt_succ_self _)
  | roll _ _ =>
    refine .inl ?_
    rw [List.map_append]
    rcases hused with hmem | ⟨hsegment, -⟩
    · exact List.mem_append_left _ hmem
    · exact List.mem_append_right _ (List.mem_singleton.mpr hsegment)
  | bulk _ _ =>
    refine hused.imp_left fun hmem => ?_
    rw [List.map_append]
    exact List.mem_append_left _ hmem
  | cacheValue _ _ => exact hused
  | cacheTemplate _ _ => exact hused

section

variable (hw : Valid c w) (h : Step c w w')
include hw h

/-- Who serves a later state serves an earlier one. -/
theorem Step.serves (hserves : Serves c provider w') : Serves c provider w :=
  ⟨h.identifiers.nodup hserves.unique, hserves.source, fun record fields hrecorded =>
    hserves.records record fields (h.recorded hw hrecorded)⟩

theorem Step.assured (hP : Assured c w P) : Assured c w' P := fun provider hserves =>
  hP provider (h.serves hw hserves)

/-- A step keeps the invariant. -/
theorem Step.valid : Valid c w' := by
  have hassured : ∀ P, Assured c w P → Assured c w' P := fun P => h.assured hw
  have hallowed : ∀ segment, Allowed c w segment → Allowed c w' segment := fun _ => h.allowed
  have hvalues : ∀ content record, w.valueCache.get content = some record →
      Assured c w' (ValueAt · record content) ∧ Allowed c w' record.segment :=
    fun content record hget => ⟨hassured _ (hw.values content record hget).1,
      hallowed _ (hw.values content record hget).2⟩
  have htemplates : ∀ key record, w.templateCache.get key = some record →
      ((∀ text ∈ key.texts, Readable text) → Assured c w' (TemplateAt · record key)) ∧
        Allowed c w' record.segment :=
    fun key record hget => ⟨fun htexts => hassured _ ((hw.templates key record hget).1 htexts),
      hallowed _ (hw.templates key record hget).2⟩
  cases h with
  | record hfilled _ _ =>
    refine ⟨hfilled.bounded, ?_, ?_, hvalues, htemplates⟩
    · rw [show _ = w.current.identifier from hfilled.grows.identifier]
      exact hw.dataSegment
    · rw [show _ = _ from hfilled.length]
      exact Nat.le_add_left ..
  | external hfilled _ _ =>
    refine ⟨⟨hfilled.bounded.references, hfilled.bounded.size, hfilled.bounded.nonempty⟩, ?_, ?_,
      hvalues, htemplates⟩
    · have hdata := hw.dataSegment
      rw [← hfilled.grows.identifier] at hdata
      exact hdata
    · exact (Nat.le_add_left 1 _).trans_eq hfilled.length.symm
  | roll _ _ =>
    obtain ⟨current, fields, hstart, hfilled, -⟩ := w.startSegment_spec c.environment
    rw [hstart] at hvalues htemplates ⊢
    refine ⟨hfilled.bounded, ?_, ?_, hvalues, htemplates⟩
    · rw [show _ = _ from hfilled.grows.identifier]
      exact c.dataSegment _
    · rw [show _ = _ from hfilled.length]
      exact Nat.le_add_left ..
  | bulk _ _ => exact ⟨hw.bounded, hw.dataSegment, hw.started, hvalues, htemplates⟩
  | cacheValue hvalue hrecord =>
    refine ⟨hw.bounded, hw.dataSegment, hw.started, fun content record hget => ?_, htemplates⟩
    rcases Caches.get_insert hget with ⟨rfl, rfl⟩ | ⟨-, hold⟩
    · exact ⟨hassured _ hvalue, hallowed _ hrecord⟩
    · exact hvalues content record hold
  | cacheTemplate htemplate hrecord =>
    refine ⟨hw.bounded, hw.dataSegment, hw.started, hvalues, fun key record hget => ?_⟩
    rcases Caches.get_insert hget with ⟨rfl, rfl⟩ | ⟨-, hold⟩
    · exact ⟨fun htexts => hassured _ (htemplate htexts), hallowed _ hrecord⟩
    · exact htemplates key record hold

end

theorem Steps.refl (w : RecordWriter) : Steps c w w := Relation.ReflTransGen.refl

theorem Step.steps (h : Step c w w') : Steps c w w' := Relation.ReflTransGen.single h

theorem Steps.trans {w₁ w₂ w₃ : RecordWriter} (h : Steps c w₁ w₂) (h' : Steps c w₂ w₃) :
    Steps c w₁ w₃ := Relation.ReflTransGen.trans h h'

section

variable (h : Steps c w w')
include h

/-- Every run keeps the invariant. -/
theorem Steps.valid (hw : Valid c w) : Valid c w' := by
  induction h with
  | refl => exact hw
  | tail _ hstep ih => exact hstep.valid ih

theorem Steps.recorded (hw : Valid c w) (hrecorded : w.Recorded record fields) : w'.Recorded record fields := by
  induction h with
  | refl => exact hrecorded
  | tail hsteps hstep ih => exact hstep.recorded (Steps.valid hsteps hw) ih

theorem Steps.allowed (hallowed : Allowed c w segment) : Allowed c w' segment := by
  induction h with
  | refl => exact hallowed
  | tail _ hstep ih => exact hstep.allowed ih

theorem Steps.identifiers : w.identifiers.Sublist w'.identifiers := by
  induction h with
  | refl => exact List.Sublist.refl _
  | tail _ hstep ih => exact ih.trans hstep.identifiers

theorem Steps.used (hused : w.Used record) :
    w'.Used record := by
  induction h with
  | refl => exact hused
  | tail _ hstep ih => exact hstep.used ih

theorem Steps.serves (hw : Valid c w) (hserves : Serves c provider w') : Serves c provider w :=
  ⟨h.identifiers.nodup hserves.unique, hserves.source, fun record fields hrecorded =>
    hserves.records record fields (h.recorded hw hrecorded)⟩

theorem Steps.assured (hw : Valid c w)
    (hP : Assured c w P) : Assured c w' P := fun provider hserves =>
  hP provider (h.serves hw hserves)

end

theorem RecordWriter.Recorded.assured
    (h : w.Recorded record fields) : Assured c w (RecordAt · record fields) :=
  fun _ hserves => hserves.records record fields h

end

end Froe
