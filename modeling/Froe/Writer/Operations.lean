import Froe.Writer.Totality

/-!
# Runs of the record writer

A run is a sequence of calls of the record writer, of any kind and in any order,
and a final flush.  Each call is a sequence of steps of the writer whose outcome
all later steps keep, so that at the end of the run the segments in the sink
give every call's records back (`runOperations_outcome`).

The identifiers of new segments are drawn at random.  The statements about what
is read back assume that the draws are distinct, from each other and from the
segments that are there already (`Distinct`).
-/

namespace Froe

open RecordWriter

/-! ## Fresh identifiers -/

/-- The identifier of a new segment, over sixteen random bytes. -/
def newSegmentIdentifier (kindNibble : UInt64) (draw : UInt64 × UInt64) : SegmentIdentifier :=
  let (randomHigh, randomLow) := draw
  ⟨(randomHigh &&& 0xFFFFFFFFFFFF0FFF) ||| 0x4000,
    (randomLow &&& (0x0FFFFFFFFFFFFFFF : UInt64)) ||| (kindNibble <<< (60 : UInt64))⟩

/-- What a writer draws from the system it runs on. -/
structure Surroundings where
  dataDraw : Nat → UInt64 × UInt64
  bulkDraw : Nat → UInt64 × UInt64
  milliseconds : Nat → Nat
  takesSegment : List BuiltSegment → BuiltSegment → Result Unit

theorem toNat_low_or (x : UInt64) {k : Nat} (hk : k < 16) :
    ((x &&& 0x0FFFFFFFFFFFFFFF) ||| UInt64.ofNat (2 ^ 60 * k)).toNat =
      2 ^ 60 * k + x.toNat % 2 ^ 60 := by
  have hlow : (x &&& 0x0FFFFFFFFFFFFFFF).toNat = x.toNat % 2 ^ 60 := by
    rw [UInt64.toNat_and]
    exact Nat.and_two_pow_sub_one_eq_mod x.toNat 60
  have hhigh : (UInt64.ofNat (2 ^ 60 * k)).toNat = 2 ^ 60 * k := by
    rw [UInt64.toNat_ofNat']
    omega
  rw [UInt64.toNat_or, hlow, hhigh, Nat.or_comm,
    Nat.two_pow_add_eq_or_of_lt (Nat.mod_lt _ (Nat.two_pow_pos 60))]

variable (draw : UInt64 × UInt64)

theorem newSegmentIdentifier_data :
    (newSegmentIdentifier 0xA draw).leastSignificantBits.toNat =
      2 ^ 60 * 0xA + draw.2.toNat % 2 ^ 60 := by
  have hkind : (0xA : UInt64) <<< (60 : UInt64) = UInt64.ofNat (2 ^ 60 * 0xA) := by decide
  rw [newSegmentIdentifier, hkind]
  exact toNat_low_or draw.2 (show 0xA < 16 by decide)

theorem newSegmentIdentifier_bulk :
    (newSegmentIdentifier 0xB draw).leastSignificantBits.toNat =
      2 ^ 60 * 0xB + draw.2.toNat % 2 ^ 60 := by
  have hkind : (0xB : UInt64) <<< (60 : UInt64) = UInt64.ofNat (2 ^ 60 * 0xB) := by decide
  rw [newSegmentIdentifier, hkind]
  exact toNat_low_or draw.2 (show 0xB < 16 by decide)

theorem isDataSegment_new :
    (newSegmentIdentifier 0xA draw).isDataSegment = true := by
  rw [SegmentIdentifier.isDataSegment, SegmentIdentifier.kindNibble, newSegmentIdentifier_data,
    beq_iff_eq]
  omega

theorem isBulkSegment_new :
    (newSegmentIdentifier 0xB draw).isBulkSegment = true := by
  rw [SegmentIdentifier.isBulkSegment, SegmentIdentifier.kindNibble, newSegmentIdentifier_bulk,
    beq_iff_eq]
  omega

namespace Surroundings

variable (s : Surroundings)

def environment : Environment where
  dataSegmentIdentifier n := newSegmentIdentifier 0xA (s.dataDraw n)
  bulkSegmentIdentifier n := newSegmentIdentifier 0xB (s.bulkDraw n)
  milliseconds := s.milliseconds
  takesSegment := s.takesSegment

/-- A writer over a source, whose records may refer to any segment. -/
def session (source : SegmentProvider) : Session where
  environment := s.environment
  source := source
  outside _ := True
  dataSegment n := isDataSegment_new (s.dataDraw n)
  bulkSegment n := isBulkSegment_new (s.bulkDraw n)

def start (generation : GarbageCollectionGeneration) (writerIdentifier : String) : RecordWriter :=
  withWriterIdentifier s.environment generation writerIdentifier

end Surroundings

/-! ## The first state -/

section

variable {s : Surroundings} {source : SegmentProvider} {generation : GarbageCollectionGeneration}
  {writerIdentifier : String}

/-- The state of a writer that has nothing but its first segment. -/
theorem start_spec (s : Surroundings) (source : SegmentProvider)
    (generation : GarbageCollectionGeneration) (writerIdentifier : String) :
    Valid (s.session source) (s.start generation writerIdentifier) ∧
      Fresh (s.start generation writerIdentifier) ∧
      Numbered (s.session source) (s.start generation writerIdentifier) ∧
      (s.start generation writerIdentifier).drawn = 1 := by
  obtain ⟨before, hbefore⟩ : ∃ before : RecordWriter, s.start generation writerIdentifier =
      before.startSegment s.environment ∧ before.sink = [] ∧ before.dataSegments = 0 ∧
      before.bulkSegments = 0 ∧ (∀ content, before.valueCache.get content = none) ∧
      ∀ key, before.templateCache.get key = none :=
    ⟨_, rfl, rfl, rfl, rfl, fun _ => rfl, fun _ => rfl⟩
  obtain ⟨heq, hsink, hdata, hbulk, hvalues, htemplates⟩ := hbefore
  obtain ⟨hreferences, hlength, hone, -⟩ := startSegment_fresh s.environment before
  obtain ⟨current, fields, hstart, hfilled, -⟩ := before.startSegment_spec s.environment
  have hidentifier : current.identifier = s.environment.dataSegmentIdentifier before.dataSegments :=
    hfilled.grows.identifier
  refine ⟨⟨?_, ?_, ?_, ?_, ?_⟩, ?_, ?_, ?_⟩
  · rw [heq, hstart]
    exact hfilled.bounded
  · rw [heq, hstart]
    dsimp only
    rw [hidentifier]
    exact isDataSegment_new _
  · rw [heq]
    exact hone.ge
  · rw [heq, hstart]
    intro content record hget
    cases (hvalues content).symm.trans hget
  · rw [heq, hstart]
    intro key record hget
    cases (htemplates key).symm.trans hget
  · intro _
    rw [heq]
    exact ⟨hreferences, hlength⟩
  · rw [Numbered, RecordWriter.identifiers, heq, hstart]
    dsimp only
    rw [hsink, hbulk, hdata, hidentifier, hdata]
    exact List.Perm.refl _
  · rw [heq, hstart, RecordWriter.drawn]
    dsimp only
    rw [hbulk, hdata]

end

/-! ## Calls -/

/-- A call of the record writer. -/
inductive Operation where
  | string (text : String)
  | binaryContent (content : Bytes)
  | externalBinaryIdentifier (blobIdentifier : String)
  | listBody (identifiers : List RecordIdentifier)
  | countedList (identifiers : List RecordIdentifier)
  | map (entries : List (String × RecordIdentifier))
  | node (primaryType : Option String) (mixinTypes : List String)
      (childNodes : ChildNodesToWrite) (properties : List PropertyToWrite)
      (stableIdentifier : Option StableIdentifier)
  | flush

/-- Performs a call.  The body of an empty list and a flush have no record. -/
def Operation.run (env : Environment) : Operation → Writing (Option RecordIdentifier)
  | .string text => do return some (← writeString env text)
  | .binaryContent content => do return some (← writeBinaryContent env content)
  | .externalBinaryIdentifier blobIdentifier => do
    return some (← writeExternalBinaryIdentifier env blobIdentifier)
  | .listBody identifiers => writeListBody env identifiers
  | .countedList identifiers => do return some (← writeCountedList env identifiers)
  | .map entries => do return some (← writeMap env entries)
  | .node primaryType mixinTypes childNodes properties stableIdentifier => do
    return some (← writeNodeWithStableIdentifier env primaryType mixinTypes childNodes properties
      stableIdentifier)
  | .flush => do
    flushCurrentSegment env
    return none

/-- Performs some calls and flushes what is left. -/
def runOperations (env : Environment) (operations : List Operation) :
    Writing (List (Option RecordIdentifier)) := do
  let records ← operations.mapM (Operation.run env)
  flushCurrentSegment env
  return records

/-- What a provider serves after a call. -/
def Operation.Outcome (provider : SegmentProvider) :
    Operation → Option RecordIdentifier → Prop
  | .string text, result => ∃ record, result = some record ∧
    (text.utf8.length ≤ maximumValueLength → ValueAt provider record text.utf8)
  | .binaryContent content, result => ∃ record, result = some record ∧
    (content.length ≤ maximumValueLength → ValueAt provider record content)
  | .externalBinaryIdentifier blobIdentifier, result => ∃ record, result = some record ∧
    (Readable blobIdentifier → ExternalAt provider record blobIdentifier)
  | .listBody identifiers, result => (identifiers = [] ∧ result = none) ∨
    ∃ list, result = some list ∧ ListAt provider list identifiers
  | .countedList identifiers, result => ∃ list, result = some list ∧
    CountedListAt provider list identifiers
  | .map entries, result => ∃ map, result = some map ∧ MapShape provider map entries
  | .node primaryType mixinTypes childNodes properties stableIdentifier, result =>
    ∃ own, result = some own ∧
      NodeState.stableIdentifierBytes ⟨provider, own⟩ = .ok (stableBytes stableIdentifier own) ∧
      ((∀ text ∈ (TemplateKey.of primaryType mixinTypes childNodes properties).texts,
          Readable text) → (∀ entry ∈ childNodes.entries, Readable entry.1) →
        NodeAt provider own primaryType mixinTypes childNodes (inOrder properties))
  | .flush, result => result = none

section

variable {s : Surroundings} {source : SegmentProvider} {w w' : RecordWriter}

variable {result : Option RecordIdentifier} {operation : Operation}

theorem Operation.some_ok {f : Writing RecordIdentifier}
    (h : (do return some (← f) : Writing (Option RecordIdentifier)).run w = .ok (result, w')) :
    ∃ record, result = some record ∧ f.run w = .ok (record, w') := by
  obtain ⟨record, w₁, hrun, h⟩ := StateT.bind_ok_iff.mp h
  obtain ⟨rfl, rfl⟩ := StateT.pure_ok_iff.mp h
  exact ⟨record, rfl, hrun⟩

/-- The outcome of every call is assured. -/
theorem Operation.run_spec (hw : Valid (s.session source) w)
    (h : (operation.run s.environment).run w = .ok (result, w')) :
    Steps (s.session source) w w' ∧
      Assured (s.session source) w' (operation.Outcome · result) := by
  cases operation with
  | string text =>
    obtain ⟨record, rfl, hrun⟩ := Operation.some_ok h
    obtain ⟨hsteps, -, hvalue⟩ := writeDeduplicatedValue_spec (c := s.session source) hw hrun
    exact ⟨hsteps, fun provider hserves => ⟨record, rfl, fun hlength =>
      hvalue hlength provider hserves⟩⟩
  | binaryContent content =>
    obtain ⟨record, rfl, hrun⟩ := Operation.some_ok h
    obtain ⟨hsteps, -, hvalue⟩ := writeValueBytes_spec (c := s.session source) hw hrun
    exact ⟨hsteps, fun provider hserves => ⟨record, rfl, fun hlength =>
      hvalue hlength provider hserves⟩⟩
  | externalBinaryIdentifier blobIdentifier =>
    obtain ⟨record, rfl, hrun⟩ := Operation.some_ok h
    obtain ⟨hsteps, -, hexternal⟩ :=
      writeExternalBinaryIdentifier_spec (c := s.session source) hw hrun
    exact ⟨hsteps, fun provider hserves => ⟨record, rfl, fun hreadable =>
      hexternal hreadable provider hserves⟩⟩
  | listBody identifiers =>
    obtain ⟨hsteps, hcases⟩ := writeListBody_spec (c := s.session source) hw h
      fun _ _ => .inl trivial
    refine ⟨hsteps, fun provider hserves => ?_⟩
    rcases hcases with hempty | ⟨list, rfl, -, hlist⟩
    · exact .inl hempty
    · exact .inr ⟨list, rfl, hlist provider hserves⟩
  | countedList identifiers =>
    obtain ⟨list, rfl, hrun⟩ := Operation.some_ok h
    obtain ⟨hsteps, -, hlist⟩ := writeCountedList_spec (c := s.session source) hw hrun
      fun _ _ => .inl trivial
    exact ⟨hsteps, fun provider hserves => ⟨list, rfl, hlist provider hserves⟩⟩
  | map entries =>
    obtain ⟨map, rfl, hrun⟩ := Operation.some_ok h
    obtain ⟨hsteps, -, hmap⟩ := writeMap_spec (c := s.session source) hw hrun
      fun _ _ => .inl trivial
    exact ⟨hsteps, fun provider hserves => ⟨map, rfl, hmap provider hserves⟩⟩
  | node primaryType mixinTypes childNodes properties stableIdentifier =>
    obtain ⟨own, rfl, hrun⟩ := Operation.some_ok h
    obtain ⟨hsteps, -, hstable, hnode⟩ := writeNodeWithStableIdentifier_spec
      (c := s.session source) hw hrun (fun _ _ => .inl trivial) fun _ _ _ _ => .inl trivial
    exact ⟨hsteps, fun provider hserves => ⟨own, rfl, hstable provider hserves,
      fun htexts hnames => hnode htexts hnames provider hserves⟩⟩
  | flush =>
    obtain ⟨_, w₁, hflush, h⟩ := StateT.bind_ok_iff.mp h
    obtain ⟨rfl, rfl⟩ := StateT.pure_ok_iff.mp h
    exact ⟨flushCurrentSegment_steps (c := s.session source) hflush, fun _ _ => rfl⟩

variable {generation : GarbageCollectionGeneration} {writerIdentifier : String}
  {operations : List Operation} {records : List (Option RecordIdentifier)}

/-- A run is a sequence of steps that leaves nothing in the segment under construction. -/
theorem runOperations_steps (source : SegmentProvider)
    (h : (runOperations s.environment operations).run (s.start generation writerIdentifier) =
      .ok (records, w)) :
    Steps (s.session source) (s.start generation writerIdentifier) w ∧
      w.current.records.length ≤ 1 ∧ Assured (s.session source) w fun provider =>
        List.Forall₂ (Operation.Outcome provider) operations records := by
  obtain ⟨hvalid, -⟩ := start_spec s source generation writerIdentifier
  obtain ⟨_, w₁, hcalls, h⟩ := StateT.bind_ok_iff.mp h
  obtain ⟨_, w₂, hflush, h⟩ := StateT.bind_ok_iff.mp h
  obtain ⟨rfl, rfl⟩ := StateT.pure_ok_iff.mp h
  obtain ⟨hsteps, hall⟩ := mapM_steps (c := s.session source)
    (Q := fun operation result w => Assured (s.session source) w
      (Operation.Outcome · operation result)) hvalid
    (fun _ _ _ _ hw hsteps hassured => hsteps.assured hw hassured)
    (fun _ _ _ _ _ ht _ hrun => Operation.run_spec ht hrun) hcalls
  have hlast := flushCurrentSegment_steps (c := s.session source) hflush
  refine ⟨hsteps.trans hlast, flushCurrentSegment_left (c := s.session source) hflush,
    fun provider hserves => hall.imp fun operation result hassured => ?_⟩
  exact hlast.assured (hsteps.valid hvalid) hassured provider hserves

section

variable (h : (runOperations s.environment operations).run (s.start generation writerIdentifier) =
    .ok (records, w))
include h

/-- At the end of a run the segments in the sink give every call's records back. -/
theorem runOperations_outcome (hdistinct : Distinct source w) :
    List.Forall₂ (Operation.Outcome (destination source w.sink)) operations records := by
  obtain ⟨-, hleft, hassured⟩ := runOperations_steps source h
  exact hassured _ (serves_destination (c := s.session source) hleft hdistinct)

/-- The outcome of one call of a run. -/
theorem runOperations_at {i : Nat} (hdistinct : Distinct source w)
    (hoperation : operations[i]? = some operation) (hresult : records[i]? = some result) :
    operation.Outcome (destination source w.sink) result := by
  obtain ⟨hi, rfl⟩ := List.getElem?_eq_some_iff.mp hoperation
  obtain ⟨hi', rfl⟩ := List.getElem?_eq_some_iff.mp hresult
  exact (List.forall₂_iff_get.mp (runOperations_outcome h hdistinct)).2 i hi hi'

end

end

end Froe
