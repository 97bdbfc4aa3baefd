import Froe.Writer.Operations

/-!
# What runs of the record writer give back

The values, lists, maps and nodes of a run, read from the segments of its sink.
The writer takes more than its readers do: a text of `2 ^ 31 - 1` bytes or more,
a list of more than `255 ^ 3` elements and a value of more blocks than that are
written without an error and refused by every reader.  Everything shorter is read
back as it was written.
-/

namespace Froe

open Except (bind_ok_iff)

open RecordWriter
open Surroundings (environment session)
open Succeeds (pure)

/-! ## A store to write into -/

/-- Surroundings whose draws count up and whose sink takes every segment. -/
def countingSurroundings : Surroundings where
  dataDraw n := (0, UInt64.ofNat n)
  bulkDraw n := (0, UInt64.ofNat n)
  milliseconds _ := 0
  takesSegment _ _ := .ok ()

def emptyStore : SegmentProvider := fun segment => .error (.segmentNotFound segment)

theorem open_countingSurroundings : (countingSurroundings.session emptyStore).Open :=
  ⟨fun _ _ => rfl, fun _ => trivial⟩

theorem toNat_mod_ofNat {n : Nat} (h : n < 2 ^ 60) : (UInt64.ofNat n).toNat % 2 ^ 60 = n := by
  rw [UInt64.toNat_ofNat']
  omega

theorem nodup_countingIdentifiers {w : RecordWriter}
    (hnumbered : Numbered (countingSurroundings.session emptyStore) w) (hdrawn : w.drawn ≤ 2 ^ 60) :
    w.identifiers.Nodup := by
  rw [RecordWriter.drawn] at hdrawn
  rw [hnumbered.nodup_iff, List.nodup_append]
  refine ⟨?_, ?_, ?_⟩
  · refine List.Nodup.map_on (fun i hi j hj heq => ?_) List.nodup_range
    have hleast := congrArg (fun segment => segment.leastSignificantBits.toNat) heq
    rw [List.mem_range] at hi hj
    dsimp only [session, environment, countingSurroundings] at hleast
    rw [newSegmentIdentifier_data, newSegmentIdentifier_data, toNat_mod_ofNat (by omega),
      toNat_mod_ofNat (by omega)] at hleast
    exact Nat.add_left_cancel hleast
  · refine List.Nodup.map_on (fun i hi j hj heq => ?_) List.nodup_range
    have hleast := congrArg (fun segment => segment.leastSignificantBits.toNat) heq
    rw [List.mem_range] at hi hj
    dsimp only [session, environment, countingSurroundings] at hleast
    rw [newSegmentIdentifier_bulk, newSegmentIdentifier_bulk, toNat_mod_ofNat (by omega),
      toNat_mod_ofNat (by omega)] at hleast
    exact Nat.add_left_cancel hleast
  · rintro segment hdata _ hbulk rfl
    obtain ⟨i, -, rfl⟩ := List.mem_map.mp hdata
    obtain ⟨j, -, heq⟩ := List.mem_map.mp hbulk
    have hleast := congrArg (fun segment => segment.leastSignificantBits.toNat) heq
    dsimp only [session, environment, countingSurroundings] at hleast
    rw [newSegmentIdentifier_data, newSegmentIdentifier_bulk] at hleast
    omega

/-- A run of calls over an empty store. -/
theorem exists_run_of_succeeds {operations : List Operation} {k : Nat}
    (h : ∀ operation ∈ operations, Succeeds (countingSurroundings.session emptyStore) k
      (operation.run countingSurroundings.environment))
    (hk : operations.length * k + 2 ≤ 2 ^ 60) :
    ∃ results w, (runOperations countingSurroundings.environment operations).run
      (countingSurroundings.start .null "froe") = .ok (results, w) ∧ Distinct emptyStore w ∧
      results.length = operations.length := by
  obtain ⟨hvalid, hfresh, hnumbered, hdrawn⟩ :=
    start_spec countingSurroundings emptyStore .null "froe"
  obtain ⟨results, w₁, hrun, hsteps, hdrawn₁⟩ := Succeeds.mapM h _ hvalid hfresh
  obtain ⟨_, w₂, hflush, hsteps', hdrawn₂⟩ := flushCurrentSegment_succeeds
    open_countingSurroundings w₁ (hsteps.valid hvalid) (hsteps.fresh hvalid hfresh)
  refine ⟨results, w₂, ?_, ⟨nodup_countingIdentifiers
    (hsteps'.numbered (hsteps.numbered hnumbered)) (by omega), nofun⟩,
    (StateT.mapM_length hrun).symm⟩
  exact StateT.bind_ok_iff.mpr ⟨results, w₁, hrun, StateT.bind_ok_iff.mpr ⟨⟨⟩, w₂, hflush, rfl⟩⟩

/-- A run of calls over an empty store gives every call its outcome. -/
theorem exists_outcomes {operations : List Operation} {k : Nat}
    (h : ∀ operation ∈ operations, Succeeds (countingSurroundings.session emptyStore) k
      (operation.run countingSurroundings.environment))
    (hk : operations.length * k + 2 ≤ 2 ^ 60) :
    ∃ results w, (runOperations countingSurroundings.environment operations).run
      (countingSurroundings.start .null "froe") = .ok (results, w) ∧ Distinct emptyStore w ∧
      ∀ (i : Nat) (operation : Operation), operations[i]? = some operation →
        ∃ result, results[i]? = some result ∧ operation.Outcome (destination emptyStore w.sink) result := by
  obtain ⟨results, w, hrun, hdistinct, hlength⟩ := exists_run_of_succeeds h hk
  refine ⟨results, w, hrun, hdistinct, fun i operation hoperation => ?_⟩
  have hi : i < results.length := by
    rw [hlength]
    exact (List.getElem?_eq_some_iff.mp hoperation).1
  have hresult : results[i]? = some results[i] := List.getElem?_eq_getElem hi
  exact ⟨_, hresult, runOperations_at hrun hdistinct hoperation hresult⟩

/-- A run of one call over an empty store. -/
theorem runOperations_succeeds {operation : Operation} {k : Nat}
    (h : Succeeds (countingSurroundings.session emptyStore) k
      (operation.run countingSurroundings.environment)) (hk : k + 2 ≤ 2 ^ 60) :
    ∃ result w, (runOperations countingSurroundings.environment [operation]).run
      (countingSurroundings.start .null "froe") = .ok ([result], w) ∧ Distinct emptyStore w := by
  have hall : ∀ other ∈ [operation], Succeeds (countingSurroundings.session emptyStore) k
      (other.run countingSurroundings.environment) := by
    intro other hmem
    rw [List.mem_singleton.mp hmem]
    exact h
  obtain ⟨results, w, hrun, hdistinct, hlength⟩ := exists_run_of_succeeds hall
    (by rw [List.length_singleton]; omega)
  obtain ⟨result, rfl⟩ := List.length_eq_one_iff.mp hlength
  exact ⟨result, w, hrun, hdistinct⟩

def textOfLength (n : Nat) : String := String.ofList (List.replicate n 'a')

theorem length_textOfLength (n : Nat) : (textOfLength n).utf8.length = n := by
  rw [textOfLength, Utf8.utf8_ofList]
  induction n with
  | zero => rfl
  | succ n ih =>
    rw [List.replicate_succ, List.flatMap_cons, List.length_append, ih]
    exact Nat.add_comm 1 n

theorem not_readable_textOfLength {n : Nat} (h : 2 ^ 31 - 1 ≤ n) : ¬ Readable (textOfLength n) := by
  rw [Readable, length_textOfLength]
  exact not_lt.mpr h

section

variable {s : Surroundings} {source : SegmentProvider} {generation : GarbageCollectionGeneration}
  {writerIdentifier : String} {operations : List Operation}
  {records : List (Option RecordIdentifier)} {w : RecordWriter}

/-! ## Values -/

def Operation.ValueRead (provider : SegmentProvider) (record : RecordIdentifier) : Operation → Prop
  | .string text => readString provider record = .ok text
  | .binaryContent content => readBinaryContent provider record = .ok content
  | _ => True

/-- The value of a call is one that its reader takes. -/
def Operation.ValueFits : Operation → Prop
  | .string text => Readable text
  | .binaryContent content => content.length ≤ maximumValueLength
  | _ => True

variable {provider : SegmentProvider} {operation : Operation} {record own : RecordIdentifier}

theorem Operation.Outcome.valueRead_iff (h : operation.Outcome provider (some record)) :
    operation.ValueRead provider record ↔ operation.ValueFits := by
  cases operation with
  | string text =>
    obtain ⟨_, heq, hvalue⟩ := h
    obtain rfl := Option.some.inj heq
    have hshort : 2 ^ 31 - 1 ≤ maximumValueLength := by decide
    have hreadable : 4 * (2 ^ 31 - 2) ≤ maximumValueLength := by decide
    constructor
    · intro hread
      by_contra hlong
      exact (hvalue ((length_readString hread).trans hreadable)).readString_long (not_lt.mp hlong)
        text hread
    · intro hfits
      have hread := (hvalue (hfits.le.trans hshort)).readString hfits
      rwa [Utf8.decodeLossy_utf8] at hread
  | binaryContent content =>
    obtain ⟨_, heq, hvalue⟩ := h
    obtain rfl := Option.some.inj heq
    exact ⟨length_readBinaryContent, fun hfits => (hvalue hfits).readBinaryContent⟩
  | _ => exact Iff.rfl

/-- A record of a segment under construction is read back at the end of the run. -/
theorem Steps.recordAt (hrun : (runOperations s.environment operations).run
      (s.start generation writerIdentifier) = .ok (records, w)) (hdistinct : Distinct source w)
    {t : RecordWriter} (hbefore : Steps (s.session source) (s.start generation writerIdentifier) t)
    (hafter : Steps (s.session source) t w) {number : Nat} {recordType : RecordType}
    {fields : List Field} (hnumber : 1 ≤ number) (hholds : t.current.Holds number recordType fields) :
    RecordAt (destination source w.sink) ⟨t.current.identifier, UInt32.ofNat number⟩ fields := by
  obtain ⟨hvalid, -⟩ := start_spec s source generation writerIdentifier
  obtain ⟨-, hleft, -⟩ := runOperations_steps source hrun
  have hrecorded : w.Recorded ⟨t.current.identifier, UInt32.ofNat number⟩ fields :=
    hafter.recorded (hbefore.valid hvalid) (.inr ⟨number, recordType, rfl, hnumber, hholds⟩)
  exact (serves_destination (c := s.session source) hleft hdistinct).records _ _ hrecorded

/-- In every run, a value is read back exactly when its reader takes its length, and what a record
refers to is resolved by the segment that was under construction when the record was written. -/
theorem runOperations_valueRead_iff
    (hrun : (runOperations s.environment operations).run (s.start generation writerIdentifier) =
      .ok (records, w)) (hdistinct : Distinct source w) :
    (∀ (i : Nat) (operation : Operation) (record : RecordIdentifier),
      operations[i]? = some operation → records[i]? = some (some record) →
      (operation.ValueRead (destination source w.sink) record ↔ operation.ValueFits)) ∧
    Steps (s.session source) (s.start generation writerIdentifier) w ∧
    ∀ t, Steps (s.session source) (s.start generation writerIdentifier) t →
      Steps (s.session source) t w → ∀ number recordType fields, 1 ≤ number →
        t.current.Holds number recordType fields →
        RecordAt (destination source w.sink) ⟨t.current.identifier, UInt32.ofNat number⟩ fields := by
  refine ⟨fun i operation record hoperation hrecord => ?_, (runOperations_steps source hrun).1,
    fun t hbefore hafter number recordType fields hnumber hholds => ?_⟩
  · exact (runOperations_at hrun hdistinct hoperation hrecord).valueRead_iff
  · exact Steps.recordAt hrun hdistinct hbefore hafter hnumber hholds

theorem Operation.string_succeeds (text : String) :
    Succeeds (countingSurroundings.session emptyStore) (3 * text.utf8.length + 1)
      ((Operation.string text).run countingSurroundings.environment) :=
  (writeString_succeeds open_countingSurroundings text).bind fun record _ =>
    pure (some record)

theorem runOperations_string {text : String} (h : text.utf8.length ≤ 2 ^ 32) :
    ∃ record w, (runOperations countingSurroundings.environment [.string text]).run
      (countingSurroundings.start .null "froe") = .ok ([some record], w) ∧
      Distinct emptyStore w := by
  obtain ⟨result, w, hrun, hdistinct⟩ := runOperations_succeeds (Operation.string_succeeds text)
    (by omega)
  obtain ⟨record, rfl, -⟩ : (Operation.string text).Outcome _ result :=
    runOperations_at (i := 0) hrun hdistinct rfl rfl
  exact ⟨record, w, hrun, hdistinct⟩

/-- A short text around one that no segment can hold. -/
def repeatedTexts : List String := ["a", textOfLength 600000, "a"]

theorem length_repeatedTexts {text : String} (h : text ∈ repeatedTexts) :
    text.utf8.length ≤ 600000 := by
  rcases List.mem_cons.mp h with rfl | h
  · decide
  · rcases List.mem_cons.mp h with rfl | h
    · rw [length_textOfLength]
    · rw [List.mem_singleton.mp h]
      decide

theorem runOperations_valueRead_texts : ∃ records w,
    (runOperations countingSurroundings.environment (repeatedTexts.map .string)).run
      (countingSurroundings.start .null "froe") = .ok (records, w) ∧ Distinct emptyStore w ∧
    ∀ (i : Nat) (text : String), repeatedTexts[i]? = some text →
      ∃ record, records[i]? = some (some record) ∧
      readString (destination emptyStore w.sink) record = .ok text := by
  obtain ⟨records, w, hrun, hdistinct, houtcomes⟩ := @exists_outcomes
    (repeatedTexts.map .string) (3 * 600000 + 1)
    (fun operation hmem => by
      obtain ⟨text, htext, rfl⟩ := List.mem_map.mp hmem
      have := length_repeatedTexts htext
      exact (Operation.string_succeeds text).mono (by omega)) (by decide)
  refine ⟨records, w, hrun, hdistinct, fun i text htext => ?_⟩
  have hoperation : (repeatedTexts.map Operation.string)[i]? = some (.string text) := by
    rw [List.getElem?_map, htext]
    rfl
  obtain ⟨_, hresult, record, rfl, -⟩ := houtcomes i _ hoperation
  refine ⟨record, hresult, ((runOperations_valueRead_iff hrun hdistinct).1 i (.string text)
    record hoperation hresult).mpr ?_⟩
  have := length_repeatedTexts (List.mem_of_getElem? htext)
  change text.utf8.length < 2 ^ 31 - 1
  omega

/-- A text that is written without an error and never read back. -/
theorem runOperations_string_refused : ∃ record w,
    (runOperations countingSurroundings.environment [.string (textOfLength (2 ^ 31 - 1))]).run
      (countingSurroundings.start .null "froe") = .ok ([some record], w) ∧
    Distinct emptyStore w ∧
    readString (destination emptyStore w.sink) record ≠ .ok (textOfLength (2 ^ 31 - 1)) := by
  obtain ⟨record, w, hrun, hdistinct⟩ := @runOperations_string (textOfLength (2 ^ 31 - 1))
    (by rw [length_textOfLength]; decide)
  have houtcome : (Operation.string (textOfLength (2 ^ 31 - 1))).Outcome _ (some record) :=
    runOperations_at (i := 0) hrun hdistinct rfl rfl
  exact ⟨record, w, hrun, hdistinct, fun hread =>
    not_readable_textOfLength le_rfl (houtcome.valueRead_iff.mp hread)⟩

/-! ## Lists -/

/-- The elements of a call are read back from its record. -/
def Operation.ListRead (provider : SegmentProvider) (record : RecordIdentifier) : Operation → Prop
  | .listBody identifiers =>
    uncountedListEntries provider record identifiers.length = .ok identifiers ∧
      (∀ i (hi : i < identifiers.length),
        uncountedListEntry provider record identifiers.length i = .ok identifiers[i]) ∧
      ∀ i, identifiers.length ≤ i → ∀ entry,
        uncountedListEntry provider record identifiers.length i ≠ .ok entry
  | .countedList identifiers => ∃ counted, readCountedList provider record = .ok counted ∧
      counted.size.toNat = identifiers.length ∧
      ((identifiers = [] ∧ counted.body = none) ∨ ∃ body, counted.body = some body ∧
        uncountedListEntries provider body counted.size.toNat = .ok identifiers)
  | _ => True

/-- The list of a call is one that its reader takes. -/
def Operation.ListFits : Operation → Prop
  | .listBody identifiers => identifiers.length ≤ maximumListSize
  | .countedList identifiers => identifiers.length ≤ maximumListSize
  | _ => True

theorem Operation.Outcome.listRead_iff (h : operation.Outcome provider (some record)) :
    operation.ListRead provider record ↔ operation.ListFits := by
  cases operation with
  | listBody identifiers =>
    rcases h with ⟨-, hnone⟩ | ⟨_, heq, hlist⟩
    · cases hnone
    · obtain rfl := Option.some.inj heq
      constructor
      · rintro ⟨hentries, -⟩
        obtain ⟨_, hvalid, -⟩ := bind_ok_iff.mp hentries
        exact validateSize_ok_iff.mp hvalid
      · intro hfits
        exact ⟨hlist.entries hfits, hlist.entry hfits, fun _ => uncountedListEntry_past⟩
  | countedList identifiers =>
    obtain ⟨_, heq, hlist⟩ := h
    obtain rfl := Option.some.inj heq
    constructor
    · rintro ⟨counted, hcounted, hsize, -⟩
      have hfits := size_readCountedList hcounted
      rwa [hsize] at hfits
    · intro hfits
      obtain ⟨counted, hcounted, hsize, hbody⟩ := hlist.read hfits
      refine ⟨counted, hcounted, hsize, ?_⟩
      rcases hbody with hempty | ⟨body, hsome, hbody⟩
      · exact .inl hempty
      · exact .inr ⟨body, hsome, hsize ▸ hbody.entries hfits⟩
  | _ => exact Iff.rfl

/-- In every run, a list is read back exactly when it has no more elements than its reader
takes. -/
theorem runOperations_listRead_iff
    (hrun : (runOperations s.environment operations).run (s.start generation writerIdentifier) =
      .ok (records, w)) (hdistinct : Distinct source w) {i : Nat} {operation : Operation}
    {record : RecordIdentifier} (hoperation : operations[i]? = some operation)
    (hrecord : records[i]? = some (some record)) :
    operation.ListRead (destination source w.sink) record ↔ operation.ListFits :=
  (runOperations_at hrun hdistinct hoperation hrecord).listRead_iff

theorem runOperations_countedList {identifiers : List RecordIdentifier}
    (h : identifiers.length ≤ 2 ^ 32) :
    ∃ record w, (runOperations countingSurroundings.environment [.countedList identifiers]).run
      (countingSurroundings.start .null "froe") = .ok ([some record], w) ∧
      Distinct emptyStore w := by
  have hsucceeds : Succeeds (countingSurroundings.session emptyStore) (identifiers.length + 1 + 0)
      ((Operation.countedList identifiers).run countingSurroundings.environment) :=
    (writeCountedList_succeeds open_countingSurroundings identifiers).bind fun record _ =>
      pure (some record)
  obtain ⟨result, w, hrun, hdistinct⟩ := runOperations_succeeds hsucceeds (by omega)
  obtain ⟨record, rfl, -⟩ : (Operation.countedList identifiers).Outcome _ result :=
    runOperations_at (i := 0) hrun hdistinct rfl rfl
  exact ⟨record, w, hrun, hdistinct⟩

theorem runOperations_listRead_two : ∃ record w,
    (runOperations countingSurroundings.environment
      [.countedList [⟨⟨1, 2⟩, 3⟩, ⟨⟨1, 2⟩, 4⟩]]).run
      (countingSurroundings.start .null "froe") = .ok ([some record], w) ∧
    Distinct emptyStore w ∧ (Operation.countedList [⟨⟨1, 2⟩, 3⟩, ⟨⟨1, 2⟩, 4⟩]).ListRead
      (destination emptyStore w.sink) record := by
  obtain ⟨record, w, hrun, hdistinct⟩ :=
    @runOperations_countedList [⟨⟨1, 2⟩, 3⟩, ⟨⟨1, 2⟩, 4⟩] (by decide)
  refine ⟨record, w, hrun, hdistinct, ?_⟩
  exact (runOperations_listRead_iff (i := 0) hrun hdistinct rfl rfl).mpr
    (show 2 ≤ maximumListSize by decide)

/-- A list that is written without an error and never read back. -/
theorem runOperations_countedList_refused : ∃ record w,
    (runOperations countingSurroundings.environment
      [.countedList (List.replicate (maximumListSize + 1) ⟨⟨1, 2⟩, 3⟩)]).run
      (countingSurroundings.start .null "froe") = .ok ([some record], w) ∧
    Distinct emptyStore w ∧
    ¬ (Operation.countedList (List.replicate (maximumListSize + 1) ⟨⟨1, 2⟩, 3⟩)).ListRead
      (destination emptyStore w.sink) record := by
  obtain ⟨identifiers, hidentifiers⟩ : ∃ identifiers : List RecordIdentifier,
      identifiers = List.replicate (maximumListSize + 1) ⟨⟨1, 2⟩, 3⟩ := ⟨_, rfl⟩
  have hlength : identifiers.length = maximumListSize + 1 := by
    rw [hidentifiers, List.length_replicate]
  rw [← hidentifiers]
  obtain ⟨record, w, hrun, hdistinct⟩ := @runOperations_countedList identifiers
    (by rw [hlength]; decide)
  have houtcome : (Operation.countedList identifiers).Outcome _ (some record) :=
    runOperations_at (i := 0) hrun hdistinct rfl rfl
  refine ⟨record, w, hrun, hdistinct, fun hread => ?_⟩
  have hfits : identifiers.length ≤ maximumListSize := houtcome.listRead_iff.mp hread
  omega

/-! ## Maps -/

/-- The entries of a call are read back from its record. -/
def Operation.MapRead (provider : SegmentProvider) (record : RecordIdentifier) : Operation → Prop
  | .map entries =>
    mapSize provider record = .ok entries.length ∧
      (∀ name value, (name, value) ∈ entries → mapEntry provider record name = .ok (some value)) ∧
      (∀ name, name ∉ entries.map Prod.fst → mapEntry provider record name = .ok none) ∧
      ∃ listed, mapEntries provider record = .ok listed ∧
        (listed.map fun entry => (entry.name, entry.value)).Perm entries
  | _ => True

/-- The names of a call are ones that a reader takes. -/
def Operation.MapFits : Operation → Prop
  | .map entries => ∀ entry ∈ entries, Readable entry.1
  | _ => True

theorem Operation.Outcome.mapRead_iff (h : operation.Outcome provider (some record)) :
    operation.MapRead provider record ↔ operation.MapFits := by
  cases operation with
  | map entries =>
    obtain ⟨_, heq, hmap⟩ := h
    obtain rfl := Option.some.inj heq
    constructor
    · rintro ⟨-, -, -, listed, hlisted, hperm⟩
      exact hmap.readable hlisted hperm
    · intro hfits
      exact (hmap.mapOf hfits).read
  | _ => exact Iff.rfl

/-- In every run, a map is read back exactly when a reader takes all its names. -/
theorem runOperations_mapRead_iff
    (hrun : (runOperations s.environment operations).run (s.start generation writerIdentifier) =
      .ok (records, w)) (hdistinct : Distinct source w) {i : Nat} {operation : Operation}
    {record : RecordIdentifier} (hoperation : operations[i]? = some operation)
    (hrecord : records[i]? = some (some record)) :
    operation.MapRead (destination source w.sink) record ↔ operation.MapFits :=
  (runOperations_at hrun hdistinct hoperation hrecord).mapRead_iff

/-- A run that writes a map of one entry. -/
theorem runOperations_map {name : String} (value : RecordIdentifier)
    (h : name.utf8.length ≤ 2 ^ 32) :
    ∃ record w, (runOperations countingSurroundings.environment [.map [(name, value)]]).run
      (countingSurroundings.start .null "froe") = .ok ([some record], w) ∧
      Distinct emptyStore w := by
  have hsucceeds : Succeeds (countingSurroundings.session emptyStore)
      (3 * name.utf8.length + 2 + 0)
      ((Operation.map [(name, value)]).run countingSurroundings.environment) :=
    (writeMap_succeeds open_countingSurroundings name value).bind fun record _ =>
      pure (some record)
  obtain ⟨result, w, hrun, hdistinct⟩ := runOperations_succeeds hsucceeds (by omega)
  obtain ⟨record, rfl, -⟩ : (Operation.map [(name, value)]).Outcome _ result :=
    runOperations_at (i := 0) hrun hdistinct rfl rfl
  exact ⟨record, w, hrun, hdistinct⟩

theorem runOperations_mapRead_child : ∃ record w,
    (runOperations countingSurroundings.environment [.map [("child", ⟨⟨1, 2⟩, 3⟩)]]).run
      (countingSurroundings.start .null "froe") = .ok ([some record], w) ∧
    Distinct emptyStore w ∧ (Operation.map [("child", ⟨⟨1, 2⟩, 3⟩)]).MapRead
      (destination emptyStore w.sink) record := by
  obtain ⟨record, w, hrun, hdistinct⟩ := @runOperations_map "child" ⟨⟨1, 2⟩, 3⟩ (by decide)
  refine ⟨record, w, hrun, hdistinct, ?_⟩
  refine (runOperations_mapRead_iff (i := 0) hrun hdistinct rfl rfl).mpr fun entry hentry => ?_
  rw [List.mem_singleton.mp hentry]
  decide

/-- A map that is written without an error and never read back. -/
theorem runOperations_map_refused : ∃ record w,
    (runOperations countingSurroundings.environment
      [.map [(textOfLength (2 ^ 31 - 1), ⟨⟨1, 2⟩, 3⟩)]]).run
      (countingSurroundings.start .null "froe") = .ok ([some record], w) ∧
    Distinct emptyStore w ∧ ¬ (Operation.map [(textOfLength (2 ^ 31 - 1), ⟨⟨1, 2⟩, 3⟩)]).MapRead
      (destination emptyStore w.sink) record := by
  obtain ⟨name, hname⟩ : ∃ name, name = textOfLength (2 ^ 31 - 1) := ⟨_, rfl⟩
  have hlength : name.utf8.length = 2 ^ 31 - 1 := by
    rw [hname, length_textOfLength]
  rw [← hname]
  obtain ⟨record, w, hrun, hdistinct⟩ := @runOperations_map name ⟨⟨1, 2⟩, 3⟩
    (by rw [hlength]; decide)
  have houtcome : (Operation.map [(name, ⟨⟨1, 2⟩, 3⟩)]).Outcome _ (some record) :=
    runOperations_at (i := 0) hrun hdistinct rfl rfl
  refine ⟨record, w, hrun, hdistinct, fun hread => ?_⟩
  have hfits : Readable name := houtcome.mapRead_iff.mp hread _ (List.mem_singleton_self _)
  rw [Readable, hlength] at hfits
  exact Nat.lt_irrefl _ hfits

/-! ## Nodes -/

/-- The node of a call is read back from its record: its types and the shape of its children and
properties, its children, its properties in slot order and by name, and its identity. -/
def Operation.NodeRead (f : FloatingPoint) (provider : SegmentProvider) (own : RecordIdentifier) :
    Operation → Prop
  | .node primaryType mixinTypes childNodes properties stableIdentifier =>
    NodeState.template ⟨provider, own⟩ = .ok ⟨primaryType, mixinTypes, childNodes.arity,
        (inOrder properties).map PropertyToWrite.slot⟩ ∧
      ChildrenRead ⟨provider, own⟩ childNodes ∧
      NodeState.storedProperties f ⟨provider, own⟩ =
        (inOrder properties).mapM (PropertyToWrite.read f ⟨provider, own⟩) ∧
      ((properties.map PropertyToWrite.name).Nodup → ∀ property ∈ properties,
        (property.name = "jcr:primaryType" → primaryType = none) →
        (property.name = "jcr:mixinTypes" → mixinTypes = []) →
        NodeState.property f ⟨provider, own⟩ property.name =
          (return some (← property.read f ⟨provider, own⟩))) ∧
      NodeState.stableIdentifierBytes ⟨provider, own⟩ = .ok (stableBytes stableIdentifier own)
  | _ => True

/-- The texts and the lists of a node are ones that their readers take. -/
def Operation.NodeFits : Operation → Prop
  | .node primaryType mixinTypes childNodes properties _ =>
    (∀ text ∈ (TemplateKey.of primaryType mixinTypes childNodes properties).texts,
        Readable text) ∧
      (∀ entry ∈ childNodes.entries, Readable entry.1) ∧
      ∀ property ∈ properties, property.count ≤ maximumListSize
  | _ => True

/-- Two calls write nodes of one shape: of the same types, with the same child name or none, and
with properties of the same names and types. -/
def Operation.SameShape : Operation → Operation → Prop
  | .node primaryType mixinTypes childNodes properties _,
    .node primaryType' mixinTypes' childNodes' properties' _ =>
    primaryType = primaryType' ∧ mixinTypes = mixinTypes' ∧ childNodes.arity = childNodes'.arity ∧
      (inOrder properties).map PropertyToWrite.slot = (inOrder properties').map PropertyToWrite.slot
  | _, _ => True

/-- The template of a node is the shape it was written with. -/
theorem Operation.Outcome.template {primaryType : Option String}
    {mixinTypes : List String} {childNodes : ChildNodesToWrite} {properties : List PropertyToWrite}
    {stableIdentifier : Option StableIdentifier}
    (h : (Operation.node primaryType mixinTypes childNodes properties stableIdentifier).Outcome
      provider (some own))
    (hfits : (Operation.node primaryType mixinTypes childNodes properties
      stableIdentifier).NodeFits) :
    NodeAt provider own primaryType mixinTypes childNodes (inOrder properties) ∧
      NodeState.template ⟨provider, own⟩ = .ok ⟨primaryType, mixinTypes, childNodes.arity,
        (inOrder properties).map PropertyToWrite.slot⟩ := by
  obtain ⟨_, heq, -, hnode⟩ := h
  obtain rfl := Option.some.inj heq
  have hnode : NodeAt (NodeState.provider ⟨provider, own⟩)
      (NodeState.recordIdentifier ⟨provider, own⟩) primaryType mixinTypes childNodes
      (inOrder properties) := hnode hfits.1 hfits.2.1
  obtain ⟨_, -, -, htemplate⟩ := hnode.template
  exact ⟨hnode, htemplate⟩

theorem Operation.Outcome.nodeRead (f : FloatingPoint) (h : operation.Outcome provider (some own))
    (hfits : operation.NodeFits) : operation.NodeRead f provider own := by
  cases operation with
  | node primaryType mixinTypes childNodes properties stableIdentifier =>
    obtain ⟨hnode, htemplate⟩ := h.template hfits
    have hnode : NodeAt (NodeState.provider ⟨provider, own⟩)
        (NodeState.recordIdentifier ⟨provider, own⟩) primaryType mixinTypes childNodes
        (inOrder properties) := hnode
    obtain ⟨_, heq, hstable, -⟩ := h
    obtain rfl := Option.some.inj heq
    obtain ⟨-, -, hcounts⟩ := hfits
    have hperm := perm_inOrder properties
    refine ⟨htemplate, hnode.childEntries, hnode.storedProperties f fun property hmem =>
      hcounts property (hperm.subset hmem), fun hnodup property hmem hprimary hmixins => ?_,
      hstable⟩
    exact hnode.property f ((hperm.map PropertyToWrite.name).nodup_iff.mpr hnodup)
      (hperm.symm.subset hmem) (hcounts property hmem) hprimary hmixins
  | _ => trivial

/-- Nodes over one template have one shape. -/
theorem Operation.Outcome.sameShape {operation' : Operation}
    {own' : RecordIdentifier} (h : operation.Outcome provider (some own))
    (h' : operation'.Outcome provider (some own')) (hfits : operation.NodeFits)
    (hfits' : operation'.NodeFits) (hshared : NodeState.templateIdentifier ⟨provider, own⟩ =
      NodeState.templateIdentifier ⟨provider, own'⟩) : operation.SameShape operation' := by
  cases operation with
  | node primaryType mixinTypes childNodes properties stableIdentifier =>
    cases operation' with
    | node primaryType' mixinTypes' childNodes' properties' stableIdentifier' =>
      obtain ⟨-, htemplate⟩ := h.template hfits
      obtain ⟨-, htemplate'⟩ := h'.template hfits'
      rw [NodeState.template, hshared] at htemplate
      rw [NodeState.template] at htemplate'
      exact Template.mk.inj (Except.ok.inj (htemplate.symm.trans htemplate'))
    | _ => trivial
  | _ => trivial

/-- In every run, a node whose texts and lists fit is read back as it was written, and two such
nodes share a template only if they have one shape. -/
theorem runOperations_nodeRead (f : FloatingPoint)
    (hrun : (runOperations s.environment operations).run (s.start generation writerIdentifier) =
      .ok (records, w)) (hdistinct : Distinct source w) :
    (∀ (i : Nat) (operation : Operation) (own : RecordIdentifier),
      operations[i]? = some operation → records[i]? = some (some own) → operation.NodeFits →
      operation.NodeRead f (destination source w.sink) own) ∧
    ∀ (i j : Nat) (operation operation' : Operation) (own own' : RecordIdentifier),
      operations[i]? = some operation → records[i]? = some (some own) →
      operations[j]? = some operation' → records[j]? = some (some own') →
      operation.NodeFits → operation'.NodeFits →
      NodeState.templateIdentifier ⟨destination source w.sink, own⟩ =
        NodeState.templateIdentifier ⟨destination source w.sink, own'⟩ →
      operation.SameShape operation' := by
  refine ⟨fun i operation own hoperation hown hfits => ?_, fun i j operation operation' own own'
    hoperation hown hoperation' hown' hfits hfits' hshared => ?_⟩
  · exact (runOperations_at hrun hdistinct hoperation hown).nodeRead f hfits
  · exact (runOperations_at hrun hdistinct hoperation hown).sameShape
      (runOperations_at hrun hdistinct hoperation' hown') hfits hfits' hshared

theorem runOperations_node {primaryType : String} (h : primaryType.utf8.length ≤ 2 ^ 34) :
    ∃ own w, (runOperations countingSurroundings.environment
        [.node (some primaryType) [] .zero [] none]).run
      (countingSurroundings.start .null "froe") = .ok ([some own], w) ∧ Distinct emptyStore w := by
  have hsucceeds : Succeeds (countingSurroundings.session emptyStore)
      (3 * primaryType.utf8.length + 3 + 0)
      ((Operation.node (some primaryType) [] .zero [] none).run
        countingSurroundings.environment) :=
    (writeNode_succeeds open_countingSurroundings primaryType).bind fun record _ =>
      pure (some record)
  obtain ⟨result, w, hrun, hdistinct⟩ := runOperations_succeeds hsucceeds (by omega)
  obtain ⟨own, rfl, -⟩ : (Operation.node (some primaryType) [] .zero [] none).Outcome _ result :=
    runOperations_at (i := 0) hrun hdistinct rfl rfl
  exact ⟨own, w, hrun, hdistinct⟩

/-- A node with a primary type and nothing else. -/
def nodeOfType (primaryType : String) : Operation := .node (some primaryType) [] .zero [] none

/-- The primary types of three nodes, of which two share a template. -/
def sharedTypes : List String := ["nt:folder", "nt:file", "nt:folder"]

theorem runOperations_nodeRead_sharedTypes : ∃ records w,
    (runOperations countingSurroundings.environment (sharedTypes.map nodeOfType)).run
      (countingSurroundings.start .null "froe") = .ok (records, w) ∧ Distinct emptyStore w ∧
    ∀ (i : Nat) (primaryType : String), sharedTypes[i]? = some primaryType →
      ∃ own, records[i]? = some (some own) ∧
      ∀ f, (nodeOfType primaryType).NodeRead f (destination emptyStore w.sink) own := by
  have hshort : ∀ primaryType ∈ sharedTypes, primaryType.utf8.length ≤ 9 := by decide
  obtain ⟨records, w, hrun, hdistinct, houtcomes⟩ := @exists_outcomes
    (sharedTypes.map nodeOfType) 30
    (fun operation hmem => by
      obtain ⟨primaryType, htype, rfl⟩ := List.mem_map.mp hmem
      have := hshort primaryType htype
      exact ((writeNode_succeeds open_countingSurroundings primaryType).bind fun record _ =>
        pure (some record)).mono (by omega)) (by decide)
  refine ⟨records, w, hrun, hdistinct, fun i primaryType htype => ?_⟩
  have hoperation : (sharedTypes.map nodeOfType)[i]? = some (nodeOfType primaryType) := by
    rw [List.getElem?_map, htype]
    rfl
  obtain ⟨_, hresult, own, rfl, -⟩ := houtcomes i _ hoperation
  refine ⟨own, hresult, fun f => ?_⟩
  refine (runOperations_nodeRead f hrun hdistinct).1 i _ own hoperation hresult
    ⟨fun text hmem => ?_, nofun, nofun⟩
  obtain rfl : text = primaryType := by
    simpa [TemplateKey.texts, TemplateKey.of] using hmem
  have := hshort text (List.mem_of_getElem? htype)
  change text.utf8.length < 2 ^ 31 - 1
  omega

theorem readTemplate_primaryType
    {template : Template} (h : readTemplate provider record = .ok template) {primaryType : String}
    (hprimary : template.primaryType = some primaryType) :
    ∃ name, readString provider name = .ok primaryType := by
  obtain ⟨view, -, h⟩ := bind_ok_iff.mp h
  obtain ⟨word, -, h⟩ := bind_ok_iff.mp h
  obtain ⟨⟨primary, cursor⟩, hread, h⟩ := bind_ok_iff.mp h
  obtain ⟨⟨mixins, cursor'⟩, -, h⟩ := bind_ok_iff.mp h
  obtain ⟨⟨arity, cursor''⟩, -, h⟩ := bind_ok_iff.mp h
  obtain ⟨slots, -, h⟩ := bind_ok_iff.mp h
  obtain rfl := Except.pure_ok_iff.mp h
  obtain rfl : primary = some primaryType := hprimary
  rw [readPrimaryType] at hread
  split at hread
  · obtain ⟨text, htext, hread⟩ := bind_ok_iff.mp hread
    obtain ⟨heq, -⟩ := Prod.mk.inj (Except.pure_ok_iff.mp hread)
    obtain ⟨name, -, hname⟩ := bind_ok_iff.mp htext
    exact ⟨name, Option.some.inj heq ▸ hname⟩
  · cases hread

/-- A node that is written without an error and never read back. -/
theorem runOperations_node_refused : ∃ own w,
    (runOperations countingSurroundings.environment
      [.node (some (textOfLength (2 ^ 33))) [] .zero [] none]).run
      (countingSurroundings.start .null "froe") = .ok ([some own], w) ∧ Distinct emptyStore w ∧
    ∀ f, ¬ (Operation.node (some (textOfLength (2 ^ 33))) [] .zero [] none).NodeRead f
      (destination emptyStore w.sink) own := by
  obtain ⟨primaryType, hprimary⟩ : ∃ primaryType, primaryType = textOfLength (2 ^ 33) := ⟨_, rfl⟩
  have hlength : primaryType.utf8.length = 2 ^ 33 := by
    rw [hprimary, length_textOfLength]
  rw [← hprimary]
  obtain ⟨own, w, hrun, hdistinct⟩ := @runOperations_node primaryType (by rw [hlength]; decide)
  refine ⟨own, w, hrun, hdistinct, fun f hread => ?_⟩
  obtain ⟨htemplate, -⟩ := hread
  obtain ⟨record, -, htemplate⟩ := Except.bind_ok_iff.mp htemplate
  obtain ⟨name, hname⟩ := readTemplate_primaryType htemplate rfl
  have hshort := length_readString hname
  rw [hlength] at hshort
  exact absurd hshort (by decide)

end

end Froe
