import Froe.Writer.SegmentBuffer

/-!
# Builder and parser are inverse

A run of operations on a segment under construction: allocations, references and
writes into records.  What a run leaves parses, and the parsed segment gives the
type and the content of every record and the segment behind every reference that
was handed out.

The table of referenced segments is part of what `fits` has room for, so a
reference has to be one that the last allocation declared.
-/

namespace Froe

open Option (bind_eq_bind bind_eq_some_iff map_some some_injective)

/-- What is done to a segment under construction. -/
inductive BuilderOperation where
  | allocate (recordType : RecordType) (size : Nat) (referenced : List SegmentIdentifier)
  | referenceFor (segment : SegmentIdentifier)
  | write (recordNumber offset : Nat) (bytes : Bytes)

namespace BuilderOperation

/-- One call on the buffer, that may be refused. -/
def perform (s : SegmentBuffer) : BuilderOperation → Option SegmentBuffer
  | allocate recordType size referenced => (s.allocate recordType size referenced).map Prod.snd
  | referenceFor segment => (s.referenceFor segment).map Prod.snd
  | write recordNumber offset bytes => s.writeRecordBytes recordNumber offset bytes

theorem perform_allocate (s : SegmentBuffer) (recordType : RecordType) (size : Nat)
    (referenced : List SegmentIdentifier) : perform s (.allocate recordType size referenced) =
      (s.allocate recordType size referenced).map Prod.snd := rfl

theorem perform_referenceFor (s : SegmentBuffer) (segment : SegmentIdentifier) :
    perform s (.referenceFor segment) = (s.referenceFor segment).map Prod.snd := rfl

/-- Performs operations one after the other. -/
def run (s : SegmentBuffer) (operations : List BuilderOperation) : Option SegmentBuffer :=
  operations.foldlM perform s

def build (b : SegmentBufferBuilder) : BuilderOperation → SegmentBufferBuilder
  | allocate recordType size referenced => ((b.allocate recordType size referenced).map Prod.snd).getD b
  | referenceFor segment => (b.referenceFor segment).2
  | write recordNumber offset bytes => b.copyInto recordNumber offset bytes

/-- What later writes make of the content of a record. -/
def contentAfter (recordNumber : Nat) : Bytes → List BuilderOperation → Bytes
  | content, [] => content
  | content, write number offset bytes :: operations =>
    contentAfter recordNumber
      (if number = recordNumber then content.splice offset bytes else content) operations
  | content, _ :: operations => contentAfter recordNumber content operations

/-- Every reference is to the segment itself, to a known segment or to one that the last
allocation declared. -/
def Declared (own : SegmentIdentifier) :
    List SegmentIdentifier → List SegmentIdentifier → List BuilderOperation → Prop
  | _, _, [] => True
  | known, _, allocate _ _ referenced :: operations => Declared own known referenced operations
  | known, declared, referenceFor segment :: operations =>
    (segment = own ∨ segment ∈ known ∨ segment ∈ declared) ∧
      Declared own (segment :: known) declared operations
  | known, declared, write .. :: operations => Declared own known declared operations

/-- The size of the first record. -/
def firstSize : List BuilderOperation → Option Nat
  | [] => none
  | allocate _ size _ :: _ => some size
  | _ :: operations => firstSize operations

end BuilderOperation

namespace SegmentBufferBuilder

variable {b : SegmentBufferBuilder} {declared : List SegmentIdentifier}

/-- The bounds that `fits` keeps, with room for declared segments. -/
structure Reserved (b : SegmentBufferBuilder) (declared : List SegmentIdentifier) : Prop where
  references : b.referencedSegments.length + b.newReferences declared ≤ maximumSegmentReferences
  size : headerSize + (b.referencedSegments.length + b.newReferences declared) *
    segmentReferenceSize + b.records.length * recordReferenceSize + dataLength b.records ≤
      maximumSegmentSize
  nonempty : ∀ record ∈ b.records.head?, 0 < record.content.length

theorem Reserved.bounded (h : b.Reserved declared) : b.Bounded := by
  refine ⟨?_, ?_, h.nonempty⟩
  · have := h.references
    omega
  · have := h.size
    unfold segmentReferenceSize at *
    omega

theorem reserved_new (identifier : SegmentIdentifier) (generation : GarbageCollectionGeneration) :
    (new identifier generation).Reserved [] :=
  ⟨Nat.le_of_ble_eq_true rfl, Nat.le_of_ble_eq_true rfl, by simp [new]⟩

theorem Reserved.allocate {b' : SegmentBufferBuilder} {recordType : RecordType} {size n : Nat}
    {referenced : List SegmentIdentifier} (h : b.Reserved declared)
    (hfirst : b.records = [] → 0 < size)
    (halloc : b.allocate recordType size referenced = some (n, b')) :
    n = b.records.length ∧
      b' = { b with records := b.records ++ [⟨recordType, List.replicate size 0⟩] } ∧
      b'.Reserved referenced := by
  unfold SegmentBufferBuilder.allocate at halloc
  split at halloc
  · rename_i hfits
    simp only [Option.some.injEq, Prod.mk.injEq] at halloc
    obtain ⟨rfl, rfl⟩ := halloc
    simp only [fits, decide_eq_true_eq, Bool.decide_and, Bool.and_eq_true] at hfits
    have hone : dataLength [⟨recordType, List.replicate size 0⟩] = alignedSize size := by
      rw [dataLength, List.map_singleton, List.sum_singleton, List.length_replicate]
    refine ⟨rfl, rfl, hfits.1, ?_, ?_⟩
    · rw [List.length_append, List.length_singleton, dataLength_append, hone]
      have := hfits.2
      unfold newReferences at *
      simp only
      omega
    · intro record hmem
      rw [List.head?_append] at hmem
      cases hrecords : b.records with
      | nil =>
        rw [hrecords] at hmem
        cases hmem
        rw [List.length_replicate]
        exact hfirst hrecords
      | cons first rest =>
        rw [hrecords] at hmem
        cases hmem
        exact h.nonempty record (by rw [hrecords]; rfl)
  · cases halloc

/-- A declared segment that gets its reference leaves room for the others. -/
theorem Reserved.referenceFor {segment : SegmentIdentifier} (h : b.Reserved declared)
    (hsegment : segment = b.identifier ∨ segment ∈ b.referencedSegments ∨ segment ∈ declared) :
    (b.referenceFor segment).2.Reserved declared := by
  obtain ⟨added, hafter, -, -, hcases⟩ := b.referenceFor_spec segment
  rw [hafter]
  rcases hcases with rfl | ⟨rfl, hown, hnew⟩
  · rw [List.append_nil]
    exact h
  · have hin : segment ∈ declared := (hsegment.resolve_left hown).resolve_left hnew
    obtain ⟨b', hb'⟩ : ∃ b' : SegmentBufferBuilder,
      b' = { b with referencedSegments := b.referencedSegments ++ [segment] } := ⟨_, rfl⟩
    rw [← hb']
    have hfewer : b'.newReferences declared < b.newReferences declared := by
      have hfilter : declared.filter (fun x => x ≠ b'.identifier ∧ x ∉ b'.referencedSegments) =
          (declared.filter fun x => x ≠ b.identifier ∧ x ∉ b.referencedSegments).filter
            fun x => x ≠ segment := by
        rw [List.filter_filter, hb']
        refine List.filter_congr fun x _ => ?_
        by_cases hx : x = segment <;> simp [hx]
      rw [newReferences, newReferences, hfilter]
      refine List.length_filter_lt_length_iff_exists.mpr ⟨segment, ?_, by simp⟩
      exact List.mem_filter.mpr ⟨hin, by simp [hown, hnew]⟩
    have hlength : b'.referencedSegments.length = b.referencedSegments.length + 1 := by
      rw [hb', List.length_append, List.length_singleton]
    have hrecords : b'.records = b.records := by rw [hb']
    refine ⟨?_, ?_, ?_⟩
    · have := h.references
      omega
    · have := h.size
      rw [hrecords, hlength]
      unfold segmentReferenceSize at *
      omega
    · rw [hrecords]
      exact h.nonempty

variable {recordNumber : Nat} {record : BufferedRecord}

theorem map_length_copyInto {offset : Nat} {bytes : Bytes}
    (hrecord : b.records[recordNumber]? = some record)
    (hinside : offset + bytes.length ≤ record.content.length) :
    (b.copyInto recordNumber offset bytes).records.map (fun r => r.content.length) =
      b.records.map fun r => r.content.length := by
  refine List.ext_getElem? fun k => ?_
  rw [copyInto, List.getElem?_map, List.getElem?_map, List.getElem?_modify]
  by_cases hk : recordNumber = k
  · subst hk
    rw [hrecord]
    simp [Bytes.length_splice hinside]
  · cases b.records[k]? <;> simp [hk]

theorem Reserved.copyInto {offset : Nat} {bytes : Bytes}
    (h : b.Reserved declared) (hrecord : b.records[recordNumber]? = some record)
    (hinside : offset + bytes.length ≤ record.content.length) :
    (b.copyInto recordNumber offset bytes).Reserved declared := by
  have hmap := map_length_copyInto hrecord hinside
  have hlength : (b.copyInto recordNumber offset bytes).records.length = b.records.length := by
    have := congrArg List.length hmap
    rwa [List.length_map, List.length_map] at this
  refine ⟨h.references, ?_, ?_⟩
  · rw [SegmentBuffer.dataLength_congr hmap, hlength]
    exact h.size
  · intro first hfirst
    have hhead := congrArg List.head? hmap
    rw [List.head?_map, List.head?_map, hfirst] at hhead
    cases hold : b.records.head? with
    | none =>
      rw [hold] at hhead
      cases hhead
    | some old =>
      rw [hold] at hhead
      have := h.nonempty old hold
      simp only [map_some, Option.some.injEq] at hhead
      omega

end SegmentBufferBuilder

/-! ## Runs -/

namespace BuilderOperation

variable {s s' : SegmentBuffer} {b : SegmentBufferBuilder}
  {known declared : List SegmentIdentifier} {operations : List BuilderOperation}

/-- What the operations leave of a builder. -/
structure Ran (b b' : SegmentBufferBuilder) (operations : List BuilderOperation) : Prop where
  identifier : b'.identifier = b.identifier
  references : b.referencedSegments <+: b'.referencedSegments
  records : ∀ (n : Nat) (record : BufferedRecord), b.records[n]? = some record →
    b'.records[n]? = some ⟨record.recordType, contentAfter n record.content operations⟩

/-- A segment under construction, with the operations that follow. -/
structure Running (s : SegmentBuffer) (b : SegmentBufferBuilder)
    (known declared : List SegmentIdentifier) (operations : List BuilderOperation) : Prop where
  lays : s.Lays b
  reserved : b.Reserved declared
  references : ∀ segment ∈ known, segment = b.identifier ∨ segment ∈ b.referencedSegments
  follows : Declared b.identifier known declared operations
  first : b.records = [] → ∀ size ∈ firstSize operations, 0 < size

theorem Running.allocate {recordType : RecordType} {size n : Nat}
    {referenced : List SegmentIdentifier}
    (h : Running s b known declared (.allocate recordType size referenced :: operations))
    (halloc : s.allocate recordType size referenced = some (n, s')) :
    n = b.records.length ∧ build b (.allocate recordType size referenced) =
        { b with records := b.records ++ [⟨recordType, List.replicate size 0⟩] } ∧
      Running s' (build b (.allocate recordType size referenced)) known referenced operations := by
  obtain ⟨b₁, hb₁, hlays⟩ := h.lays.allocate halloc
  obtain ⟨hn, rfl, hnext⟩ := h.reserved.allocate (fun hnil => h.first hnil size rfl) hb₁
  rw [build, hb₁, map_some, Option.getD_some]
  exact ⟨hn, rfl, hlays, hnext, h.references, h.follows, by simp⟩

theorem Running.referenceFor {segment : SegmentIdentifier} {reference : Nat}
    (h : Running s b known declared (.referenceFor segment :: operations))
    (hreference : s.referenceFor segment = some (reference, s')) :
    reference = (b.referenceFor segment).2.referenceOf segment ∧
      Running s' (b.referenceFor segment).2 (segment :: known) declared operations := by
  obtain ⟨hvalue, hlays⟩ := h.lays.referenceFor hreference
  obtain ⟨hsegment, hdeclared⟩ := h.follows
  have hin : segment = b.identifier ∨ segment ∈ b.referencedSegments ∨ segment ∈ declared := by
    rcases hsegment with hown | hmem | hmem
    · exact .inl hown
    · exact (h.references segment hmem).imp_right .inl
    · exact .inr (.inr hmem)
  have hnext := h.reserved.referenceFor hin
  obtain ⟨added, hafter, hreference', hadded, -⟩ := b.referenceFor_spec segment
  refine ⟨by rw [← hvalue, hreference'], hlays, hnext, ?_, ?_, ?_⟩
  · intro x hx
    rw [hafter]
    rcases List.mem_cons.mp hx with rfl | hx
    · exact hadded
    · exact (h.references x hx).imp_right (List.mem_append_left _)
  · rw [hafter]
    exact hdeclared
  · rw [hafter]
    exact h.first

theorem Running.write {number offset : Nat} {bytes : Bytes}
    (h : Running s b known declared (.write number offset bytes :: operations))
    (hwrite : s.writeRecordBytes number offset bytes = some s') :
    Running s' (b.copyInto number offset bytes) known declared operations := by
  obtain ⟨⟨record, hrecord, hinside⟩, hlays⟩ := h.lays.writeRecordBytes hwrite
  refine ⟨hlays, h.reserved.copyInto hrecord hinside, h.references, h.follows, ?_⟩
  intro hempty
  have hlength := congrArg List.length
    (SegmentBufferBuilder.map_length_copyInto hrecord hinside)
  rw [hempty] at hlength
  simp only [List.map_nil, List.length_nil, List.length_map] at hlength
  rw [List.eq_nil_of_length_eq_zero hlength.symm] at hrecord
  cases hrecord

variable {before after : List BuilderOperation}

/-- A run of the buffer is a run of the builder it holds. -/
theorem Running.run
    (h : Running s b known declared (before ++ after)) (hrun : run s before = some s') :
    ∃ known' declared', Running s' (before.foldl build b) known' declared' after ∧
      Ran b (before.foldl build b) before := by
  induction before generalizing s b known declared with
  | nil =>
    cases hrun
    exact ⟨known, declared, h, rfl, List.prefix_refl _, fun n record hrecord => hrecord⟩
  | cons operation before ih =>
    rw [BuilderOperation.run, List.foldlM_cons, bind_eq_bind,
      bind_eq_some_iff] at hrun
    obtain ⟨s₁, hstep, hrest⟩ := hrun
    rw [List.cons_append] at h
    rw [List.foldl_cons]
    cases operation with
    | allocate recordType size referenced =>
      rw [perform_allocate] at hstep
      obtain ⟨⟨n, s₁⟩, halloc, rfl⟩ := Option.map_eq_some_iff.mp hstep
      obtain ⟨-, hbuild, hnext⟩ := h.allocate halloc
      obtain ⟨known', declared', hrunning, hran⟩ := ih hnext hrest
      refine ⟨known', declared', hrunning, ?_⟩
      rw [hbuild] at hran ⊢
      refine ⟨hran.identifier, hran.references, ?_⟩
      intro n record hrecord
      obtain ⟨hlt, -⟩ := List.getElem?_eq_some_iff.mp hrecord
      exact hran.records n record (by rw [List.getElem?_append_left hlt, hrecord])
    | referenceFor segment =>
      rw [perform_referenceFor] at hstep
      obtain ⟨⟨reference, s₁⟩, hreference, rfl⟩ := Option.map_eq_some_iff.mp hstep
      obtain ⟨-, hnext⟩ := h.referenceFor hreference
      obtain ⟨known', declared', hrunning, hran⟩ := ih hnext hrest
      refine ⟨known', declared', hrunning, ?_⟩
      obtain ⟨added, hafter, -⟩ := b.referenceFor_spec segment
      rw [build]
      rw [hafter] at hran ⊢
      exact ⟨hran.identifier, (List.prefix_append ..).trans hran.references, hran.records⟩
    | write number offset bytes =>
      obtain ⟨known', declared', hrunning, hran⟩ := ih (h.write hstep) hrest
      refine ⟨known', declared', hrunning, hran.identifier, hran.references, ?_⟩
      intro n old hold
      rw [contentAfter]
      refine hran.records n
        ⟨old.recordType, if number = n then old.content.splice offset bytes else old.content⟩ ?_
      rw [SegmentBufferBuilder.copyInto, List.getElem?_modify, hold]
      by_cases hn : number = n <;> simp [hn]

theorem running_new (identifier : SegmentIdentifier) (generation : GarbageCollectionGeneration)
    (hdeclared : Declared identifier [] [] operations)
    (hfirst : ∀ size ∈ firstSize operations, 0 < size) :
    Running (.new identifier generation) (.new identifier generation) [] [] operations :=
  ⟨SegmentBuffer.lays_new identifier generation,
    SegmentBufferBuilder.reserved_new identifier generation, by simp, hdeclared, fun _ => hfirst⟩

/-! ## What the parser finds -/

/-- A record that a run has allocated: its number, type and final content. -/
def Allocated (identifier : SegmentIdentifier) (generation : GarbageCollectionGeneration)
    (operations : List BuilderOperation) (n : Nat) (recordType : RecordType) (content : Bytes) :
    Prop :=
  ∃ before size referenced after s₁ s₂,
    operations = before ++ .allocate recordType size referenced :: after ∧
      run (.new identifier generation) before = some s₁ ∧
      s₁.allocate recordType size referenced = some (n, s₂) ∧
      content = contentAfter n (List.replicate size 0) after

/-- A reference that a run has handed out. -/
def HandedOut (identifier : SegmentIdentifier) (generation : GarbageCollectionGeneration)
    (operations : List BuilderOperation) (segment : SegmentIdentifier) (reference : Nat) : Prop :=
  ∃ before after s₁ s₂, operations = before ++ .referenceFor segment :: after ∧
    run (.new identifier generation) before = some s₁ ∧
    s₁.referenceFor segment = some (reference, s₂)

variable {identifier : SegmentIdentifier} {generation : GarbageCollectionGeneration}

theorem run_append (h : run s (before ++ after) = some s') :
    ∃ s₁, run s before = some s₁ ∧ run s₁ after = some s' := by
  rw [run, List.foldlM_append, bind_eq_bind, bind_eq_some_iff] at h
  exact h

/-- The builder that a run leaves holds every record that was allocated. -/
theorem Allocated.record {n : Nat} {recordType : RecordType} {content : Bytes}
    (hdeclared : Declared identifier [] [] operations)
    (hfirst : ∀ size ∈ firstSize operations, 0 < size)
    (hrun : run (.new identifier generation) operations = some s)
    (h : Allocated identifier generation operations n recordType content) :
    (operations.foldl build (.new identifier generation)).records[n]? =
      some ⟨recordType, content⟩ := by
  obtain ⟨before, size, referenced, after, s₁, s₂, rfl, hbefore, halloc, rfl⟩ := h
  obtain ⟨known, declared, hrunning, -⟩ :=
    (running_new identifier generation hdeclared hfirst).run hbefore
  obtain ⟨hn, hbuild, hnext⟩ := hrunning.allocate halloc
  obtain ⟨s₁', hs₁', hrest⟩ := run_append hrun
  obtain rfl : s₁' = s₁ := some_injective _ (hs₁'.symm.trans hbefore)
  rw [run, List.foldlM_cons, bind_eq_bind, bind_eq_some_iff] at hrest
  obtain ⟨s₂', hstep, hafter⟩ := hrest
  rw [perform, halloc, map_some] at hstep
  obtain rfl := some_injective _ hstep
  rw [← List.append_nil after] at hnext
  obtain ⟨-, -, -, hran⟩ := hnext.run hafter
  rw [List.foldl_append, List.foldl_cons]
  refine hran.records n ⟨recordType, List.replicate size 0⟩ ?_
  rw [hbuild, hn, List.getElem?_append_right le_rfl, Nat.sub_self]
  rfl

/-- The builder that a run leaves knows every reference that was handed out. -/
theorem HandedOut.reference {segment : SegmentIdentifier} {reference : Nat}
    (hdeclared : Declared identifier [] [] operations)
    (hfirst : ∀ size ∈ firstSize operations, 0 < size)
    (hrun : run (.new identifier generation) operations = some s)
    (h : HandedOut identifier generation operations segment reference) :
    let b := operations.foldl build (.new identifier generation)
    reference = b.referenceOf segment ∧
      (segment = b.identifier ∨ segment ∈ b.referencedSegments) := by
  obtain ⟨before, after, s₁, s₂, rfl, hbefore, hreference⟩ := h
  obtain ⟨known, declared, hrunning, -⟩ :=
    (running_new identifier generation hdeclared hfirst).run hbefore
  obtain ⟨hvalue, hnext⟩ := hrunning.referenceFor hreference
  obtain ⟨s₁', hs₁', hrest⟩ := run_append hrun
  obtain rfl : s₁' = s₁ := some_injective _ (hs₁'.symm.trans hbefore)
  rw [run, List.foldlM_cons, bind_eq_bind, bind_eq_some_iff] at hrest
  obtain ⟨s₂', hstep, hafter⟩ := hrest
  rw [perform, hreference, map_some] at hstep
  obtain rfl := some_injective _ hstep
  have hknown := hnext.references segment (List.mem_cons_self ..)
  rw [← List.append_nil after] at hnext
  obtain ⟨-, -, -, hran⟩ := hnext.run hafter
  simp only [List.foldl_append, List.foldl_cons, build]
  obtain ⟨b₁, hb₁⟩ : ∃ b₁, b₁ = (SegmentBufferBuilder.referenceFor
    (before.foldl build (.new identifier generation)) segment).2 := ⟨_, rfl⟩
  rw [← hb₁] at hvalue hknown hran ⊢
  obtain ⟨added, hadded⟩ := hran.references
  constructor
  · rw [hvalue, SegmentBufferBuilder.referenceOf, SegmentBufferBuilder.referenceOf,
      hran.identifier]
    split
    · rfl
    · rename_i hown
      rw [← hadded, List.idxOf_append_of_mem (hknown.resolve_left hown)]
  · rw [hran.identifier, ← hadded]
    exact hknown.imp_right (List.mem_append_left _)

end BuilderOperation

namespace SegmentBufferBuilder

variable {b : SegmentBufferBuilder}

@[simp] theorem length_tableEntries (number start : Nat) (records : List BufferedRecord) :
    (tableEntries number start records).length = records.length := by
  induction records generalizing number start with
  | nil => rfl
  | cons record records ih => rw [tableEntries, List.length_cons, ih, List.length_cons]

/-- Where a record starts in the finished bytes. -/
def recordStart (b : SegmentBufferBuilder) (n : Nat) : Nat :=
  b.front.length + dataLength (b.records.drop (n + 1))

variable {parsed : ParsedSegment} {n : Nat} {record : BufferedRecord}

theorem recordPosition_recordStart (hb : b.Bounded) (hparsed : b.ParsedAs parsed)
    (hrecord : b.records[n]? = some record) :
    SegmentView.recordPosition ⟨parsed, b.finish.bytes⟩ (UInt32.ofNat n) =
      .ok (b.recordStart n) := by
  obtain ⟨hn, hget⟩ := List.getElem?_eq_some_iff.mp hrecord
  have hrecords : b.records = b.records.take n ++ record :: b.records.drop (n + 1) := by
    rw [← hget, List.getElem_cons_drop, List.take_append_drop]
  have hlength : (b.records.take n).length = n := by
    rw [List.length_take]
    omega
  have hposition := recordPosition_finish hb hparsed hrecords
  rwa [hlength] at hposition

theorem recordType_finish (hparsed : b.ParsedAs parsed) (hrecord : b.records[n]? = some record) :
    parsed.recordType (UInt32.ofNat n) = some record.recordType := by
  obtain ⟨hn, hget⟩ := List.getElem?_eq_some_iff.mp hrecord
  have hrecords : b.records = b.records.take n ++ record :: b.records.drop (n + 1) := by
    rw [← hget, List.getElem_cons_drop, List.take_append_drop]
  have hlength : (b.records.take n).length = n := by
    rw [List.length_take]
    omega
  have hmem := @mem_tableEntries 0 maximumSegmentSize (b.records.take n)
    (b.records.drop (n + 1)) record
  rw [Nat.zero_add, ← hrecords, ← hparsed.recordTable, hlength] at hmem
  have hfound := (Search.binarySearch_eq_some_iff parsed.sorted).mpr ⟨hmem, rfl⟩
  rw [ParsedSegment.recordType]
  refine (congrArg (Option.bind · RecordTableEntry.recordType) hfound).trans ?_
  exact RecordType.fromByte_toByte record.recordType

theorem dataLength_drop {records : List BufferedRecord} (h : records[n]? = some record) :
    dataLength (records.drop n) =
      alignedSize record.content.length + dataLength (records.drop (n + 1)) := by
  obtain ⟨hn, hget⟩ := List.getElem?_eq_some_iff.mp h
  rw [← List.getElem_cons_drop hn, hget, SegmentBuffer.dataLength_cons]

/-- A record ends before every record with a lower number. -/
theorem recordStart_add_le {m : Nat} (hrecord : b.records[m]? = some record) (h : n < m) :
    b.recordStart m + record.content.length ≤ b.recordStart n := by
  have hdrop := dataLength_drop hrecord
  have hsize := le_alignedSize record.content.length
  have hsplit : b.records.drop (n + 1) =
      (b.records.drop (n + 1)).take (m - (n + 1)) ++ b.records.drop m := by
    have := List.take_append_drop (m - (n + 1)) (b.records.drop (n + 1))
    rw [List.drop_drop, show n + 1 + (m - (n + 1)) = m by omega] at this
    exact this.symm
  unfold recordStart
  rw [hsplit, dataLength_append]
  omega

theorem recordStart_add_le_length (hrecord : b.records[n]? = some record) :
    b.recordStart n + record.content.length ≤ b.finish.bytes.length := by
  have hdrop := dataLength_drop hrecord
  have hsize := le_alignedSize record.content.length
  have hall : dataLength b.records = dataLength (b.records.take n) +
      dataLength (b.records.drop n) := by
    rw [← dataLength_append, List.take_append_drop]
  rw [finish_bytes, List.length_append, length_recordData]
  unfold recordStart
  omega

theorem length_tables_le_recordStart (b : SegmentBufferBuilder) (n : Nat) :
    32 + 16 * b.referencedSegments.length + 9 * b.records.length ≤ b.recordStart n := by
  rw [recordStart, front, List.length_append, length_tables]
  omega

end SegmentBufferBuilder

namespace BuilderOperation

/-- The parsed segment has what the operations put in. -/
structure GivesBack (identifier : SegmentIdentifier) (generation : GarbageCollectionGeneration)
    (operations : List BuilderOperation) (bytes : Bytes) (parsed : ParsedSegment) : Prop where
  recordType : ∀ {n : Nat} {recordType : RecordType} {content : Bytes},
    Allocated identifier generation operations n recordType content →
      parsed.recordType (UInt32.ofNat n) = some recordType
  content : ∀ {n : Nat} {recordType : RecordType} {content : Bytes},
    Allocated identifier generation operations n recordType content →
      ∀ offset length, offset + length ≤ content.length →
        SegmentView.readBytes ⟨parsed, bytes⟩ (UInt32.ofNat n) offset length =
          .ok (content.slice offset length)
  /-- A record lies behind the tables and inside the bytes. -/
  inside : ∀ {n : Nat} {recordType : RecordType} {content : Bytes},
    Allocated identifier generation operations n recordType content →
      ∃ position, SegmentView.recordPosition ⟨parsed, bytes⟩ (UInt32.ofNat n) = .ok position ∧
        32 + 16 * parsed.referencedSegments.length + 9 * parsed.recordTable.length ≤ position ∧
        position + content.length ≤ bytes.length
  disjoint : ∀ {n m : Nat} {first second : RecordType} {content other : Bytes},
    Allocated identifier generation operations n first content →
      Allocated identifier generation operations m second other → n ≠ m →
      ∀ position otherPosition,
        SegmentView.recordPosition ⟨parsed, bytes⟩ (UInt32.ofNat n) = .ok position →
        SegmentView.recordPosition ⟨parsed, bytes⟩ (UInt32.ofNat m) = .ok otherPosition →
        position + content.length ≤ otherPosition ∨ otherPosition + other.length ≤ position
  reference : ∀ {segment : SegmentIdentifier} {reference : Nat},
    HandedOut identifier generation operations segment reference →
      parsed.resolveSegmentReference (UInt16.ofNat reference) = .ok segment

/-- What a run with declared references leaves parses, and the parsed segment gives back what the
run did. -/
theorem parse_of_run (identifier : SegmentIdentifier) (generation : GarbageCollectionGeneration)
    (operations : List BuilderOperation) (s : SegmentBuffer)
    (hdata : identifier.isDataSegment = true) (hdeclared : Declared identifier [] [] operations)
    (hfirst : ∀ size ∈ firstSize operations, 0 < size)
    (hrun : run (.new identifier generation) operations = some s) :
    s.finish.bytes.length ≤ maximumSegmentSize ∧
      ∃ parsed, ParsedSegment.parse identifier s.finish.bytes = .ok parsed ∧
        GivesBack identifier generation operations s.finish.bytes parsed := by
  have hnew := running_new identifier generation hdeclared hfirst
  rw [← List.append_nil operations] at hnew
  obtain ⟨known, declared, hrunning, hran⟩ := hnew.run hrun
  have hidentifier := hran.identifier
  have hallocated := fun {n recordType content} =>
    @Allocated.record s operations identifier generation n recordType content hdeclared hfirst hrun
  have hreferences := fun {segment reference} =>
    @HandedOut.reference s operations identifier generation segment reference hdeclared hfirst hrun
  obtain ⟨b, hb⟩ : ∃ b, b = operations.foldl build (.new identifier generation) := ⟨_, rfl⟩
  rw [← hb] at hrunning hidentifier hallocated hreferences
  have hbounded := hrunning.reserved.bounded
  obtain ⟨parsed, hparse, hparsed⟩ := SegmentBufferBuilder.parse_finish hbounded (by
    rw [hidentifier]
    exact hdata)
  rw [hrunning.lays.finish]
  rw [hidentifier] at hparse
  refine ⟨hbounded.length_le, parsed, hparse, ?_, ?_, ?_, ?_, ?_⟩
  · intro n recordType content h
    exact SegmentBufferBuilder.recordType_finish hparsed (hallocated h)
  · intro n recordType content h offset length hread
    exact SegmentBufferBuilder.readBytes_finish hbounded hparsed (hallocated h) hread
  · intro n recordType content h
    refine ⟨_, SegmentBufferBuilder.recordPosition_recordStart hbounded hparsed (hallocated h),
      ?_, SegmentBufferBuilder.recordStart_add_le_length (hallocated h)⟩
    rw [hparsed.referencedSegments, hparsed.recordTable, SegmentBufferBuilder.length_tableEntries]
    exact b.length_tables_le_recordStart n
  · intro n m first second content other h h' hne position otherPosition hposition hother
    rw [SegmentBufferBuilder.recordPosition_recordStart hbounded hparsed (hallocated h)]
      at hposition
    rw [SegmentBufferBuilder.recordPosition_recordStart hbounded hparsed (hallocated h')] at hother
    cases hposition
    cases hother
    rcases Nat.lt_or_gt_of_ne hne with hlt | hgt
    · exact .inr (SegmentBufferBuilder.recordStart_add_le (hallocated h') hlt)
    · exact .inl (SegmentBufferBuilder.recordStart_add_le (hallocated h) hgt)
  · intro segment reference h
    obtain ⟨rfl, hknown⟩ := hreferences h
    exact SegmentBufferBuilder.resolveSegmentReference_finish hbounded hparsed
      (show b.Knows (.identifier ⟨segment, 0⟩) from hknown)

/-- A value, and a node that names a record of another segment. -/
def twoRecords : List BuilderOperation :=
  [.allocate .value 5 [], .write 0 1 [7, 8], .allocate .node 12 [⟨2, 0xA000000000000000⟩],
    .referenceFor ⟨2, 0xA000000000000000⟩, .write 1 0 [0, 1]]

theorem parse_of_run_twoRecords :
    ∃ s, run (.new ⟨1, 0xA000000000000000⟩ ⟨3, 2, true⟩) twoRecords = some s ∧
      ∃ parsed, ParsedSegment.parse ⟨1, 0xA000000000000000⟩ s.finish.bytes = .ok parsed ∧
        GivesBack ⟨1, 0xA000000000000000⟩ ⟨3, 2, true⟩ twoRecords s.finish.bytes parsed := by
  have hrun : (run (.new ⟨1, 0xA000000000000000⟩ ⟨3, 2, true⟩) twoRecords).isSome = true := by
    decide +kernel
  obtain ⟨s, hs⟩ := Option.isSome_iff_exists.mp hrun
  exact ⟨s, hs, (parse_of_run _ _ _ s (by decide) (by simp [twoRecords, Declared])
    (by simp [twoRecords, firstSize]) hs).2⟩

/-- A record that fills the segment, and a reference that its allocation did not declare. -/
def undeclaredReference : List BuilderOperation :=
  [.allocate .value 262100 [], .referenceFor ⟨2, 0xA000000000000000⟩]

/-- The allocation is admitted, and the segment is too long to parse. -/
theorem undeclaredReference_not_parsed :
    ∃ s, run (.new ⟨1, 0xA000000000000000⟩ ⟨3, 2, true⟩) undeclaredReference = some s ∧
      maximumSegmentSize < s.finish.bytes.length ∧
      ∀ parsed, ParsedSegment.parse ⟨1, 0xA000000000000000⟩ s.finish.bytes ≠ .ok parsed := by
  have hrun : (run (.new ⟨1, 0xA000000000000000⟩ ⟨3, 2, true⟩)
      undeclaredReference).isSome = true := by
    decide +kernel
  obtain ⟨s, hs⟩ := Option.isSome_iff_exists.mp hrun
  have hsteps := hs
  rw [run, undeclaredReference, List.foldlM_cons, Option.bind_eq_bind,
    Option.bind_eq_some_iff] at hsteps
  obtain ⟨s₁, hfirst, hsecond⟩ := hsteps
  rw [List.foldlM_cons, Option.bind_eq_bind, Option.bind_eq_some_iff] at hsecond
  obtain ⟨s₂, hsecond, hend⟩ := hsecond
  obtain rfl : s₂ = s := Option.some_injective _ hend
  rw [perform_allocate] at hfirst
  rw [perform_referenceFor] at hsecond
  obtain ⟨⟨n, s₁⟩, halloc, rfl⟩ := Option.map_eq_some_iff.mp hfirst
  obtain ⟨⟨reference, s₂⟩, hreference, rfl⟩ := Option.map_eq_some_iff.mp hsecond
  obtain ⟨b₁, hb₁, hlays₁⟩ := (SegmentBuffer.lays_new ⟨1, 0xA000000000000000⟩
    ⟨3, 2, true⟩).allocate halloc
  obtain ⟨-, rfl, -⟩ := (SegmentBufferBuilder.reserved_new _ _).allocate (fun _ => by decide) hb₁
  obtain ⟨-, hlays₂⟩ := hlays₁.referenceFor hreference
  have hlong : maximumSegmentSize < s₂.finish.bytes.length := by
    rw [hlays₂.finish, SegmentBufferBuilder.length_finish_bytes, length_tables]
    have hreferences : ((SegmentBufferBuilder.mk ⟨1, 0xA000000000000000⟩ ⟨3, 2, true⟩
        [⟨.value, List.replicate 262100 0⟩] [] []).referenceFor
          ⟨2, 0xA000000000000000⟩).2 = SegmentBufferBuilder.mk ⟨1, 0xA000000000000000⟩ ⟨3, 2, true⟩
        [⟨.value, List.replicate 262100 0⟩] [⟨2, 0xA000000000000000⟩] [] := by
      rw [SegmentBufferBuilder.referenceFor, if_neg (by decide), if_neg (by simp)]
      rfl
    have hdata : dataLength [⟨.value, List.replicate 262100 0⟩] = 262100 := by
      rw [dataLength, List.map_singleton, List.sum_singleton, List.length_replicate]
      rfl
    simp only [SegmentBufferBuilder.new, List.nil_append, hreferences, hdata,
      List.length_singleton]
    decide
  refine ⟨s₂, hs, hlong, fun parsed h => ?_⟩
  rw [ParsedSegment.parse, if_pos hlong] at h
  cases h

end BuilderOperation

end Froe
