import Froe.Content.MapTrie
import Froe.Writer.Stored

/-!
# Maps under diffs

A diff replaces the value of one entry of its base.  A lookup compares the name
of each diff on its way down; an enumeration remembers the diffs by the records
of their keys and applies them to the entries of the trie.  Both read the same
map (`lookup_agrees_with_enumeration`), as long as the way down is not longer
than a walk may be.
-/

namespace Froe

open Except (ok_bind_eq)

/-- A diff record, its overlay and its base. -/
structure DiffIn (provider : SegmentProvider) (view : SegmentView) (diff : RecordIdentifier)
    (overlay : CollectedEntry) (base : RecordIdentifier) : Prop where
  head : view.readU32 diff.recordNumber 0 = .ok diffHead
  hash : view.readU32 diff.recordNumber 4 = .ok (mapEntryHash overlay.name)
  key : view.readRecordIdentifier diff.recordNumber 8 0 = .ok overlay.keyIdentifier
  value : view.readRecordIdentifier diff.recordNumber 8 1 = .ok overlay.value
  base : view.readRecordIdentifier diff.recordNumber 8 2 = .ok base
  name : readString provider overlay.keyIdentifier = .ok overlay.name

/-- A chain of diffs, the newest first, over the root of a trie. -/
def DiffsOver (provider : SegmentProvider) (root : RecordIdentifier) :
    List CollectedEntry → RecordIdentifier → Prop
  | [], record => record = root
  | overlay :: overlays, record =>
    ∃ view base, provider record.segment = .ok view ∧ DiffIn provider view record overlay base ∧
      DiffsOver provider root overlays base

/-- A well-formed map: a trie, and diffs that each replace the value of an entry. -/
structure MapAt (provider : SegmentProvider) (record root : RecordIdentifier)
    (diffs entries : List CollectedEntry) (depth : Nat) : Prop where
  chain : DiffsOver provider root diffs record
  trie : ∃ nodes, TrieAt provider depth 0 root entries nodes ∧ nodes.Nodup
  depth : depth ≤ maximumLevel
  size : entries.length ≤ maximumMapSize
  replaces : ∀ diff ∈ diffs, ∃ entry ∈ entries, entry.keyIdentifier = diff.keyIdentifier

/-- The value of a name where diffs go first. -/
def overlaidValue (diffs entries : List CollectedEntry) (name : String) :
    Option RecordIdentifier :=
  (valueOf diffs name).or (valueOf entries name)

variable {provider : SegmentProvider} {record root : RecordIdentifier}
  {diffs entries : List CollectedEntry} {depth : Nat}

/-! ## Lookup -/

theorem diffHasName_eq {view : SegmentView} {overlay : CollectedEntry} {base : RecordIdentifier}
    (h : DiffIn provider view record overlay base) (name : String) :
    diffHasName provider view record (mapEntryHash name) name = .ok (overlay.name == name) := by
  rw [diffHasName, h.hash, ok_bind_eq]
  by_cases hhash : mapEntryHash overlay.name = mapEntryHash name
  · rw [if_pos hhash, h.key, ok_bind_eq, h.name, ok_bind_eq]
    rfl
  · have hne : overlay.name ≠ name := fun heq => hhash (congrArg mapEntryHash heq)
    rw [if_neg hhash, beq_false_of_ne hne]
    rfl

variable {rounds : Nat} {diff : CollectedEntry}

theorem DiffsOver.mapEntryWalk (h : DiffsOver provider root diffs record)
    (start : RecordIdentifier) (name : String) {found : Option RecordIdentifier}
    (hroot : mapEntryWalk provider start name rounds root = .ok found) :
    mapEntryWalk provider start name (diffs.length + rounds) record =
      .ok ((valueOf diffs name).or found) := by
  induction diffs generalizing record with
  | nil =>
    obtain rfl : record = root := h
    rw [List.length_nil, Nat.zero_add, hroot]
    rfl
  | cons overlay overlays ih =>
    obtain ⟨view, base, hview, hdiff, hrest⟩ := h
    rw [List.length_cons, Nat.add_right_comm, Froe.mapEntryWalk]
    dsimp only
    rw [hview, ok_bind_eq, hdiff.head, ok_bind_eq, if_pos rfl,
      diffHasName_eq hdiff, ok_bind_eq, valueOf, List.find?_cons]
    cases heq : overlay.name == name with
    | true =>
      rw [if_pos rfl, hdiff.value, ok_bind_eq]
      rfl
    | false =>
      rw [if_neg Bool.false_ne_true, hdiff.base, ok_bind_eq]
      exact ih hrest

variable (h : MapAt provider record root diffs entries depth)

include h in
/-- A lookup finds the newest diff of a name, else the entry of the trie. -/
theorem MapAt.mapEntry (hwalk : diffs.length + depth < maximumWalkLength) (name : String) :
    mapEntry provider record name = .ok (overlaidValue diffs entries name) := by
  obtain ⟨nodes, htrie, -⟩ := h.trie
  have hroot : mapEntryWalk provider record name (maximumWalkLength - diffs.length) root =
      .ok (valueOf entries name) := htrie.mapEntryWalk h.size (by omega) record name
  have := h.chain.mapEntryWalk record name hroot
  rwa [Nat.add_sub_cancel' (by omega)] at this

/-! ## Enumeration -/

/-- Remembers the first value of every key. -/
def rememberOverlays (overlays : List (RecordIdentifier × RecordIdentifier)) :
    List CollectedEntry → List (RecordIdentifier × RecordIdentifier)
  | [] => overlays
  | diff :: diffs =>
    if diff.keyIdentifier ∈ overlays.map Prod.fst then rememberOverlays overlays diffs
    else rememberOverlays (overlays ++ [(diff.keyIdentifier, diff.value)]) diffs

theorem DiffsOver.readDiffChain (h : DiffsOver provider root diffs record)
    (start : RecordIdentifier)
    (hroot : ∀ overlays, readDiffChain provider start rounds overlays root = .ok (overlays, root))
    (overlays : List (RecordIdentifier × RecordIdentifier)) :
    readDiffChain provider start (diffs.length + rounds) overlays record =
      .ok (rememberOverlays overlays diffs, root) := by
  induction diffs generalizing record overlays with
  | nil =>
    obtain rfl : record = root := h
    rw [List.length_nil, Nat.zero_add]
    exact hroot overlays
  | cons overlay rest ih =>
    obtain ⟨view, base, hview, hdiff, hrest⟩ := h
    rw [List.length_cons, Nat.add_right_comm, Froe.readDiffChain, hview, ok_bind_eq,
      hdiff.head, ok_bind_eq, if_pos rfl, hdiff.key, ok_bind_eq, hdiff.value,
      ok_bind_eq, hdiff.base, ok_bind_eq, rememberOverlays]
    split
    · exact ih hrest overlays
    · exact ih hrest _

/-- An earlier overlay of a key wins. -/
theorem lookup_rememberOverlays (overlays : List (RecordIdentifier × RecordIdentifier))
    (diffs : List CollectedEntry) (key : RecordIdentifier) :
    (rememberOverlays overlays diffs).lookup key =
      (overlays.lookup key).or
        ((diffs.find? fun diff => diff.keyIdentifier == key).map CollectedEntry.value) := by
  induction diffs generalizing overlays with
  | nil => rw [rememberOverlays, List.find?_nil, Option.map_none, Option.or_none]
  | cons diff diffs ih =>
    rw [rememberOverlays, List.find?_cons]
    split
    · rename_i hmem
      rw [ih]
      cases heq : diff.keyIdentifier == key with
      | false => rfl
      | true =>
        have hkey := beq_iff_eq.mp heq
        rw [hkey] at hmem
        cases hvalue : overlays.lookup key with
        | some value => rfl
        | none =>
          obtain ⟨pair, hpair, hfirst⟩ := List.mem_map.mp hmem
          have hne := List.lookup_eq_none_iff.mp hvalue pair hpair
          rw [hfirst] at hne
          exact absurd rfl (bne_iff_ne.mp hne)
    · rename_i hnot
      rw [ih, List.lookup_append]
      cases heq : diff.keyIdentifier == key with
      | false =>
        have hne : key ≠ diff.keyIdentifier := fun h => by
          rw [h, beq_self_eq_true] at heq
          cases heq
        rw [List.lookup_cons, beq_false_of_ne hne]
        simp
      | true =>
        have hkey := beq_iff_eq.mp heq
        rw [List.lookup_cons, hkey, beq_self_eq_true]
        have hnone : overlays.lookup key = none := by
          rw [List.lookup_eq_none_iff]
          intro pair hpair
          rw [bne_iff_ne]
          rintro rfl
          exact hnot (hkey ▸ List.mem_map_of_mem hpair)
        rw [hnone]
        rfl

theorem find?_congr_of_mem {α : Type} {p q : α → Bool} {l : List α} (h : ∀ a ∈ l, p a = q a) :
    l.find? p = l.find? q := by
  induction l with
  | nil => rfl
  | cons a l ih =>
    rw [List.find?_cons, List.find?_cons, h a (List.mem_cons_self ..),
      ih fun b hb => h b (List.mem_cons_of_mem _ hb)]

include h in
theorem MapAt.find?_key
    (hnames : ∀ diff ∈ diffs, readString provider diff.keyIdentifier = .ok diff.name)
    {entry : CollectedEntry} (hentry : entry ∈ entries) :
    (diffs.find? fun diff => diff.keyIdentifier == entry.keyIdentifier) =
      diffs.find? fun diff => diff.name == entry.name := by
  obtain ⟨nodes, htrie, -⟩ := h.trie
  refine find?_congr_of_mem fun diff hmem => ?_
  rw [Bool.eq_iff_iff, beq_iff_eq, beq_iff_eq]
  constructor
  · intro hkey
    have hname := hnames diff hmem
    rw [hkey, htrie.names entry hentry] at hname
    exact (Except.ok.inj hname).symm
  · intro hname
    obtain ⟨replaced, hreplaced, hkey⟩ := h.replaces diff hmem
    have hsame : replaced.name = entry.name := by
      have hdiff := hnames diff hmem
      rw [← hkey, htrie.names replaced hreplaced] at hdiff
      exact (Except.ok.inj hdiff).trans hname
    rw [← hkey, List.inj_on_of_nodup_map htrie.distinct hreplaced hentry hsame]

theorem DiffsOver.names (h : DiffsOver provider root diffs record) :
    ∀ diff ∈ diffs, readString provider diff.keyIdentifier = .ok diff.name := by
  induction diffs generalizing record with
  | nil => nofun
  | cons overlay rest ih =>
    obtain ⟨view, base, -, hdiff, hrest⟩ := h
    intro diff hmem
    rcases List.mem_cons.mp hmem with rfl | hmem
    · exact hdiff.name
    · exact ih hrest diff hmem

section

variable (h : MapAt provider record root diffs entries depth)
  (hwalk : diffs.length < maximumWalkLength)
include h hwalk

/-- The chain of a well-formed map ends at its trie. -/
theorem MapAt.readDiffChain :
    readDiffChain provider record maximumWalkLength [] record =
      .ok (rememberOverlays [] diffs, root) := by
  obtain ⟨nodes, htrie, -⟩ := h.trie
  have hroot : ∀ overlays, Froe.readDiffChain provider record (maximumWalkLength - diffs.length)
      overlays root = .ok (overlays, root) := by
    intro overlays
    have := htrie.shape.readDiffChain h.size record (maximumWalkLength - diffs.length - 1) overlays
    rwa [Nat.sub_add_cancel (by omega)] at this
  have hchain := h.chain.readDiffChain record hroot []
  rwa [Nat.add_sub_cancel' hwalk.le] at hchain

/-- An enumeration lists the entries of the trie with the values of the diffs. -/
theorem MapAt.mapEntries :
    mapEntries provider record = .ok (entries.map fun entry =>
      ⟨entry.name, (valueOf diffs entry.name).getD entry.value⟩) := by
  obtain ⟨nodes, htrie, hnodup⟩ := h.trie
  rw [Froe.mapEntries, h.readDiffChain hwalk, ok_bind_eq]
  dsimp only
  rw [htrie.collect h.depth h.size hnodup, ok_bind_eq]
  refine congrArg Except.ok (List.map_congr_left fun entry hmem => ?_)
  rw [CollectedEntry.overlaid, lookup_rememberOverlays, List.lookup_nil, Option.none_or,
    h.find?_key h.chain.names hmem]
  rfl

end

/-! ## Agreement -/

theorem valueOf_eq_none_iff {name : String} :
    valueOf entries name = none ↔ ∀ entry ∈ entries, entry.name ≠ name := by
  rw [valueOf, Option.map_eq_none_iff, List.find?_eq_none]
  simp

include h in
/-- A diff is of a name that the trie has. -/
theorem MapAt.exists_of_diff (hmem : diff ∈ diffs) :
    ∃ entry ∈ entries, entry.name = diff.name := by
  obtain ⟨nodes, htrie, -⟩ := h.trie
  obtain ⟨entry, hentry, hkey⟩ := h.replaces diff hmem
  have hname := h.chain.names diff hmem
  rw [← hkey, htrie.names entry hentry] at hname
  exact ⟨entry, hentry, Except.ok.inj hname⟩

include h in
/-- The listed entry of a name has its value under the diffs. -/
theorem MapAt.find?_listed (name : String) :
    ((entries.map fun entry =>
      (⟨entry.name, (valueOf diffs entry.name).getD entry.value⟩ : MapEntry)).find?
        fun entry => entry.name == name).map MapEntry.value = overlaidValue diffs entries name := by
  have htest : (fun entry : MapEntry => entry.name == name) ∘ (fun entry : CollectedEntry =>
      (⟨entry.name, (valueOf diffs entry.name).getD entry.value⟩ : MapEntry)) =
      fun entry : CollectedEntry => entry.name == name := rfl
  rw [List.find?_map, htest, overlaidValue, Option.map_map]
  cases hentry : entries.find? fun entry => entry.name == name with
  | some entry =>
    have hname : entry.name = name := by
      have hfound := List.find?_some hentry
      exact beq_iff_eq.mp hfound
    have hvalue : valueOf entries name = some entry.value := by
      rw [valueOf, hentry]
      rfl
    rw [hvalue, ← hname, Option.map_some]
    cases hdiff : valueOf diffs entry.name with
    | some overlay =>
      rw [Function.comp_apply, hdiff]
      rfl
    | none =>
      rw [Function.comp_apply, hdiff]
      rfl
  | none =>
    have hvalue : valueOf entries name = none := by
      rw [valueOf, hentry]
      rfl
    have hdiff : valueOf diffs name = none := by
      rw [valueOf_eq_none_iff]
      rintro diff hmem rfl
      obtain ⟨entry, hmem', hname⟩ := h.exists_of_diff hmem
      exact valueOf_eq_none_iff.mp hvalue entry hmem' hname
    rw [hvalue, hdiff]
    rfl

/-- On a well-formed map a lookup returns exactly what an enumeration lists, no name is listed
twice, and the newest diff of a name decides its value. -/
theorem lookup_agrees_with_enumeration (h : MapAt provider record root diffs entries depth)
    (hwalk : diffs.length + depth < maximumWalkLength) :
    ∃ listed, mapEntries provider record = .ok listed ∧
      (listed.map MapEntry.name).Nodup ∧
      (∀ name value, mapEntry provider record name = .ok (some value) ↔ ⟨name, value⟩ ∈ listed) ∧
      (∀ name, mapEntry provider record name = .ok none ↔ name ∉ listed.map MapEntry.name) ∧
      (∀ name value, valueOf diffs name = some value →
        mapEntry provider record name = .ok (some value)) ∧
      ∀ name, valueOf diffs name = none →
        mapEntry provider record name = mapEntry provider root name := by
  obtain ⟨nodes, htrie, hnodup⟩ := h.trie
  have hlookup := h.mapEntry hwalk
  refine ⟨_, h.mapEntries (by omega), ?_, fun name value => ?_, fun name => ?_,
    fun name value hvalue => ?_, fun name hnone => ?_⟩
  · rw [List.map_map]
    exact htrie.distinct
  · rw [hlookup, overlaidValue, List.mem_map]
    constructor
    · intro hfound
      have hfound : (valueOf diffs name).or (valueOf entries name) = some value :=
        Except.ok.inj hfound
      cases hdiff : valueOf diffs name with
      | some overlay =>
        rw [hdiff, Option.some_or] at hfound
        obtain rfl := Option.some.inj hfound
        obtain ⟨diff, hfind, -⟩ := Option.map_eq_some_iff.mp hdiff
        obtain ⟨entry, hentry, hname⟩ := h.exists_of_diff (List.mem_of_find?_eq_some hfind)
        have hsame : diff.name = name := by
          have := List.find?_some hfind
          exact beq_iff_eq.mp this
        refine ⟨entry, hentry, ?_⟩
        rw [hname, hsame, hdiff]
        rfl
      | none =>
        rw [hdiff, Option.none_or] at hfound
        obtain ⟨entry, hentry, rfl, rfl⟩ := (valueOf_eq_some_iff htrie.distinct).mp hfound
        refine ⟨entry, hentry, ?_⟩
        rw [hdiff]
        rfl
    · rintro ⟨entry, hentry, heq⟩
      obtain ⟨rfl, rfl⟩ := MapEntry.mk.inj heq
      have hvalue : valueOf entries entry.name = some entry.value :=
        (valueOf_eq_some_iff htrie.distinct).mpr ⟨entry, hentry, rfl, rfl⟩
      rw [hvalue]
      cases valueOf diffs entry.name with
      | some overlay => rfl
      | none => rfl
  · rw [hlookup, overlaidValue, List.map_map]
    have hcomp : (MapEntry.name ∘ fun entry : CollectedEntry =>
        (⟨entry.name, (valueOf diffs entry.name).getD entry.value⟩ : MapEntry)) =
        CollectedEntry.name := rfl
    rw [hcomp]
    constructor
    · intro hfound hmem
      obtain ⟨entry, hentry, rfl⟩ := List.mem_map.mp hmem
      have hor := Option.or_eq_none_iff.mp (Except.ok.inj hfound)
      exact valueOf_eq_none_iff.mp hor.2 entry hentry rfl
    · intro hnot
      have hdiffs : valueOf diffs name = none := by
        rw [valueOf_eq_none_iff]
        rintro diff hmem rfl
        obtain ⟨entry, hentry, hname⟩ := h.exists_of_diff hmem
        exact hnot (hname ▸ List.mem_map_of_mem hentry)
      have hentries : valueOf entries name = none := by
        rw [valueOf_eq_none_iff]
        rintro entry hmem rfl
        exact hnot (List.mem_map_of_mem hmem)
      rw [hdiffs, hentries]
      rfl
  · rw [hlookup, overlaidValue, hvalue]
    rfl
  · have hroot : MapAt provider root root [] entries depth :=
      ⟨rfl, ⟨nodes, htrie, hnodup⟩, h.depth, h.size, nofun⟩
    have hzero : ([] : List CollectedEntry).length + depth < maximumWalkLength := by
      have := List.length_nil (α := CollectedEntry)
      omega
    rw [hlookup, hroot.mapEntry hzero, overlaidValue, overlaidValue, hnone]
    rfl

/-! ## Long chains -/

/-- A chain that is too long for a walk is not enumerated. -/
theorem DiffsOver.readDiffChain_short (h : DiffsOver provider root diffs record)
    (start : RecordIdentifier) (hrounds : rounds ≤ diffs.length)
    (overlays : List (RecordIdentifier × RecordIdentifier)) :
    Froe.readDiffChain provider start rounds overlays record = .error (walkTooLong start) := by
  induction rounds generalizing diffs record overlays with
  | zero => rfl
  | succ rounds ih =>
    cases diffs with
    | nil => exact absurd hrounds (Nat.not_succ_le_zero _)
    | cons overlay rest =>
      obtain ⟨view, base, hview, hdiff, hrest⟩ := h
      rw [Froe.readDiffChain, hview, ok_bind_eq, hdiff.head, ok_bind_eq, if_pos rfl,
        hdiff.key, ok_bind_eq, hdiff.value, ok_bind_eq, hdiff.base,
        ok_bind_eq]
      split
      · exact ih hrest (Nat.le_of_succ_le_succ hrounds) overlays
      · exact ih hrest (Nat.le_of_succ_le_succ hrounds) _

/-! A segment with a map of one entry under a chain of diffs. -/

/-- The segment of a chain of diffs. -/
def chainSegment : SegmentIdentifier := ⟨0, 0xA000000000000000⟩

/-- A record of that segment. -/
def chainRecord (number : Nat) : RecordIdentifier := ⟨chainSegment, UInt32.ofNat number⟩

/-- The entry that a diff replaces. -/
def chainEntry (value : Nat) : CollectedEntry := ⟨"a", chainRecord 0, chainRecord value⟩

/-- The key record. -/
def chainKey : List Field := [.raw [UInt8.ofNat 1], .raw "a".utf8]

/-- The leaf at the end of the chain. -/
def chainLeaf : List Field :=
  [.raw (Bytes.be32 (mapHead 0 1)), .raw (Bytes.be32 (mapEntryHash "a")),
    .identifier (chainRecord 0), .identifier (chainRecord 0)]

/-- The diff with the number `number + 2`, over the record before it. -/
def chainDiff (number : Nat) : List Field :=
  [.raw (Bytes.be32 diffHead), .raw (Bytes.be32 (mapEntryHash "a")), .identifier (chainRecord 0),
    .identifier (chainRecord (number + 1)), .identifier (chainRecord (number + 1))]

/-- A segment with a chain of this many diffs. -/
structure Chain (number : Nat) (b : SegmentBufferBuilder) : Prop where
  bounded : b.Bounded
  identifier : b.identifier = chainSegment
  references : b.referencedSegments = []
  length : b.records.length = number + 2
  data : dataLength b.records ≤ 64 + 28 * number
  key : b.Holds 0 .value chainKey
  leaf : b.Holds 1 .mapLeaf chainLeaf
  diffs : ∀ i < number, b.Holds (i + 2) .mapBranch (chainDiff i)

/-- Adds a record that refers to its own segment only. -/
theorem exists_filled {b : SegmentBufferBuilder} {recordType : RecordType} {fields : List Field}
    (hb : b.Bounded) (hreferences : b.referencedSegments = [])
    (hroom : 32 + (b.records.length + 1) * 9 + (dataLength b.records + (fieldsLength fields + 3)) ≤
      2 ^ 18) (hpos : 0 < fieldsLength fields)
    (hown : ∀ record, .identifier record ∈ fields → record.segment = b.identifier) :
    ∃ b', b.Filled b' recordType [] fields ∧ b'.referencedSegments = [] ∧
      dataLength b'.records = dataLength b.records + alignedSize (fieldsLength fields) := by
  have halloc := @SegmentBufferBuilder.allocate_of_room b recordType (fieldsLength fields) []
    (by rw [hreferences]; exact Nat.zero_le _) (by
      rw [hreferences]
      simp only [List.length_nil]
      omega)
  obtain ⟨-, hfilled⟩ := SegmentBufferBuilder.allocate_fill hb halloc rfl hpos
    fun record hmem => .inl (hown record hmem)
  refine ⟨_, hfilled, ?_, ?_⟩
  · refine List.eq_nil_iff_forall_not_mem.mpr fun segment hmem => ?_
    rcases hfilled.references segment hmem with hold | ⟨-, hnew⟩
    · rw [hreferences] at hold
      cases hold
    · cases hnew
  · obtain ⟨added, hadded⟩ := hfilled.grows.records
    have hlength := hfilled.length
    rw [← hadded, List.length_append] at hlength
    obtain ⟨last, rfl⟩ := List.length_eq_one_iff.mp (show added.length = 1 by omega)
    have hrecord := hfilled.holds.record
    rw [← hadded, List.getElem?_append_right le_rfl, Nat.sub_self] at hrecord
    have hlast := Option.some.inj hrecord
    rw [← hadded, dataLength_append, hlast]
    simp only [dataLength, List.map_singleton, List.sum_singleton,
      SegmentBufferBuilder.length_flatMap_fieldBytes]

theorem exists_chain (number : Nat) (hnumber : number ≤ 1024) : ∃ b, Chain number b := by
  induction number with
  | zero =>
    obtain ⟨b₁, hkey, href₁, hdata₁⟩ := @exists_filled (.new chainSegment .null) .value chainKey
      (SegmentBufferBuilder.bounded_new _ _) rfl (by decide) (by decide)
      (fun record hmem => by simp [chainKey] at hmem)
    have hlength₁ : b₁.records.length = 1 := hkey.length
    have hown₁ : b₁.identifier = chainSegment := hkey.grows.identifier
    have hd₁ : dataLength b₁.records = 4 := hdata₁
    have hleafLength : fieldsLength chainLeaf = 20 := by decide
    obtain ⟨b₂, hleaf, href₂, hdata₂⟩ := @exists_filled b₁ .mapLeaf chainLeaf hkey.bounded href₁
      (by rw [hleafLength, hlength₁, hd₁]; decide) (by decide) (by
        intro record hmem
        rw [hown₁]
        have : ∀ record, .identifier record ∈ chainLeaf → record.segment = chainSegment := by
          intro record hmem
          simp only [chainLeaf, List.mem_cons, reduceCtorEq, Field.identifier.injEq,
            List.not_mem_nil, or_false, false_or] at hmem
          rcases hmem with rfl | rfl <;> rfl
        exact this record hmem)
    have hindex : b₁.records.length = 1 := hlength₁
    have hholds := hleaf.holds
    rw [hindex] at hholds
    refine ⟨b₂, hleaf.bounded, hleaf.grows.identifier.trans hown₁, href₂, ?_, ?_,
      hkey.holds.of_grows hleaf.grows, hholds, nofun⟩
    · rw [hleaf.length, hlength₁]
    · rw [hdata₂, hd₁, hleafLength]
      decide
  | succ number ih =>
    obtain ⟨b, h⟩ := ih (by omega)
    have hlength : fieldsLength (chainDiff number) = 26 := by
      simp [chainDiff, fieldsLength, Field.length]
    have hdata := h.data
    obtain ⟨b', hdiff, href, hdata'⟩ := @exists_filled b .mapBranch (chainDiff number) h.bounded
      h.references (by rw [hlength, h.length]; omega) (by rw [hlength]; decide) (by
        intro record hmem
        rw [h.identifier]
        simp only [chainDiff, List.mem_cons, reduceCtorEq, Field.identifier.injEq,
          List.not_mem_nil, or_false, false_or] at hmem
        rcases hmem with rfl | rfl | rfl <;> rfl)
    have hholds := hdiff.holds
    rw [h.length] at hholds
    refine ⟨b', hdiff.bounded, hdiff.grows.identifier.trans h.identifier, href, ?_, ?_,
      h.key.of_grows hdiff.grows, h.leaf.of_grows hdiff.grows, fun i hi => ?_⟩
    · rw [hdiff.length, h.length]
    · rw [hdata', hlength]
      unfold alignedSize
      omega
    · rcases Nat.lt_or_ge i number with hlt | hge
      · exact (h.diffs i hlt).of_grows hdiff.grows
      · obtain rfl : i = number := by omega
        exact hholds

/-- The diffs of a chain, the newest first. -/
def chainDiffs : Nat → List CollectedEntry
  | 0 => []
  | number + 1 => chainEntry (number + 1) :: chainDiffs number

theorem length_chainDiffs (number : Nat) : (chainDiffs number).length = number := by
  induction number with
  | zero => rfl
  | succ number ih => rw [chainDiffs, List.length_cons, ih]

theorem mem_chainDiffs {number : Nat} (h : diff ∈ chainDiffs number) :
    diff.keyIdentifier = chainRecord 0 := by
  induction number with
  | zero => cases h
  | succ number ih =>
    rcases List.mem_cons.mp h with rfl | h
    · rfl
    · exact ih h

/-- The map of a chain in one segment. -/
theorem mapAt_of_holds {number : Nat} {view : SegmentView}
    (hkey : view.Holds (chainRecord 0).recordNumber 0 chainKey)
    (hleaf : view.Holds (chainRecord 1).recordNumber 0 chainLeaf)
    (hdiffs : ∀ i < number, view.Holds (chainRecord (i + 2)).recordNumber 0 (chainDiff i)) :
    MapAt (fun _ => .ok view) (chainRecord (number + 1)) (chainRecord 1) (chainDiffs number)
      [chainEntry 0] 0 := by
  have hname : readString (fun _ => .ok view) (chainRecord 0) = .ok "a" := by
    have hvalue : ValueAt (fun _ => .ok view) (chainRecord 0) "a".utf8 :=
      .small (by decide) ⟨view, rfl, hkey⟩
    rw [hvalue.readString (by decide), Utf8.decodeLossy_utf8]
  refine ⟨?_, ⟨[chainRecord 1], ⟨view, rfl, by decide, ?_, rfl⟩, by simp⟩,
    by decide, by decide, fun diff hmem => ⟨_, List.mem_singleton_self _,
      (mem_chainDiffs hmem).symm⟩⟩
  · clear hleaf
    induction number with
    | zero => rfl
    | succ number ih =>
      have hdiff := hdiffs number (Nat.lt_succ_self _)
      have hkeyField := hdiff.2.2.1
      have hvalue := hdiff.2.2.2.1
      have hbase := hdiff.2.2.2.2.1
      simp only [Bytes.length_be32, Nat.zero_add, Nat.reduceAdd] at hkeyField hvalue hbase
      refine ⟨view, chainRecord (number + 1), rfl,
        ⟨hdiff.readU32, ?_, hkeyField, ?_, ?_, hname⟩, ih fun i hi => hdiffs i (by omega)⟩
      · have := hdiff.2.readU32
        rwa [Bytes.length_be32, Nat.zero_add] at this
      · rw [SegmentView.readRecordIdentifier_index]
        exact hvalue
      · rw [SegmentView.readRecordIdentifier_index]
        exact hbase
  · have hkeyField := hleaf.2.2.1
    have hvalue := hleaf.2.2.2.1
    have hhash := hleaf.2.readU32
    simp only [Bytes.length_be32, Nat.zero_add, Nat.reduceAdd] at hkeyField hvalue hhash
    refine ⟨hleaf.readU32, ?_, ?_, ?_, ?_, List.pairwise_singleton .., by simp, .inl (by decide)⟩
    · intro i hi
      obtain rfl : i = 0 := by simpa using hi
      exact hhash
    · intro i hi
      obtain rfl : i = 0 := by simpa using hi
      exact hkeyField
    · intro i hi
      obtain rfl : i = 0 := by simpa using hi
      rw [SegmentView.readRecordIdentifier_index]
      exact hvalue
    · intro entry hmem
      rw [List.mem_singleton.mp hmem]
      exact hname

/-- A map with any number of diffs that fits a segment. -/
theorem exists_mapAt (number : Nat) (hnumber : number ≤ 1024) :
    ∃ provider, MapAt provider (chainRecord (number + 1)) (chainRecord 1) (chainDiffs number)
      [chainEntry 0] 0 := by
  obtain ⟨b, h⟩ := exists_chain number hnumber
  obtain ⟨parsed, -, hparsed⟩ := SegmentBufferBuilder.parse_finish h.bounded
    (by rw [h.identifier]; decide)
  exact ⟨_, mapAt_of_holds (h.key.finish h.bounded hparsed) (h.leaf.finish h.bounded hparsed)
    fun i hi => (h.diffs i hi).finish h.bounded hparsed⟩

/-- A map under one diff. -/
theorem lookup_agrees_under_one_diff :
    ∃ provider listed, mapEntries provider (chainRecord 2) = .ok listed ∧
      ∀ name value, mapEntry provider (chainRecord 2) name = .ok (some value) ↔
        ⟨name, value⟩ ∈ listed := by
  obtain ⟨provider, hmap⟩ := exists_mapAt 1 (by decide)
  obtain ⟨listed, hlisted, -, hagree, -⟩ := lookup_agrees_with_enumeration hmap (by decide)
  exact ⟨provider, listed, hlisted, hagree⟩

/-- Under 1024 diffs a lookup stops at the newest one, and an enumeration is refused. -/
theorem mapEntry_under_long_chain {provider : SegmentProvider} {entries : List CollectedEntry}
    {depth : Nat}
    (h : MapAt provider (chainRecord 1025) (chainRecord 1) (chainDiffs 1024) entries depth) :
    mapEntry provider (chainRecord 1025) "a" = .ok (some (chainRecord 1024)) ∧
      ∀ listed, mapEntries provider (chainRecord 1025) ≠ .ok listed := by
  refine ⟨?_, fun listed hlisted => ?_⟩
  · obtain ⟨view, base, hview, hdiff, -⟩ := h.chain
    rw [mapEntry, show maximumWalkLength = 1023 + 1 from rfl, mapEntryWalk]
    dsimp only
    rw [hview, Except.ok_bind_eq, hdiff.head, Except.ok_bind_eq, if_pos rfl, diffHasName_eq hdiff,
      Except.ok_bind_eq, if_pos (by rfl), hdiff.value]
    rfl
  · have hrounds : maximumWalkLength ≤ (chainDiffs 1024).length := by
      rw [length_chainDiffs]
      decide
    have hshort := h.chain.readDiffChain_short (chainRecord 1025) hrounds []
    rw [mapEntries, hshort] at hlisted
    cases hlisted

/-- Under a chain of 1024 diffs a lookup still finds the newest one, but the map is not
enumerated any more. -/
theorem long_chain_not_enumerated :
    ∃ provider diffs entries depth,
      MapAt provider (chainRecord 1025) (chainRecord 1) diffs entries depth ∧
        mapEntry provider (chainRecord 1025) "a" = .ok (some (chainRecord 1024)) ∧
        ∀ listed, mapEntries provider (chainRecord 1025) ≠ .ok listed := by
  obtain ⟨provider, hmap⟩ := exists_mapAt 1024 le_rfl
  exact ⟨provider, _, _, 0, hmap, mapEntry_under_long_chain hmap⟩

end Froe
