import Froe.Content.ReaderLoops
import Mathlib.Data.Set.Card

/-!
# The readers of maps as loops

A lookup follows at most a fixed number of records.  An enumeration follows a bounded chain
of diffs and then walks the trie with its own stack.  Nothing bounds the stack or the depth:
the walk ends because it refuses a record that it meets twice, so that it visits no more
records of the trie than can be read at all.
-/

namespace Froe

open Except (ok_bind_eq)

open Loops
open Froe (collectMapEntries leafSearch readDiffChain)

/-- The binary search of a leaf for the first entry whose hash is not below the wanted one. -/
def SegmentView.leafSearchLoop (view : SegmentView) (leaf : RecordIdentifier) (hash : UInt32)
    (low high : Nat) : Program Error Nat := do
  if low < high then
    let middle := (low + high) / 2
    let middleHash ← liftExcept (view.readU32 leaf.recordNumber (4 + middle * 4))
    if middleHash < hash then view |>.leafSearchLoop leaf hash (middle + 1) high
    else view |>.leafSearchLoop leaf hash low middle
  else return low
partial_fixpoint

/-- Reads the entries of one hash, as long as no name is the wanted one. -/
def SegmentProvider.leafScanLoop (provider : SegmentProvider) (view : SegmentView)
    (leaf : RecordIdentifier) (size : Nat) (hash : UInt32) (name : String) (position : Nat) :
    Program Error (Option RecordIdentifier) := do
  if position < size then
    let positionHash ← liftExcept (view.readU32 leaf.recordNumber (4 + position * 4))
    if positionHash ≠ hash then return none
    else
      let keyIdentifier ← liftExcept
        (view.readRecordIdentifier leaf.recordNumber (4 + size * 4) (position * 2))
      if (← Looped.readString provider keyIdentifier) = name then
        let value ← liftExcept
          (view.readRecordIdentifier leaf.recordNumber (4 + size * 4) (position * 2 + 1))
        return some value
      else provider |>.leafScanLoop view leaf size hash name (position + 1)
  else return none
partial_fixpoint

namespace Looped

/-! ## Lookups -/

/-- Looks a name up in a leaf. -/
def leafEntry (provider : SegmentProvider) (view : SegmentView) (leaf : RecordIdentifier)
    (size : Nat) (hash : UInt32) (name : String) : Program Error (Option RecordIdentifier) := do
  let low ← view.leafSearchLoop leaf hash 0 size
  provider.leafScanLoop view leaf size hash name low

/-- Whether a diff replaces the value of a name. -/
def diffHasName (provider : SegmentProvider) (view : SegmentView) (diff : RecordIdentifier)
    (hash : UInt32) (name : String) : Program Error Bool := do
  let storedHash ← liftExcept (view.readU32 diff.recordNumber 4)
  if storedHash = hash then
    let keyIdentifier ← liftExcept (view.readRecordIdentifier diff.recordNumber 8 0)
    let key ← readString provider keyIdentifier
    return key == name
  else return false

/-- Walks from record to record until a leaf or a diff has the name. -/
def mapEntryWalk (provider : SegmentProvider) (mapIdentifier : RecordIdentifier) (name : String) :
    Nat → RecordIdentifier → Program Error (Option RecordIdentifier)
  | 0, _ => throw (walkTooLong mapIdentifier)
  | rounds + 1, current => do
    let hash := mapEntryHash name
    let view ← liftExcept (provider current.segment)
    let head ← liftExcept (view.readU32 current.recordNumber 0)
    if head = diffHead then
      if ← diffHasName provider view current hash name then
        let value ← liftExcept (view.readRecordIdentifier current.recordNumber 8 1)
        return some value
      else
        let base ← liftExcept (view.readRecordIdentifier current.recordNumber 8 2)
        mapEntryWalk provider mapIdentifier name rounds base
    else
      let size := (head &&& sizeMask).toNat
      let level := (head >>> levelShift).toNat
      if size = 0 then return none
      else if size > bucketsPerLevel ∧ level < maximumLevel then
        let bitmap ← liftExcept (view.readU32 current.recordNumber 4)
        let bit : UInt32 := 1 <<< UInt32.ofNat (bucketIndex level hash)
        if bitmap &&& bit = 0 then return none
        else
          let bucketPosition := countOnes (bitmap &&& (bit - 1))
          let bucket ← liftExcept (view.readRecordIdentifier current.recordNumber 8 bucketPosition)
          mapEntryWalk provider mapIdentifier name rounds bucket
      else leafEntry provider view current size hash name

/-- Looks a name up in a map. -/
def mapEntry (provider : SegmentProvider) (mapIdentifier : RecordIdentifier) (name : String) :
    Program Error (Option RecordIdentifier) :=
  mapEntryWalk provider mapIdentifier name maximumWalkLength mapIdentifier

section

variable {provider : SegmentProvider} {view : SegmentView} {leaf : RecordIdentifier}
  {hash : UInt32} {name : String}

/-- Every round shortens the range. -/
theorem ends_leafSearch {rounds low high : Nat} (h : high ≤ low + rounds) :
    Ends (view.leafSearchLoop leaf hash low high) (leafSearch view leaf hash rounds low high) := by
  induction rounds generalizing low high with
  | zero =>
    rw [SegmentView.leafSearchLoop, leafSearch, if_neg (by omega)]
    exact ends_pure low
  | succ rounds ih =>
    rw [SegmentView.leafSearchLoop, leafSearch]
    split
    · refine Ends.andThen (ends_liftExcept _) fun middleHash _ => ?_
      split
      · exact ih (by omega)
      · exact ih (by omega)
    · exact ends_pure low

/-- The scan of a leaf ends as the bounded one. -/
theorem ends_leafScan {size rounds position : Nat} (h : size = position + rounds) :
    Ends (provider.leafScanLoop view leaf size hash name position)
      (Froe.leafScan provider view leaf size hash name rounds position) := by
  induction rounds generalizing position with
  | zero =>
    rw [SegmentProvider.leafScanLoop, Froe.leafScan, if_neg (by omega)]
    exact ends_pure none
  | succ rounds ih =>
    rw [SegmentProvider.leafScanLoop, Froe.leafScan, if_pos (by omega)]
    refine Ends.andThen (ends_liftExcept _) fun positionHash _ => ?_
    split
    · exact ends_pure none
    · refine Ends.andThen (ends_liftExcept _) fun keyIdentifier _ => ?_
      refine Ends.andThen (ends_readString keyIdentifier) fun key _ => ?_
      split
      · exact Ends.andThen (ends_liftExcept _) fun value _ => ends_pure _
      · exact ih (by omega)

/-- The search stays within its range. -/
theorem leafSearch_le {rounds low high found : Nat} (h : low ≤ high)
    (hfound : leafSearch view leaf hash rounds low high = .ok found) : found ≤ high := by
  induction rounds generalizing low high with
  | zero =>
    obtain rfl := Except.ok.inj hfound
    exact h
  | succ rounds ih =>
    rw [leafSearch] at hfound
    split at hfound
    · rename_i hlt
      obtain ⟨middleHash, -, hrest⟩ := Except.bind_ok_iff.mp hfound
      split at hrest
      · exact ih (by omega) hrest
      · exact (ih (by omega) hrest).trans (by omega)
    · obtain rfl := Except.ok.inj hfound
      exact h

/-- The lookup in a leaf is the bounded one. -/
theorem ends_leafEntry (size : Nat) :
    Ends (leafEntry provider view leaf size hash name)
      (Froe.leafEntry provider view leaf size hash name) := by
  refine Ends.andThen (ends_leafSearch (Nat.le_add_left ..)) fun low hlow => ?_
  have hle := leafSearch_le (Nat.zero_le _) hlow
  exact ends_leafScan (Nat.add_sub_cancel' hle).symm

theorem ends_diffHasName (diff : RecordIdentifier) :
    Ends (diffHasName provider view diff hash name)
      (Froe.diffHasName provider view diff hash name) := by
  refine Ends.andThen (ends_liftExcept _) fun storedHash _ => ?_
  split
  · refine Ends.andThen (ends_liftExcept _) fun keyIdentifier _ => ?_
    exact Ends.andThen (ends_readString keyIdentifier) fun key _ => ends_pure _
  · exact ends_pure false

theorem ends_mapEntryWalk (mapIdentifier : RecordIdentifier) (rounds : Nat)
    (current : RecordIdentifier) :
    Ends (mapEntryWalk provider mapIdentifier name rounds current)
      (Froe.mapEntryWalk provider mapIdentifier name rounds current) := by
  induction rounds generalizing current with
  | zero => rfl
  | succ rounds ih =>
    refine Ends.andThen (ends_liftExcept _) fun view _ => ?_
    refine Ends.andThen (ends_liftExcept _) fun head _ => ?_
    split
    · refine Ends.andThen (ends_diffHasName current) fun found _ => ?_
      split
      · exact Ends.andThen (ends_liftExcept _) fun value _ => ends_pure _
      · exact Ends.andThen (ends_liftExcept _) fun base _ => ih base
    · dsimp only
      split
      · exact ends_pure none
      · split
        · refine Ends.andThen (ends_liftExcept _) fun bitmap _ => ?_
          split
          · exact ends_pure none
          · exact Ends.andThen (ends_liftExcept _) fun bucket _ => ih bucket
        · exact ends_leafEntry _

/-- The lookup in a map is the bounded one. -/
theorem ends_mapEntry (mapIdentifier : RecordIdentifier) :
    Ends (mapEntry provider mapIdentifier name) (Froe.mapEntry provider mapIdentifier name) :=
  ends_mapEntryWalk mapIdentifier maximumWalkLength mapIdentifier

end

/-! ## Enumerations -/

/-- Reads one entry of a leaf. -/
def readLeafEntry (provider : SegmentProvider) (view : SegmentView)
    (mapIdentifier : RecordIdentifier) (identifiersBase position : Nat) :
    Program Error CollectedEntry := do
  let keyIdentifier ← liftExcept
    (view.readRecordIdentifier mapIdentifier.recordNumber identifiersBase (position * 2))
  let value ← liftExcept
    (view.readRecordIdentifier mapIdentifier.recordNumber identifiersBase (position * 2 + 1))
  let name ← readString provider keyIdentifier
  return ⟨name, keyIdentifier, value⟩

/-- The entries of a leaf, or the children of a branch. -/
def expandMapRecord (provider : SegmentProvider) (mapIdentifier : RecordIdentifier)
    (view : SegmentView) (head : UInt32) :
    Program Error (List CollectedEntry × List RecordIdentifier) := do
  if head = diffHead then
    let base ← liftExcept (view.readRecordIdentifier mapIdentifier.recordNumber 8 2)
    return ([], [base])
  else
    let size := (head &&& sizeMask).toNat
    let level := (head >>> levelShift).toNat
    if size = 0 then return ([], [])
    else if size > bucketsPerLevel ∧ level < maximumLevel then
      let bitmap ← liftExcept (view.readU32 mapIdentifier.recordNumber 4)
      let buckets ← (List.range (countOnes bitmap)).mapM fun bucketPosition =>
        liftExcept (view.readRecordIdentifier mapIdentifier.recordNumber 8 bucketPosition)
      return ([], buckets)
    else
      let entries ← (List.range size).mapM
        (readLeafEntry provider view mapIdentifier (4 + size * 4))
      return (entries, [])

/-- The view of a record and its head. -/
def readHead (provider : SegmentProvider) (mapIdentifier : RecordIdentifier) :
    Result (SegmentView × UInt32) := do
  let view ← provider mapIdentifier.segment
  let head ← view.readU32 mapIdentifier.recordNumber 0
  return (view, head)

end Looped

/-- Expands pending records, the next one first, and notes every record that it reads. -/
def SegmentProvider.collectMapEntriesLoop (provider : SegmentProvider)
    (pending visited : List RecordIdentifier) (entries : List CollectedEntry) :
    Noted RecordIdentifier Error (List CollectedEntry) := do
  match pending with
  | [] => return entries
  | mapIdentifier :: pending =>
    if mapIdentifier ∈ visited then throw (walkTooLong mapIdentifier)
    else
      note mapIdentifier
      let (view, head) ← liftExcept (Looped.readHead provider mapIdentifier)
      let (collected, scheduled) ← silent (Looped.expandMapRecord provider mapIdentifier view head)
      provider |>.collectMapEntriesLoop (scheduled ++ pending) (mapIdentifier :: visited)
        (entries ++ collected)
partial_fixpoint

/-- Walks down a chain of diffs to the root of the trie, with the view and the head that were
read there. -/
def SegmentProvider.readDiffChainLoop (provider : SegmentProvider)
    (mapIdentifier : RecordIdentifier) (walkLength : Nat)
    (overlays : List (RecordIdentifier × RecordIdentifier)) (current : RecordIdentifier) :
    Noted RecordIdentifier Error
      (List (RecordIdentifier × RecordIdentifier) × RecordIdentifier × SegmentView × UInt32) := do
  if walkLength ≥ maximumWalkLength then throw (walkTooLong mapIdentifier)
  else
    note current
    let (view, head) ← liftExcept (Looped.readHead provider current)
    if head = diffHead then
      let key ← liftExcept (view.readRecordIdentifier current.recordNumber 8 0)
      let value ← liftExcept (view.readRecordIdentifier current.recordNumber 8 1)
      let base ← liftExcept (view.readRecordIdentifier current.recordNumber 8 2)
      provider |>.readDiffChainLoop mapIdentifier (walkLength + 1)
        (if key ∈ overlays.map Prod.fst then overlays else overlays ++ [(key, value)]) base
    else return (overlays, current, view, head)
partial_fixpoint

namespace Looped

/-- Reads all entries of a map, with the records it notes. -/
def mapEntries (provider : SegmentProvider) (mapIdentifier : RecordIdentifier) :
    Noted RecordIdentifier Error (List MapEntry) := do
  let (overlays, root, view, head) ← provider.readDiffChainLoop mapIdentifier 0 [] mapIdentifier
  -- the root is expanded from the view that the chain has read
  let (collected, scheduled) ← silent (expandMapRecord provider root view head)
  let entries ← provider.collectMapEntriesLoop scheduled [root] collected
  return entries.map (CollectedEntry.overlaid overlays)

section

variable {provider : SegmentProvider}

theorem ends_readLeafEntry (view : SegmentView) (mapIdentifier : RecordIdentifier)
    (identifiersBase position : Nat) :
    Ends (readLeafEntry provider view mapIdentifier identifiersBase position)
      (Froe.readLeafEntry provider view mapIdentifier identifiersBase position) := by
  refine Ends.andThen (ends_liftExcept _) fun keyIdentifier _ => ?_
  refine Ends.andThen (ends_liftExcept _) fun value _ => ?_
  exact Ends.andThen (ends_readString keyIdentifier) fun name _ => ends_pure _

/-- A record expands as in the bounded reader. -/
theorem ends_expandMapRecord (mapIdentifier : RecordIdentifier) (view : SegmentView)
    (head : UInt32) :
    Ends (expandMapRecord provider mapIdentifier view head)
      (Froe.expandMapRecord provider mapIdentifier view head) := by
  rw [expandMapRecord, Froe.expandMapRecord]
  split
  · exact Ends.andThen (ends_liftExcept _) fun base _ => ends_pure _
  · dsimp only
    split
    · exact ends_pure _
    · split
      · refine Ends.andThen (ends_liftExcept _) fun bitmap _ => ?_
        exact Ends.andThen (ends_mapM fun _ _ => ends_liftExcept _) fun buckets _ => ends_pure _
      · exact Ends.andThen (ends_mapM fun _ _ => ends_readLeafEntry ..) fun entries _ =>
          ends_pure _

/-- A record whose first word can be read. -/
def Readable (provider : SegmentProvider) (mapIdentifier : RecordIdentifier) : Prop :=
  ∃ read, readHead provider mapIdentifier = .ok read

/-- How many records of the trie can be read at all. -/
noncomputable def readableCount (provider : SegmentProvider) : Nat :=
  {mapIdentifier | Readable provider mapIdentifier}.ncard

/-- Different records that can be read are no more than there are. -/
theorem length_le_readableCount {visited : List RecordIdentifier} (hnodup : visited.Nodup)
    (h : ∀ mapIdentifier ∈ visited, Readable provider mapIdentifier) :
    visited.length ≤ readableCount provider := by
  classical
  rw [← List.toFinset_card_of_nodup hnodup, ← Set.ncard_coe_finset]
  refine Set.ncard_le_ncard (fun mapIdentifier hmem => ?_) (Set.toFinite _)
  rw [Finset.mem_coe, List.mem_toFinset] at hmem
  exact h mapIdentifier hmem

theorem collectMapEntries_succ {rounds : Nat} {visited pending : List RecordIdentifier}
    {mapIdentifier : RecordIdentifier} (hnew : mapIdentifier ∉ visited) :
    collectMapEntries provider (rounds + 1) visited (mapIdentifier :: pending) =
      (do
        let (view, head) ← readHead provider mapIdentifier
        let (entries, scheduled) ← Froe.expandMapRecord provider mapIdentifier view head
        let rest ← collectMapEntries provider rounds (mapIdentifier :: visited)
          (scheduled ++ pending)
        return entries ++ rest) := by
  rw [collectMapEntries, if_neg hnew, readHead]
  simp only [bind_assoc, pure_bind]

/-- The records that the walk reads, each one in the round that expands it. -/
def collectVisits (provider : SegmentProvider) :
    Nat → List RecordIdentifier → List RecordIdentifier → List RecordIdentifier
  | 0, _, _ => []
  | _ + 1, _, [] => []
  | rounds + 1, visited, mapIdentifier :: pending =>
    if mapIdentifier ∈ visited then []
    else
      match readHead provider mapIdentifier >>= fun read =>
        Froe.expandMapRecord provider mapIdentifier read.1 read.2 with
      | .error _ => [mapIdentifier]
      | .ok (_, scheduled) =>
        mapIdentifier :: collectVisits provider rounds (mapIdentifier :: visited)
          (scheduled ++ pending)

/-- Every record that the walk reads is new, and at most the last one cannot be read. -/
theorem collectVisits_spec {rounds : Nat} {visited pending : List RecordIdentifier}
    (hnodup : visited.Nodup)
    (hreadable : ∀ mapIdentifier ∈ visited, Readable provider mapIdentifier) :
    (collectVisits provider rounds visited pending).Nodup ∧
      (∀ mapIdentifier ∈ collectVisits provider rounds visited pending,
        mapIdentifier ∉ visited) ∧
      (collectVisits provider rounds visited pending).length + visited.length ≤
        readableCount provider + 1 := by
  have hle := length_le_readableCount hnodup hreadable
  have hnone : ([] : List RecordIdentifier).length + visited.length ≤
      readableCount provider + 1 := by
    rw [List.length_nil]
    omega
  induction rounds generalizing visited pending with
  | zero => exact ⟨List.nodup_nil, nofun, hnone⟩
  | succ rounds ih =>
    cases pending with
    | nil => exact ⟨List.nodup_nil, nofun, hnone⟩
    | cons mapIdentifier pending =>
      rw [collectVisits]
      by_cases hseen : mapIdentifier ∈ visited
      · rw [if_pos hseen]
        exact ⟨List.nodup_nil, nofun, hnone⟩
      rw [if_neg hseen]
      split
      · refine ⟨List.nodup_singleton _, fun other hother => ?_, ?_⟩
        · exact List.mem_singleton.mp hother ▸ hseen
        · rw [List.length_singleton]
          omega
      · rename_i collected scheduled hexpanded
        obtain ⟨read, hread, -⟩ := Except.bind_ok_iff.mp hexpanded
        have hnodup' := List.nodup_cons.mpr ⟨hseen, hnodup⟩
        have hreadable' : ∀ other ∈ mapIdentifier :: visited, Readable provider other :=
          List.forall_mem_cons.mpr ⟨⟨read, hread⟩, hreadable⟩
        have hle' := length_le_readableCount hnodup' hreadable'
        obtain ⟨hvisits, hunseen, hlength⟩ := @ih (mapIdentifier :: visited)
          (scheduled ++ pending) hnodup' hreadable' hle' (by rw [List.length_nil]; omega)
        refine ⟨List.nodup_cons.mpr ⟨fun hmem => ?_, hvisits⟩, ?_, ?_⟩
        · exact hunseen mapIdentifier hmem List.mem_cons_self
        · refine List.forall_mem_cons.mpr ⟨hseen, fun other hother hmem => ?_⟩
          exact hunseen other hother (List.mem_cons_of_mem _ hmem)
        · rw [List.length_cons] at hlength ⊢
          omega

/-- More rounds visit no fewer records. -/
theorem length_collectVisits_mono {rounds more : Nat} (h : rounds ≤ more)
    (visited pending : List RecordIdentifier) :
    (collectVisits provider rounds visited pending).length ≤
      (collectVisits provider more visited pending).length := by
  induction rounds generalizing more visited pending with
  | zero => exact Nat.zero_le _
  | succ rounds ih =>
    obtain ⟨more, rfl⟩ : ∃ fewer, more = fewer + 1 := ⟨more - 1, by omega⟩
    cases pending with
    | nil => exact Nat.le_refl _
    | cons mapIdentifier pending =>
      rw [collectVisits, collectVisits]
      split
      · exact Nat.le_refl _
      · split
        · exact Nat.le_refl _
        · exact Nat.succ_le_succ (ih (Nat.succ_le_succ_iff.mp h) _ _)

/-- With a round for every record that can be read, the walk is the bounded walk. -/
theorem endsNoting_collectMapEntries {rounds : Nat} {visited pending : List RecordIdentifier}
    {entries : List CollectedEntry} (hnodup : visited.Nodup)
    (hreadable : ∀ mapIdentifier ∈ visited, Readable provider mapIdentifier)
    (hrounds : readableCount provider < rounds + visited.length) :
    EndsNoting (provider.collectMapEntriesLoop pending visited entries)
      ((collectMapEntries provider rounds visited pending).map (entries ++ ·))
      (collectVisits provider rounds visited pending) := by
  have hle := length_le_readableCount hnodup hreadable
  induction rounds generalizing visited pending entries with
  | zero => omega
  | succ rounds ih =>
    rw [SegmentProvider.collectMapEntriesLoop.eq_def]
    cases pending with
    | nil =>
      have hdone : (collectMapEntries provider (rounds + 1) visited []).map (entries ++ ·) =
          .ok entries := by
        rw [collectMapEntries, Except.map, List.append_nil]
      rw [hdone, collectVisits]
      exact endsNoting_pure entries
    | cons mapIdentifier pending =>
      rw [collectVisits]
      dsimp only
      by_cases hseen : mapIdentifier ∈ visited
      · rw [collectMapEntries, if_pos hseen, if_pos hseen, if_pos hseen]
        exact endsNoting_throw _
      rw [collectMapEntries_succ hseen, if_neg hseen, if_neg hseen]
      cases hread : readHead provider mapIdentifier with
      | error error => exact (endsNoting_note mapIdentifier).goOn (endsNoting_throw error).stop
      | ok read =>
        obtain ⟨view, head⟩ := read
        have hexpand := @ends_expandMapRecord provider mapIdentifier view head
        rw [ok_bind_eq, ok_bind_eq]
        dsimp only
        cases hexpanded : Froe.expandMapRecord provider mapIdentifier view head with
        | error error =>
          rw [hexpanded] at hexpand
          exact (endsNoting_note mapIdentifier).goOn
            ((endsNoting_pure (view, head)).goOn hexpand.silent.stop)
        | ok expanded =>
          obtain ⟨collected, scheduled⟩ := expanded
          rw [hexpanded] at hexpand
          have hnodup' := List.nodup_cons.mpr ⟨hseen, hnodup⟩
          have hreadable' : ∀ other ∈ mapIdentifier :: visited, Readable provider other :=
            List.forall_mem_cons.mpr ⟨⟨_, hread⟩, hreadable⟩
          have hrest := @ih (mapIdentifier :: visited) (scheduled ++ pending)
            (entries ++ collected) hnodup' hreadable' (by rw [List.length_cons]; omega)
            (length_le_readableCount hnodup' hreadable')
          have hresult : ((do
              let rest ← collectMapEntries provider rounds (mapIdentifier :: visited)
                (scheduled ++ pending)
              return collected ++ rest : Result (List CollectedEntry)).map (entries ++ ·)) =
              (collectMapEntries provider rounds (mapIdentifier :: visited)
                (scheduled ++ pending)).map (entries ++ collected ++ ·) := by
            cases collectMapEntries provider rounds (mapIdentifier :: visited)
              (scheduled ++ pending) with
            | error error => rfl
            | ok rest => exact congrArg Except.ok (List.append_assoc ..).symm
          rw [ok_bind_eq]
          dsimp only
          rw [hresult]
          exact (endsNoting_note mapIdentifier).goOn
            ((endsNoting_pure (view, head)).goOn (hexpand.silent.goOn hrest))

end

/-- A walk down a chain agrees with the bounded walk, reads at most so many records, and has
read the root that it returns. -/
def ChainEnds (provider : SegmentProvider)
    (program : Noted RecordIdentifier Error
      (List (RecordIdentifier × RecordIdentifier) × RecordIdentifier × SegmentView × UInt32))
    (bounded : Result (List (RecordIdentifier × RecordIdentifier) × RecordIdentifier))
    (rounds : Nat) : Prop :=
  ∃ result visits, EndsNoting program result visits ∧ visits.length ≤ rounds ∧
    bounded = result.map (fun found => (found.1, found.2.1)) ∧
    ∀ overlays root view head, result = .ok (overlays, root, view, head) →
      readHead provider root = .ok (view, head)

section

variable {provider : SegmentProvider} {mapIdentifier : RecordIdentifier}

theorem ChainEnds.refuse (error : Error) (rounds : Nat) :
    ChainEnds provider (throw error) (.error error) rounds :=
  ⟨.error error, [], endsNoting_throw error, Nat.zero_le rounds, rfl, nofun⟩

theorem ChainEnds.read {α : Type} {r : Result α} {next : α → Noted RecordIdentifier Error
      (List (RecordIdentifier × RecordIdentifier) × RecordIdentifier × SegmentView × UInt32)}
    {g : α → Result (List (RecordIdentifier × RecordIdentifier) × RecordIdentifier)}
    {rounds : Nat} (h : ∀ a, r = .ok a → ChainEnds provider (next a) (g a) rounds) :
    ChainEnds provider (liftExcept r >>= next) (r >>= g) rounds := by
  cases r with
  | error error =>
    exact ⟨.error error, [], (endsNoting_liftExcept _).stop, Nat.zero_le rounds, rfl, nofun⟩
  | ok a =>
    obtain ⟨result, visits, hends, hvisits, hbounded, hroot⟩ := h a rfl
    exact ⟨result, visits, (endsNoting_pure a).goOn hends, hvisits, hbounded, hroot⟩

theorem ChainEnds.visit {current : RecordIdentifier} {next : Unit → Noted RecordIdentifier Error
      (List (RecordIdentifier × RecordIdentifier) × RecordIdentifier × SegmentView × UInt32)}
    {bounded : Result (List (RecordIdentifier × RecordIdentifier) × RecordIdentifier)}
    {rounds : Nat} (h : ChainEnds provider (next ()) bounded rounds) :
    ChainEnds provider (note current >>= next) bounded (rounds + 1) := by
  obtain ⟨result, visits, hends, hvisits, hbounded, hroot⟩ := h
  exact ⟨result, current :: visits, (endsNoting_note current).goOn hends,
    Nat.succ_le_succ hvisits, hbounded, hroot⟩

theorem readDiffChain_succ {rounds : Nat}
    {overlays : List (RecordIdentifier × RecordIdentifier)} {current : RecordIdentifier} :
    readDiffChain provider mapIdentifier (rounds + 1) overlays current =
      (do
        let (view, head) ← readHead provider current
        if head = diffHead then
          let key ← view.readRecordIdentifier current.recordNumber 8 0
          let value ← view.readRecordIdentifier current.recordNumber 8 1
          let base ← view.readRecordIdentifier current.recordNumber 8 2
          readDiffChain provider mapIdentifier rounds
            (if key ∈ overlays.map Prod.fst then overlays else overlays ++ [(key, value)]) base
        else return (overlays, current)) := by
  rw [readDiffChain, readHead]
  simp only [bind_assoc, pure_bind, apply_ite (readDiffChain provider mapIdentifier rounds),
    ite_apply]

/-- The walk down a chain of diffs ends as the bounded one. -/
theorem chainEnds_readDiffChain {walkLength rounds : Nat}
    {overlays : List (RecordIdentifier × RecordIdentifier)} {current : RecordIdentifier}
    (hrounds : walkLength + rounds = maximumWalkLength) :
    ChainEnds provider (provider.readDiffChainLoop mapIdentifier walkLength overlays current)
      (readDiffChain provider mapIdentifier rounds overlays current) rounds := by
  induction rounds generalizing walkLength overlays current with
  | zero =>
    rw [SegmentProvider.readDiffChainLoop, if_pos (by omega)]
    exact ChainEnds.refuse _ 0
  | succ rounds ih =>
    rw [SegmentProvider.readDiffChainLoop, if_neg (by omega), readDiffChain_succ]
    refine ChainEnds.visit (ChainEnds.read fun read hread => ?_)
    obtain ⟨view, head⟩ := read
    dsimp only
    split
    · refine ChainEnds.read fun key _ => ChainEnds.read fun value _ => ?_
      exact ChainEnds.read fun base _ => ih (by omega)
    · refine ⟨_, [], endsNoting_pure _, Nat.zero_le rounds, rfl, ?_⟩
      intro _ root _ _ heq
      obtain ⟨-, hrest⟩ := Prod.mk.inj (Except.ok.inj heq)
      obtain ⟨hroot, hread'⟩ := Prod.mk.inj hrest
      rw [← hroot, ← hread']
      exact hread

/-- The records of the trie below its root. -/
def trieVisits (provider : SegmentProvider) (rounds : Nat) (mapIdentifier : RecordIdentifier) :
    List RecordIdentifier :=
  match Froe.readDiffChain provider mapIdentifier maximumWalkLength [] mapIdentifier with
  | .error _ => []
  | .ok (_, root) => (collectVisits provider rounds [] [root]).tail

theorem length_trieVisits_mono {rounds more : Nat} (h : rounds ≤ more) :
    (trieVisits provider rounds mapIdentifier).length ≤
      (trieVisits provider more mapIdentifier).length := by
  rw [trieVisits, trieVisits]
  split
  · exact Nat.le_refl _
  · rw [List.length_tail, List.length_tail]
    exact Nat.sub_le_sub_right (length_collectVisits_mono h ..) 1

/-- An enumeration reads a bounded chain, and then every record of the trie once. -/
theorem endsNoting_mapEntries {rounds : Nat} (hrounds : readableCount provider < rounds) :
    ∃ chain, EndsNoting (mapEntries provider mapIdentifier)
        (do
          let (overlays, root) ← readDiffChain provider mapIdentifier maximumWalkLength []
            mapIdentifier
          let entries ← collectMapEntries provider rounds [] [root]
          return entries.map (CollectedEntry.overlaid overlays))
        (chain ++ trieVisits provider rounds mapIdentifier) ∧
      chain.length ≤ maximumWalkLength ∧ (trieVisits provider rounds mapIdentifier).Nodup ∧
      (trieVisits provider rounds mapIdentifier).length ≤ readableCount provider := by
  obtain ⟨result, chain, hends, hchain, hbounded, hroot⟩ :=
    @chainEnds_readDiffChain provider mapIdentifier 0 maximumWalkLength [] mapIdentifier
      (Nat.zero_add _)
  refine ⟨chain, ?_, hchain, ?_⟩
  · rw [trieVisits, hbounded]
    cases result with
    | error error =>
      rw [Except.map, List.append_nil]
      exact hends.stop
    | ok found =>
      obtain ⟨overlays, root, view, head⟩ := found
      have hread := hroot overlays root view head rfl
      obtain ⟨rounds, rfl⟩ : ∃ fewer, rounds = fewer + 1 := ⟨rounds - 1, by omega⟩
      have hexpand := @ends_expandMapRecord provider root view head
      rw [Except.map, ok_bind_eq]
      dsimp only
      rw [collectVisits, if_neg List.not_mem_nil, collectMapEntries_succ List.not_mem_nil, hread,
        ok_bind_eq, ok_bind_eq]
      dsimp only
      cases hexpanded : Froe.expandMapRecord provider root view head with
      | error error =>
        rw [hexpanded] at hexpand
        exact hends.goOn hexpand.silent.stop
      | ok expanded =>
        obtain ⟨collected, scheduled⟩ := expanded
        rw [hexpanded] at hexpand
        have hcollect := @endsNoting_collectMapEntries provider rounds [root] scheduled collected
          (List.nodup_singleton root) (fun other hother => List.mem_singleton.mp hother ▸ ⟨_, hread⟩)
          (by rw [List.length_singleton]; omega)
        refine hends.goOn (hexpand.silent.goOn ?_)
        rw [ok_bind_eq, List.append_nil]
        dsimp only
        cases hrest : collectMapEntries provider rounds [root] scheduled with
        | error error =>
          rw [hrest] at hcollect
          exact hcollect.stop
        | ok rest =>
          rw [hrest] at hcollect
          rw [← List.append_nil (collectVisits ..)]
          exact hcollect.goOn (endsNoting_pure _)
  · rw [trieVisits]
    cases readDiffChain provider mapIdentifier maximumWalkLength [] mapIdentifier with
    | error error => exact ⟨List.nodup_nil, Nat.zero_le _⟩
    | ok found =>
      obtain ⟨hnodup, -, hlength⟩ := @collectVisits_spec provider rounds [] [found.2]
        List.nodup_nil nofun
      refine ⟨hnodup.tail, ?_⟩
      rw [List.length_tail]
      rw [List.length_nil] at hlength
      exact Nat.sub_le_of_le_add hlength

end

/-! ## Every reader -/

/-- Reads a list whose size is kept with it. -/
def readCountedList (provider : SegmentProvider) (listIdentifier : RecordIdentifier) :
    Program Error CountedList := do
  let view ← liftExcept (provider listIdentifier.segment)
  let size ← liftExcept (view.readU32 listIdentifier.recordNumber 0)
  if 0 ≤ signed32 size ∧ size.toNat ≤ maximumListSize then
    if size = 0 then return ⟨size, none⟩
    else
      let body ← liftExcept (view.readRecordIdentifier listIdentifier.recordNumber 4 0)
      return ⟨size, some body⟩
  else liftExcept (invalid s!"invalid counted list size {signed32 size}")

/-- A counted list is the one of the bounded reader. -/
theorem ends_readCountedList {provider : SegmentProvider} (listIdentifier : RecordIdentifier) :
    Ends (readCountedList provider listIdentifier)
      (Froe.readCountedList provider listIdentifier) := by
  refine Ends.andThen (ends_liftExcept _) fun view _ => ?_
  refine Ends.andThen (ends_liftExcept _) fun size _ => ?_
  split
  · split
    · exact ends_pure _
    · exact Ends.andThen (ends_liftExcept _) fun body _ => ends_pure _
  · exact ends_liftExcept _

/-- The readers end on every provider.  An enumeration reads at most 1024 records of a chain,
and below them every record at most once, so no more than can be read. -/
theorem readers_end (provider : SegmentProvider) :
    (∀ mapIdentifier name,
      Ends (mapEntry provider mapIdentifier name) (Froe.mapEntry provider mapIdentifier name)) ∧
    (∀ mapIdentifier, ∃ result chain trie,
      EndsNoting (mapEntries provider mapIdentifier) result (chain ++ trie) ∧
      chain.length ≤ maximumWalkLength ∧ trie.Nodup ∧ trie.length ≤ readableCount provider ∧
      (readableCount provider < recordIdentifierCount →
        result = Froe.mapEntries provider mapIdentifier)) ∧
    (∀ listIdentifier,
      Ends (readCountedList provider listIdentifier)
        (Froe.readCountedList provider listIdentifier)) ∧
    (∀ listIdentifier size index,
      Ends (uncountedListEntry provider listIdentifier size index)
        (Froe.uncountedListEntry provider listIdentifier size index)) ∧
    (∀ identifier,
      Ends (readTemplate provider identifier) (Froe.readTemplate provider identifier)) ∧
    ∀ identifier, Ends (readString provider identifier) (Froe.readString provider identifier) := by
  refine ⟨fun mapIdentifier name => ends_mapEntry mapIdentifier, fun mapIdentifier => ?_,
    ends_readCountedList, ends_uncountedListEntry, ends_readTemplate, ends_readString⟩
  by_cases hfew : readableCount provider < recordIdentifierCount
  · obtain ⟨chain, hends, hchain, hnodup, htrie⟩ :=
      @endsNoting_mapEntries provider mapIdentifier recordIdentifierCount hfew
    exact ⟨_, chain, _, hends, hchain, hnodup, htrie, fun _ => rfl⟩
  · obtain ⟨chain, hends, hchain, hnodup, htrie⟩ :=
      @endsNoting_mapEntries provider mapIdentifier (readableCount provider + 1) (Nat.lt_succ_self _)
    exact ⟨_, chain, _, hends, hchain, hnodup, htrie, fun h => absurd h hfew⟩

/-! ## A chain of branches -/

/-- A word of four bytes. -/
def wordBytes (word : Nat) : Bytes :=
  [UInt8.ofNat (word / 2 ^ 24), UInt8.ofNat (word / 2 ^ 16), UInt8.ofNat (word / 2 ^ 8),
    UInt8.ofNat word]

/-- A data segment of branches that each declare 33 entries and have the next branch as their
only bucket. -/
def branchChain (length : Nat) : Bytes :=
  [0x30, 0x61, 0x4B, 12] ++ List.replicate 14 0 ++ wordBytes length ++ List.replicate 10 0 ++
    (List.range length).flatMap (fun record =>
      wordBytes record ++ 1 :: wordBytes (maximumSegmentSize - 14 * (length - record))) ++
    (List.range length).flatMap fun record =>
      wordBytes 33 ++ wordBytes 1 ++ [0, 0] ++ wordBytes (record + 1)

/-- The segment of a chain of branches. -/
def chainSegment : SegmentIdentifier := ⟨0, 0xA000000000000000⟩

/-- Serves the chain of branches. -/
def chainProvider : SegmentProvider := fun identifier =>
  if identifier = chainSegment then do
    return ⟨← ParsedSegment.parse identifier (branchChain 40), branchChain 40⟩
  else .error (.segmentNotFound identifier)

/-- A map that declares 33 entries lets the enumeration read 34 records and more. -/
theorem chain_visits_beyond :
    ¬ ∀ provider mapIdentifier size result visits,
      mapSize provider mapIdentifier = .ok size →
      EndsNoting (mapEntries provider mapIdentifier) result visits → visits.length ≤ size := by
  intro h
  have hsize : mapSize chainProvider ⟨chainSegment, 0⟩ = .ok 33 := by decide +kernel
  obtain ⟨chain, hends, -⟩ := @endsNoting_mapEntries chainProvider ⟨chainSegment, 0⟩
    (readableCount chainProvider + 35) (by omega)
  have hvisits := h _ _ _ _ _ hsize hends
  have hbeyond : (trieVisits chainProvider 35 ⟨chainSegment, 0⟩).length = 34 := by decide +kernel
  have hmore := @length_trieVisits_mono chainProvider ⟨chainSegment, 0⟩ 35
    (readableCount chainProvider + 35) (Nat.le_add_left ..)
  rw [List.length_append] at hvisits
  omega

end Looped

end Froe
