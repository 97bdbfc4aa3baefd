import Froe.Lib.Except
import Froe.Lucene.FstAdd

/-!
# Building a transducer

Every addition of a greater key keeps the builder that of its entries (`add_spec`), so
that the bytes of `finish` are read as a transducer that accepts exactly the keys added,
each with its output (`finish_reads`).
-/

namespace Froe

open Except (ok_bind_eq)
open Option (bind_eq_bind bind_some)
open List (append_nil length_append nil_append take_prefix)

open CodecOutput CodecInput Prefixes Fst

namespace FstBuilder

variable {all entries : List (Bytes × Bytes)} {key output path : Bytes} {shared : Nat}
  {b : FstBuilder}

/-- The frontier stands for another key with the same prefix. -/
theorem repath (h : Building all entries path shared b) (hbranches : Branches entries key shared)
    (htake : key.take shared = path.take shared) (hlength : key.length < b.frontier.length) :
    Building all entries key shared b := by
  have htakes : ∀ i ≤ shared, key.take i = path.take i := by
    intro i hi
    have := congrArg (List.take i) htake
    rwa [List.take_take, List.take_take, Nat.min_eq_left hi] at this
  have hget : ∀ i < shared, key[i]? = path[i]? := by
    intro i hi
    rw [← List.getElem?_take_of_lt hi, htake, List.getElem?_take_of_lt hi]
  exact
    { store := h.store
      depth_le := Nat.le_of_lt hbranches.lt
      length_lt := hlength
      node := by
        intro i hi
        rw [htakes i hi]
        exact h.node i hi
      last := by
        intro i hi
        rw [hget i hi]
        exact h.last i hi
      frozen := by
        intro i hi
        rw [htakes i (Nat.le_of_lt hi)]
        exact h.frozen i hi
      frozenAt := by
        rw [htake]
        exact h.frozenAt
      beyond := h.beyond
      size := by
        obtain ⟨written, hwritten, hle⟩ := h.size
        refine ⟨written, ⟨hwritten.nodup, hwritten.entry, fun q hq i hi => ?_⟩, hle⟩
        rw [htakes i hi]
        exact hwritten.apart q hq i hi
      emptyOutput := h.emptyOutput
      finished := h.finished }

/-- The frontier once the new key is on it. -/
structure Extended (entries : List (Bytes × Bytes)) (key output : Bytes) (shared : Nat)
    (b b' : FstBuilder) : Prop where
  same : SameStore b b'
  length : b'.frontier.length = b.frontier.length
  above : ∀ i < shared, b'.node i = setLastOutput (keptOutput entries key output i)
    (prependOutput (b.node i) (givenUp entries key output i))
  atShared : ∃ arc : BuilderArc, key[shared]? = some arc.label ∧ b'.node shared =
    { b.node shared with
      arcs := (b.node shared).arcs.map (prependArc (givenUp entries key output shared)) ++
        [{ arc with output := keptOutput entries key output shared }]
      output := if (b.node shared).isFinal then givenUp entries key output shared ++
        (b.node shared).output else (b.node shared).output }
  beyond : ∀ i, shared < i → i < key.length →
    ∃ arc : BuilderArc, key[i]? = some arc.label ∧ arc.output = [] ∧ b'.node i = { arcs := [arc] }
  atEnd : b'.node key.length = { isFinal := true }
  below : ∀ i, key.length < i → b'.node i = {}

theorem building_of_extended (h : Building all entries key shared b)
    (hbranches : Branches entries key shared) {b' : FstBuilder}
    (hext : Extended entries key output shared b b') :
    Building all (entries ++ [(key, output)]) key key.length b' := by
  have hlt := hbranches.lt
  obtain ⟨new, hnewLabel, hnew⟩ := hext.atShared
  -- a node above the end of the shared prefix keeps its arcs, with other outputs
  have habove : ∀ i < shared, ∃ init arc, (b.node i).arcs = init ++ [arc] ∧
      key[i]? = some arc.label ∧ b'.node i = { b.node i with
        arcs := init.map (prependArc (givenUp entries key output i)) ++
          [{ arc with output := keptOutput entries key output i }]
        output := if (b.node i).isFinal then givenUp entries key output i ++ (b.node i).output
          else (b.node i).output } := by
    intro i hi
    obtain ⟨init, arc, harcs, hlabel⟩ := h.last i hi
    refine ⟨init, arc, harcs, hlabel, ?_⟩
    have hprepended : (prependOutput (b.node i) (givenUp entries key output i)).arcs =
        init.map (prependArc (givenUp entries key output i)) ++
          [prependArc (givenUp entries key output i) arc] := by
      rw [prependOutput_eq, harcs, List.map_append, List.map_singleton]
    rw [hext.above i hi, setLastOutput_concat hprepended, prependOutput_eq]
    rfl
  have hprepended : ∀ {store q : Bytes} {pfx : Bytes} {arc : BuilderArc},
      ArcOf all store q arc → ArcOf all store q (prependArc pfx arc) :=
    fun harc => harc.congr rfl rfl rfl
  exact
    { store := hext.same.storeOf h.store
      depth_le := Nat.le_refl _
      length_lt := hext.length ▸ h.length_lt
      node := by
        intro i hi
        rcases Nat.lt_trichotomy i shared with hlow | rfl | hhigh
        · obtain ⟨init, arc, harcs, hlabel, hnode⟩ := habove i hlow
          rw [hnode]
          exact hbranches.nodeOf_above hlow (h.node i (Nat.le_of_lt hlow)) harcs hlabel
        · rw [hnew]
          exact hbranches.nodeOf_shared (h.node i (Nat.le_refl _)) hnewLabel
        · rcases Nat.lt_or_eq_of_le hi with hinside | rfl
          · obtain ⟨arc, hlabel, houtput, hnode⟩ := hext.beyond i hhigh hinside
            rw [hnode]
            exact hbranches.nodeOf_beyond hhigh hlabel houtput
          · rw [hext.atEnd]
            exact hbranches.nodeOf_end
      last := by
        intro i hi
        rcases Nat.lt_trichotomy i shared with hlow | rfl | hhigh
        · obtain ⟨init, arc, -, hlabel, hnode⟩ := habove i hlow
          exact ⟨_, _, congrArg UnCompiledNode.arcs hnode, hlabel⟩
        · exact ⟨_, _, congrArg UnCompiledNode.arcs hnew, hnewLabel⟩
        · obtain ⟨arc, hlabel, -, hnode⟩ := hext.beyond i hhigh hi
          exact ⟨[], arc, congrArg UnCompiledNode.arcs hnode, hlabel⟩
      frozen := by
        intro i hi arc harc
        rw [hext.same.bytes]
        rcases Nat.lt_trichotomy i shared with hlow | rfl | hhigh
        · obtain ⟨init, last, harcs, -, hnode⟩ := habove i hlow
          rw [hnode, List.dropLast_concat] at harc
          obtain ⟨old, hold, rfl⟩ := List.mem_map.mp harc
          refine hprepended (h.frozen i hlow old ?_)
          rw [harcs, List.dropLast_concat]
          exact hold
        · rw [hnew, List.dropLast_concat] at harc
          obtain ⟨old, hold, rfl⟩ := List.mem_map.mp harc
          exact hprepended (h.frozenAt old hold)
        · obtain ⟨only, -, -, hnode⟩ := hext.beyond i hhigh hi
          rw [hnode] at harc
          cases harc
      frozenAt := by
        intro arc harc
        rw [hext.atEnd] at harc
        cases harc
      beyond := hext.below
      size := by
        obtain ⟨written, hwritten, hle⟩ := h.size
        refine ⟨written, ⟨hwritten.nodup, fun q hq => ?_, fun q hq i _ => ?_⟩, hext.same.bytes ▸ hle⟩
        · obtain ⟨hne, entry, hentry, hprefix⟩ := hwritten.entry q hq
          exact ⟨hne, entry, List.mem_append_left _ hentry, hprefix⟩
        · rcases Nat.lt_or_ge shared i with hhigh | hlow
          · intro heq
            obtain ⟨-, entry, hentry, hprefix⟩ := hwritten.entry q hq
            refine hbranches.fresh_above hhigh hentry ?_
            rw [← heq]
            exact (List.dropLast_prefix q).trans hprefix
          · exact hwritten.apart q hq i hlow
      emptyOutput := by
        have hne : ([] : Bytes) ≠ key := by
          rintro rfl
          exact Nat.not_lt_zero _ hlt
        rw [hext.same.emptyOutput, h.emptyOutput, lookup_concat_of_ne hne]
      finished := hext.same.finished.trans h.finished }

/-! ## Adding one key -/

/-- The builder between two additions. -/
structure Between (all entries : List (Bytes × Bytes)) (b : FstBuilder) : Prop where
  building : Building all entries b.lastInput b.lastInput.length b
  last : b.lastInput = [] ∨ ∃ entry ∈ entries, entry.1 = b.lastInput
  le : ∀ entry ∈ entries, entry.1 = b.lastInput ∨ entry.1 < b.lastInput

theorem not_lt_of_prefix_of {l r : Bytes} (h : r <+: l) : ¬ l < r := by
  obtain ⟨t, rfl⟩ := h
  intro hlt
  induction r with
  | nil => exact List.not_lt_nil _ hlt
  | cons a r ih =>
    rcases List.cons_lt_cons_iff.mp hlt with h | h
    · exact UInt8.lt_irrefl _ h
    · exact ih h.2

section

variable (h : Between all entries b) (hless : ∀ entry ∈ entries, entry.1 < key) (hkey : key ≠ [])
include h hless hkey

theorem Between.last_lt : b.lastInput < key := by
  rcases h.last with hlast | ⟨entry, hentry, heq⟩
  · rw [hlast]
    cases key with
    | nil => exact absurd rfl hkey
    | cons c key => exact List.nil_lt_cons c key
  · rw [← heq]
    exact hless entry hentry

theorem Between.branches : Branches entries key (common b.lastInput key).length := by
  have hlt := h.last_lt hless hkey
  have hshared : key.take (common b.lastInput key).length = common b.lastInput key := by
    rw [common_comm]
    exact take_length_common key b.lastInput
  refine ⟨?_, hless, ?_, ?_⟩
  · refine Nat.lt_of_le_of_ne (common_prefix_right _ _).length_le fun heq => ?_
    have hkeyEq := (common_prefix_right b.lastInput key).eq_of_length heq
    have := common_prefix_left b.lastInput key
    rw [hkeyEq] at this
    exact not_lt_of_prefix_of this hlt
  · intro hpos
    rcases h.last with hlast | ⟨entry, hentry, heq⟩
    · rw [hlast, nil_common] at hpos
      exact absurd hpos (Nat.lt_irrefl 0)
    · refine ⟨entry, hentry, ?_⟩
      rw [hshared, heq]
      exact common_prefix_left _ _
  · intro entry hentry hprefix
    have hlast : key.take ((common b.lastInput key).length + 1) <+: b.lastInput := by
      rcases h.le entry hentry with heq | hle
      · exact heq ▸ hprefix
      · exact prefix_of_between hprefix ( take_prefix _ _) hle hlt
    have hboth := prefix_common_iff.mpr ⟨hlast, take_prefix _ _⟩
    have hlength := hboth.length_le
    rw [List.length_take] at hlength
    have hle : key.length ≤ (common b.lastInput key).length := by omega
    have hkeyEq := (common_prefix_right b.lastInput key).eq_of_length_le hle
    have := common_prefix_left b.lastInput key
    rw [hkeyEq] at this
    exact not_lt_of_prefix_of this hlt

end

theorem growFrontier_node (b : FstBuilder) (depth i : Nat) :
    (b.growFrontier depth).node i = b.node i := by
  rw [node, node, growFrontier, List.getD_eq_getElem?_getD, List.getD_eq_getElem?_getD,
    List.getElem?_append]
  split
  · rfl
  next h =>
    rw [List.getElem?_eq_none (Nat.le_of_not_lt h), List.getElem?_replicate]
    split <;> rfl

theorem depth_lt_growFrontier (b : FstBuilder) (depth : Nat) :
    depth < (b.growFrontier depth).frontier.length := by
  rw [growFrontier]
  simp only [length_append, List.length_replicate]
  omega

theorem building_growFrontier (h : Building all entries path shared b) (depth : Nat) :
    Building all entries path shared (b.growFrontier depth) where
  store := @SameStore.storeOf b (b.growFrontier depth) rfl h.store
  depth_le := h.depth_le
  length_lt := by
    have := h.length_lt
    rw [growFrontier]
    simp only [length_append]
    omega
  node i hi := by
    rw [growFrontier_node]
    exact h.node i hi
  last i hi := by
    rw [growFrontier_node]
    exact h.last i hi
  frozen i hi := by
    rw [growFrontier_node]
    exact h.frozen i hi
  frozenAt := by
    rw [growFrontier_node]
    exact h.frozenAt
  beyond i hi := by
    rw [growFrontier_node]
    exact h.beyond i hi
  size := h.size
  emptyOutput := h.emptyOutput
  finished := h.finished

/-- What an addition does once the tail of the last key is frozen. -/
def extend (b : FstBuilder) (key output : Bytes) (shared : Nat) : FstBuilder :=
  let pushed := (b.pushArcs (shared + 1) key).modifyNode key.length fun node =>
    { node with isFinal := true, output := [] }
  let (c, remaining) := (List.range' 1 shared).foldl (pushOutput key) (pushed, output)
  c.modifyNode shared (setLastOutput remaining)

/-- The frontier after the pushes is the old one with the new key on it. -/
theorem extended_extend (h : Building all entries key shared b)
    (hbranches : Branches entries key shared) :
    Extended entries key output shared b (b.extend key output shared) := by
  have hlt := hbranches.lt
  have hframe := h.length_lt
  obtain ⟨n, hn⟩ : ∃ n, key.length + 1 - (shared + 1) = n := ⟨_, rfl⟩
  obtain ⟨hsame, hlength, hin, hout⟩ :=
    @pushArcs_spec key shared b n (by omega)
  rw [← hn] at hsame hlength hin hout
  obtain ⟨arcs, harcs⟩ : ∃ arcs, arcs = b.pushArcs (shared + 1) key := ⟨_, rfl⟩
  rw [← pushArcs, ← harcs] at hsame hlength hin hout
  obtain ⟨marked, hmarked⟩ : ∃ marked, marked = arcs.modifyNode key.length fun node =>
    { node with isFinal := true, output := [] } := ⟨_, rfl⟩
  have hmarkedNe : ∀ i, i ≠ key.length → marked.node i = arcs.node i := by
    intro i hi
    rw [hmarked, node_modifyNode_ne (Ne.symm hi)]
  have hmarkedEnd : marked.node key.length = { isFinal := true } := by
    rw [hmarked, node_modifyNode_self (by omega), hout _ (Or.inr (by omega)), h.beyond _ hlt]
  have hmarkedLength : marked.frontier.length = b.frontier.length := by
    rw [hmarked, length_modifyNode, hlength]
  have hlow : ∀ i < shared, marked.node i = b.node i := by
    intro i hi
    rw [hmarkedNe i (by omega), hout i (Or.inl hi)]
  obtain ⟨c, hfold, hsameC, hlengthC, habove, hat, hbelow⟩ :=
    @pushOutputs_spec entries key output shared marked hbranches (by omega) (by
      intro i hi
      obtain ⟨init, arc, harc, hlabel⟩ := h.last i hi
      have hstep : key.take (i + 1) = key.take i ++ [arc.label] := by
        rw [List.take_add_one, hlabel]
        rfl
      rw [hlow i hi]
      refine ⟨init, arc, harc, hlabel, ?_⟩
      rw [hstep]
      exact (h.node i (Nat.le_of_lt hi)).outputs arc
        (harc ▸ List.mem_append_right _ (List.mem_singleton_self _))) shared (Nat.le_refl _)
  have hextend : b.extend key output shared = c.modifyNode shared (setLastOutput
      (output.drop (Fst.pushed (entries ++ [(key, output)]) (key.take shared)).length)) := by
    rw [extend, ← harcs, ← hmarked, hfold]
  rw [hextend]
  obtain ⟨label, hlabel⟩ : ∃ label, key[shared]? = some label :=
    ⟨_, List.getElem?_eq_getElem hlt⟩
  have hkept : keptOutput entries key output shared =
      output.drop (Fst.pushed (entries ++ [(key, output)]) (key.take shared)).length := by
    rw [keptOutput, hbranches.pushed_fresh (Nat.le_refl _) hlt]
  refine ⟨(hsame.trans (hmarked ▸ SameStore.modifyNode ..)).trans
    (hsameC.trans (SameStore.modifyNode ..)), by rw [length_modifyNode, hlengthC, hmarkedLength],
    ?_, ?_, ?_, ?_, ?_⟩
  · intro i hi
    rw [node_modifyNode_ne (by omega), habove i hi, hlow i hi]
  · refine ⟨{ label := label }, hlabel, ?_⟩
    have hnode : marked.node shared = { b.node shared with
        arcs := (b.node shared).arcs ++ [{ label := label }] } := by
      rw [hmarkedNe shared (by omega), hin shared (Nat.le_refl _) (by omega),
        getD_eq_of_getElem? hlabel]
    have hprepended : (prependOutput (marked.node shared)
        (givenUp entries key output shared)).arcs =
        (b.node shared).arcs.map (prependArc (givenUp entries key output shared)) ++
          [prependArc (givenUp entries key output shared) { label := label }] := by
      rw [prependOutput_eq, hnode, List.map_append, List.map_singleton]
    rw [node_modifyNode_self (by omega), hat, setLastOutput_concat hprepended, hkept,
      prependOutput_eq, hnode]
    rfl
  · intro i hi hlen
    have hget : key[i]? = some key[i] := List.getElem?_eq_getElem hlen
    refine ⟨{ label := key[i] }, hget, rfl, ?_⟩
    rw [node_modifyNode_ne (by omega), hbelow i hi, hmarkedNe i (by omega),
      hin i (by omega) (by omega), getD_eq_of_getElem? hget, h.beyond i hi]
    rfl
  · rw [node_modifyNode_ne (by omega), hbelow _ hlt, hmarkedEnd]
  · intro i hi
    rw [node_modifyNode_ne (by omega), hbelow i (by omega), hmarkedNe i (by omega),
      hout i (Or.inr (by omega)), h.beyond i (by omega)]

theorem building_withLastInput (h : Building all entries path shared b) (last : Bytes) :
    Building all entries path shared { b with lastInput := last } where
  store := ⟨h.store.nonempty, h.store.lastFrozenNode, h.store.dedup, h.store.nodeCount,
    h.store.arcCount, h.store.arcWithOutputCount⟩
  depth_le := h.depth_le
  length_lt := h.length_lt
  node := h.node
  last := h.last
  frozen := h.frozen
  frozenAt := h.frozenAt
  beyond := h.beyond
  size := h.size
  emptyOutput := h.emptyOutput
  finished := h.finished

/-- The empty key marks the root and has its output beside the automaton. -/
theorem building_emptyKey (h : Building all [] [] 0 b) (output : Bytes) :
    Building all [([], output)] [] 0
      { b.modifyNode 0 fun node => { node with isFinal := true } with
        emptyOutput := some output } := by
  have hroot := h.node 0 (Nat.le_refl 0)
  have hnode : (b.modifyNode 0 fun node => { node with isFinal := true }).node 0 =
      { b.node 0 with isFinal := true } := node_modifyNode_self h.length_lt _
  have harcs : (b.node 0).arcs = [] := by
    refine List.eq_nil_iff_forall_not_mem.mpr fun arc harc => ?_
    obtain ⟨entry, hentry, -⟩ := hroot.entry harc
    cases hentry
  exact
    { store := ⟨h.store.nonempty, h.store.lastFrozenNode, h.store.dedup, h.store.nodeCount,
        h.store.arcCount, h.store.arcWithOutputCount⟩
      depth_le := Nat.le_refl 0
      length_lt := by
        show 0 < (b.modifyNode 0 _).frontier.length
        rw [length_modifyNode]
        exact h.length_lt
      node := by
        intro i hi
        obtain rfl := Nat.le_zero.mp hi
        show NodeOf _ _ ((b.modifyNode 0 _).node 0)
        rw [hnode]
        refine ⟨rfl, fun hne => absurd rfl hne, hroot.ascending, ?_, ?_⟩
        · intro c
          constructor
          · rintro ⟨arc, harc, -⟩
            rw [harcs] at harc
            cases harc
          · rintro ⟨entry, hentry, hprefix⟩
            rw [List.mem_singleton.mp hentry] at hprefix
            cases List.prefix_nil.mp hprefix
        · intro arc harc
          rw [harcs] at harc
          cases harc
      last := fun i hi => absurd hi (Nat.not_lt_zero i)
      frozen := fun i hi => absurd hi (Nat.not_lt_zero i)
      frozenAt := by
        intro arc harc
        have : arc ∈ ((b.modifyNode 0 _).node 0).arcs := harc
        rw [hnode, harcs] at this
        cases this
      beyond := by
        intro i hi
        show (b.modifyNode 0 _).node i = _
        rw [node_modifyNode_ne (Nat.ne_of_lt hi)]
        exact h.beyond i hi
      size := by
        obtain ⟨written, hwritten, hle⟩ := h.size
        refine ⟨written, ⟨hwritten.nodup, fun q hq => ?_, hwritten.apart⟩, hle⟩
        obtain ⟨-, entry, hentry, -⟩ := hwritten.entry q hq
        cases hentry
      emptyOutput := rfl
      finished := h.finished }

/-- Adding a key greater than all before it keeps the builder that of its entries. -/
theorem add_spec {later : List (Bytes × Bytes)} (hall : all = entries ++ (key, output) :: later)
    (hsorted : Sorted all) (hfits : Fst.Fits all) (h : Between all entries b) :
    ∃ b', b.add key output = .ok b' ∧ Between all (entries ++ [(key, output)]) b' := by
  have hless : ∀ entry ∈ entries, entry.1 < key := by
    intro entry hentry
    rw [hall] at hsorted
    exact (List.pairwise_append.mp hsorted).2.2 entry hentry (key, output) (List.mem_cons_self ..)
  have hsub : entries ⊆ all := by
    rw [hall]
    exact List.subset_append_left _ _
  rw [add, if_neg (by rw [h.building.finished]; exact Bool.false_ne_true)]
  by_cases hkey : key = []
  · -- the empty key is the least, so it comes first
    have hentries : entries = [] := by
      refine List.eq_nil_iff_forall_not_mem.mpr fun entry hentry => ?_
      have := hless entry hentry
      rw [hkey] at this
      exact List.not_lt_nil _ this
    have hlast : b.lastInput = [] := by
      rcases h.last with hlast | ⟨entry, hentry, -⟩
      · exact hlast
      · rw [hentries] at hentry
        cases hentry
    rw [if_neg (fun hlt => hlt.1 (by rw [hlast]; rfl)), if_pos (by rw [hkey]; rfl)]
    refine ⟨_, rfl, ?_, Or.inl hlast, ?_⟩
    · have hbuilding := h.building
      rw [hentries, hlast] at hbuilding
      show Building all (entries ++ [(key, output)]) b.lastInput b.lastInput.length _
      rw [hlast, hentries, hkey]
      exact building_emptyKey hbuilding output
    · intro entry hentry
      rw [hentries, nil_append, List.mem_singleton] at hentry
      refine Or.inl ?_
      rw [hentry, hkey]
      exact hlast.symm
  · have hlt := h.last_lt hless hkey
    have hbranches := h.branches hless hkey
    obtain ⟨shared, hshared⟩ : ∃ shared, shared = (common b.lastInput key).length := ⟨_, rfl⟩
    have hlength : sharedLength b.lastInput key = shared := by rw [sharedLength_eq, hshared]
    rw [← hshared] at hbranches
    have hnot : ¬ (¬ b.lastInput.isEmpty = true ∧ key < b.lastInput) := fun hbad =>
      List.lt_irrefl _ (List.lt_trans hbad.2 hlt)
    rw [if_neg hnot, if_neg (by simpa using hkey)]
    have hsettled : ∀ i, shared + 1 ≤ i → i ≤ b.lastInput.length →
        Settled all entries (b.lastInput.take i) := by
      intro i hi hle
      rw [hall] at hsorted ⊢
      refine settled_of_sorted hsorted hlt ( take_prefix _ _) fun hprefix => ?_
      have := (prefix_common_iff.mpr ⟨ take_prefix _ _, hprefix⟩).length_le
      rw [List.length_take, ← hshared] at this
      omega
    have hsharedLe : shared ≤ b.lastInput.length := by
      rw [hshared]
      exact (common_prefix_left _ _).length_le
    obtain ⟨frozen, hfrozen, hbuilding, hlastInput, hframe⟩ := freezeDown_spec hsorted hfits hsub
      (Nat.le_add_left 1 shared) (by omega)
      (building_growFrontier h.building key.length) hsettled
    rw [Nat.add_sub_cancel] at hbuilding
    have htail : (b.growFrontier key.length).freezeTail (shared + 1) = .ok frozen := by
      rw [freezeTail, Nat.max_eq_left (Nat.le_add_left 1 _)]
      exact hfrozen
    have htake : key.take shared = b.lastInput.take shared := by
      rw [hshared, take_length_common, common_comm, take_length_common]
    have hext : Extended entries key output shared frozen _ := extended_extend
      (repath hbuilding hbranches htake (hframe ▸ depth_lt_growFrontier b key.length)) hbranches
    have hrepeated : ∀ c : FstBuilder, ¬ (c.lastInput.length = key.length ∧
        shared + 1 = key.length + 1) := by
      intro c hboth
      have := hbranches.lt
      omega
    refine ⟨{ frozen.extend key output shared with lastInput := key }, ?_, ?_, ?_, ?_⟩
    · rw [hlength]
      simp only [htail, ok_bind_eq, if_neg (hrepeated _)]
      rfl
    · exact building_withLastInput (building_of_extended
        (repath hbuilding hbranches htake (hframe ▸ depth_lt_growFrontier b key.length))
        hbranches hext) key
    · exact Or.inr ⟨_, List.mem_append_right _ (List.mem_singleton_self _), rfl⟩
    · intro entry hentry
      rcases List.mem_append.mp hentry with hentry | hentry
      · exact Or.inr (hless entry hentry)
      · rw [List.mem_singleton.mp hentry]
        exact Or.inl rfl

/-- The builder before any key. -/
theorem between_new (all : List (Bytes × Bytes)) : Between all [] {} where
  building :=
    { store :=
        { nonempty := List.cons_ne_nil _ _
          lastFrozenNode := rfl
          dedup := by
            intro key address hkey
            cases hkey
          nodeCount := Nat.zero_le _
          arcCount := Nat.zero_le _
          arcWithOutputCount := Nat.zero_le _ }
      depth_le := Nat.le_refl 0
      length_lt := Nat.zero_lt_one
      node := by
        intro i hi
        obtain rfl := Nat.le_zero.mp hi
        refine ⟨rfl, fun hne => absurd rfl hne, List.Pairwise.nil, ?_, fun arc harc => nomatch harc⟩
        intro c
        constructor
        · rintro ⟨arc, harc, -⟩
          cases harc
        · rintro ⟨entry, hentry, -⟩
          cases hentry
      last := fun i hi => absurd hi (Nat.not_lt_zero i)
      frozen := fun i hi => absurd hi (Nat.not_lt_zero i)
      frozenAt := fun arc harc => nomatch harc
      beyond := by
        intro i hi
        obtain ⟨j, rfl⟩ := Nat.exists_eq_succ_of_ne_zero (Nat.ne_zero_of_lt hi)
        rfl
      size := by
        refine ⟨[], ⟨List.nodup_nil, ?_, ?_⟩, Nat.le_refl 1⟩
        · intro q hq
          cases hq
        · intro q hq
          cases hq
      emptyOutput := rfl
      finished := rfl }
  last := Or.inl rfl
  le := fun entry hentry => nomatch hentry

theorem addAll_spec (hsorted : Sorted all) (hfits : Fst.Fits all) {done todo : List (Bytes × Bytes)}
    (hall : all = done ++ todo) (h : Between all done b) :
    ∃ b', b.addAll todo = .ok b' ∧ Between all all b' := by
  induction todo generalizing done b with
  | nil =>
    rw [append_nil] at hall
    exact ⟨b, rfl, hall ▸ h⟩
  | cons entry todo ih =>
    obtain ⟨c, hc, hbetween⟩ := add_spec hall hsorted hfits h
    obtain ⟨b', hb', hdone⟩ := ih (by rw [hall, List.append_assoc]; rfl) hbetween
    refine ⟨b', ?_, hdone⟩
    rw [addAll, List.foldlM_cons, hc]
    exact hb'

/-! ## Finishing -/

end FstBuilder

namespace Fst

theorem readEmptyOutput_write {emptyOutput : Option Bytes}
    (h : ∀ value, emptyOutput = some value → value.length + 5 ≤ maximumI32) (rest : Bytes) :
    readEmptyOutput (FstBuilder.writeEmptyOutput emptyOutput ++ rest) =
      some (emptyOutput, rest) := by
  cases emptyOutput with
  | none => rfl
  | some value =>
    have hvalue := h value rfl
    have hlength : (writeOutput value).reverse.length ≤ maximumI32 := by
      rw [List.length_reverse, writeOutput, length_append]
      have := length_writeVint_le (lengthOrMaximum value.length)
      omega
    simp only [FstBuilder.writeEmptyOutput, List.cons_append, nil_append, List.append_assoc]
    rw [readEmptyOutput, if_pos rfl, lengthOrMaximum_of_le hlength, readVint_writeVint hlength]
    simp only [bind_eq_bind, bind_some, readBytes_append]
    have hread := readOutput_writeOutput (Nat.le_of_add_right_le hvalue) []
    rw [append_nil] at hread
    rw [List.reverse_reverse, hread]
    rfl

theorem checkHeader_write : ∃ header, writeHeader fileFormatName versionCurrent = .ok header ∧
    ∀ rest, checkHeader fileFormatName versionCurrent (header ++ rest) = some rest :=
  checkHeader_writeHeader (by decide +kernel) (by decide +kernel) (by decide +kernel) (by decide)
    (by decide)

end Fst

namespace FstBuilder

variable {all : List (Bytes × Bytes)} {b : FstBuilder}

/-- What a reader makes of a serialized builder. -/
theorem read_serialize (hbytes : b.bytes.length < 2 ^ 63) (hnodes : b.nodeCount ≤ b.bytes.length)
    (harcs : b.arcCount ≤ b.bytes.length) (houtputs : b.arcWithOutputCount ≤ b.bytes.length)
    (hempty : ∀ value, b.emptyOutput = some value → value.length + 5 ≤ maximumI32)
    {startNode : Nat} (hstart : startNode < 2 ^ 63) :
    ∃ bytes, b.serialize startNode = .ok bytes ∧ Fst.read bytes =
      some (⟨b.emptyOutput, startNode, b.nodeCount, b.arcCount, b.arcWithOutputCount, b.bytes⟩,
        []) := by
  obtain ⟨header, hheader, hcheck⟩ := checkHeader_write
  have hlong : ∀ n : Nat, writeVlong n = .ok (writeVlongSigned n) := fun n =>
    writeVlong_of_nonneg (Int.natCast_nonneg n)
  refine ⟨_, by simp only [serialize, hheader, hlong]; rfl, ?_⟩
  simp only [List.append_assoc]
  rw [Fst.read, hcheck]
  have hbytesAtEnd := readBytes_append b.bytes []
  rw [append_nil] at hbytesAtEnd
  simp only [bind_eq_bind, bind_some, List.cons_append, nil_append, expectByte,
    if_true, readEmptyOutput_write hempty, readVlong_writeVlongSigned hstart,
    readVlong_writeVlongSigned (Nat.lt_of_le_of_lt hnodes hbytes),
    readVlong_writeVlongSigned (Nat.lt_of_le_of_lt harcs hbytes),
    readVlong_writeVlongSigned (Nat.lt_of_le_of_lt houtputs hbytes),
    readVlong_writeVlongSigned hbytes, hbytesAtEnd]
  rfl

/-- Finishing a builder of some entries. -/
theorem finish_spec (hne : all ≠ []) (hsorted : Sorted all) (hfits : Fst.Fits all)
    (h : Between all all b) : ∃ bytes fst, b.finish = .ok bytes ∧ Fst.read bytes = some (fst, []) ∧
      ∀ key, fst.get key = all.lookup key := by
  obtain ⟨frozen, hfrozen, hbuilding, -, -⟩ := freezeDown_spec hsorted hfits (List.Subset.refl all)
    (Nat.le_refl 1) (Nat.le_add_left 1 _) h.building fun i _ _ => rfl
  have htail : b.freezeTail 0 = .ok frozen := hfrozen
  have hroot := hbuilding.node 0 (Nat.le_refl 0)
  have harcs := hbuilding.frozenAt
  have hbytes := hbuilding.bytes_lt hsorted hfits (List.Subset.refl all)
  rw [Nat.sub_self, List.take_zero] at harcs
  rw [List.take_zero] at hroot
  have hempty : ∀ value, frozen.emptyOutput = some value → value.length + 5 ≤ maximumI32 := by
    intro value hvalue
    rw [hbuilding.emptyOutput] at hvalue
    exact hfits.empty value (mem_of_lookup hvalue)
  -- a transducer that is read with this start accepts what is below the root
  have hget : ∀ fst : Fst, fst.emptyOutput = frozen.emptyOutput →
      (∀ c key, walk fst.store fst.firstArc (c :: key) = rest all [] (c :: key)) →
      ∀ key, fst.get key = all.lookup key := by
    intro fst hemptyOutput hwalk key
    cases key with
    | nil =>
      rw [Fst.get, walk, firstArc, hemptyOutput, hbuilding.emptyOutput]
      cases all.lookup [] <;> rfl
    | cons c key =>
      rw [Fst.get, hwalk, rest, nil_append, pushed_nil]
      cases all.lookup (c :: key) <;> rfl
  have hopen : SameStore frozen (frozen.modifyNode 0 fun _ => {}) := SameStore.modifyNode ..
  obtain ⟨closed, hclosed⟩ : ∃ closed, closed =
      { frozen.modifyNode 0 fun _ => {} with finished := true } := ⟨_, rfl⟩
  have hstore : StoreOf closed := by
    have := hopen.storeOf hbuilding.store
    rw [hclosed]
    exact ⟨this.nonempty, this.lastFrozenNode, this.dedup, this.nodeCount, this.arcCount,
      this.arcWithOutputCount⟩
  have hclosedBytes : closed.bytes = frozen.bytes := by rw [hclosed]; rfl
  have hclosedEmpty : closed.emptyOutput = frozen.emptyOutput := by rw [hclosed]; rfl
  rw [finish, if_neg (by rw [h.building.finished]; exact Bool.false_ne_true), htail]
  rw [ok_bind_eq, finishRoot]
  dsimp only
  rw [← hclosed]
  by_cases hno : (frozen.node 0).arcs = []
  · -- only the empty key
    obtain ⟨entry, hentry⟩ := List.exists_mem_of_ne_nil all hne
    have hfinal := lookup_of_no_arcs hroot hno hentry List.nil_prefix
    have hsome : frozen.emptyOutput.isSome := by
      rw [hbuilding.emptyOutput, ← hroot.isFinal]
      exact hfinal
    have hnotNone : frozen.emptyOutput.isNone = false := by
      rw [Option.isNone_eq_false_iff]
      exact hsome
    have hcompile : closed.compileNode (frozen.node 0) = .ok (finalEndNode, closed) := by
      rw [compileNode, if_pos (by simpa using hno), if_pos hfinal]
    rw [if_neg (by rw [hnotNone]; exact fun hboth => Bool.false_ne_true hboth.2), hcompile,
      ok_bind_eq]
    dsimp only
    rw [if_pos ⟨rfl, hsome⟩]
    obtain ⟨bytes, hserialize, hread⟩ := read_serialize (hclosedBytes ▸ hbytes)
      hstore.nodeCount hstore.arcCount hstore.arcWithOutputCount (hclosedEmpty ▸ hempty) (show 0 < 2 ^ 63 by decide)
    refine ⟨bytes, _, hserialize, hread, hget _ hclosedEmpty fun c key => ?_⟩
    have hnone : ¬ ∃ entry ∈ all, [] ++ [c] <+: entry.1 := by
      intro hsome
      obtain ⟨arc, harc, -⟩ := (hroot.labels c).mpr hsome
      rw [hno] at harc
      cases harc
    rw [rest_cons, rest_of_no_entry hnone]
    rfl
  · rw [if_neg (fun hboth => hno (by simpa using hboth.1))]
    obtain ⟨address, compiled, hcompile, hstoreC, hkept, ⟨more, hmore⟩, hsize, hpos, hlt, hat⟩ :=
      compileNode_spec hstore (fun arc harc => encodable_of_fits hfits hroot
        (hclosedBytes ▸ hbytes) harc (hclosedBytes ▸ harcs arc harc)) hroot.ascending hno
    rw [hcompile, ok_bind_eq]
    dsimp only
    have hnotEnd : ¬ (address = finalEndNode ∧ frozen.emptyOutput.isSome = true) := by
      rintro ⟨rfl, -⟩
      exact absurd hpos (by decide)
    rw [if_neg hnotEnd]
    obtain ⟨start, rfl⟩ := Int.eq_ofNat_of_zero_le (Int.le_of_lt hpos)
    have hlast : compiled.bytes.length < 2 ^ 63 := by
      obtain ⟨written, hwritten, hle⟩ := hbuilding.size
      obtain ⟨hnodup, hentry⟩ := hwritten.children
        (show ([] : Bytes) = b.lastInput.take (1 - 1) from rfl) hroot
      have hcost := sum_cost_le hsorted hnodup hentry
      rw [sum_arcCost hroot harcs, hclosedBytes] at hsize
      rw [List.map_append, List.sum_append] at hcost
      have := hfits.size
      omega
    have hemptyC : compiled.emptyOutput = frozen.emptyOutput := hkept.emptyOutput.trans hclosedEmpty
    obtain ⟨bytes, hserialize, hread⟩ := read_serialize hlast hstoreC.nodeCount
      hstoreC.arcCount hstoreC.arcWithOutputCount (hemptyC ▸ hempty) (show start < 2 ^ 63 by omega)
    refine ⟨bytes, _, hserialize, hread, hget _ hemptyC fun c key => ?_⟩
    have hfrozenArcs : ∀ arc ∈ (frozen.node 0).arcs,
        ArcOf all compiled.bytes ([] ++ [arc.label]) arc := by
      intro arc harc
      rw [hmore, hclosedBytes]
      exact (harcs arc harc).append more
    have hwalk := walk_node hroot hfrozenArcs hat (show (firstArc ⟨compiled.emptyOutput, start,
      compiled.nodeCount, compiled.arcCount, compiled.arcWithOutputCount,
      compiled.bytes⟩).target = start from rfl) [] c key
    rw [append_nil] at hwalk
    exact hwalk

/-- The bytes that a builder finishes with are read as a transducer that accepts exactly the
keys added, each with its output. -/
theorem finish_reads (entries : List (Bytes × Bytes)) (hne : entries ≠ []) (hsorted : Sorted entries)
    (hfits : Fst.Fits entries) :
    ∃ bytes fst, (({} : FstBuilder).addAll entries >>= finish) = .ok bytes ∧
      Fst.read bytes = some (fst, []) ∧ ∀ key, fst.get key = entries.lookup key := by
  obtain ⟨b, hb, hbetween⟩ := addAll_spec hsorted hfits rfl (between_new entries)
  obtain ⟨bytes, fst, hfinish, hread, hget⟩ := finish_spec hne hsorted hfits hbetween
  exact ⟨bytes, fst, by rw [hb]; exact hfinish, hread, hget⟩

/-- Outputs that are short as they are fit however they are split. -/
theorem fits_of_short {entries : List (Bytes × Bytes)}
    (hshort : ∀ entry ∈ entries, entry.2.length + 5 ≤ maximumI32)
    (hsize : footprint entries + 1 < 2 ^ 63) : Fst.Fits entries where
  arcs := by
    intro entry hentry p c hprefix
    have hpushed := (pushed_le hentry hprefix).length_le
    have := hshort entry hentry
    omega
  ends := by
    intro entry hentry _
    have := hshort entry hentry
    omega
  empty := fun output hentry => hshort _ hentry
  size := hsize

theorem finish_reads_two_keys :
    ∃ bytes fst, (({} : FstBuilder).addAll [([1], [7, 9]), ([1, 2], [7, 8])] >>= finish) =
        .ok bytes ∧ Fst.read bytes = some (fst, []) ∧
      ∀ key, fst.get key = [([1], [7, 9]), ([1, 2], [7, 8])].lookup key :=
  finish_reads _ (List.cons_ne_nil _ _) (by unfold Sorted; decide)
    (fits_of_short (by decide) (by decide))

/-! ## An output that does not fit its length -/

def onlyArc (output : Bytes) : BuilderArc :=
  { label := 97, target := finalEndNode, output := output, isFinal := true }

/-- The builder of that key once its root is compiled. -/
def onlyKey (output : Bytes) : FstBuilder :=
  ({ frontier := [{}, {}], lastInput := [97], finished := true } : FstBuilder).withNode
    { arcs := [onlyArc output] }

theorem finish_onlyKey (output : Bytes) :
    ∃ dedup, (({} : FstBuilder).addAll [([97], output)] >>= finish) =
      { onlyKey output with dedup := dedup }.serialize ((onlyKey output).bytes.length - 1) := by
  have hadd : ({} : FstBuilder).addAll [([97], output)] = .ok
      { frontier := [{ arcs := [{ label := 97, output := output }] }, { isFinal := true }]
        lastInput := [97] } := rfl
  have hfreeze : ({ frontier := [{ arcs := [{ label := 97, output := output }] },
      { isFinal := true }], lastInput := [97] } : FstBuilder).freezeTail 0 = .ok
      { frontier := [{ arcs := [onlyArc output] }, {}], lastInput := [97] } := rfl
  refine ⟨[(dedupKey { arcs := [onlyArc output] }, ((onlyKey output).bytes.length : Int) - 1)], ?_⟩
  rw [hadd, ok_bind_eq, finish, if_neg Bool.false_ne_true, hfreeze, ok_bind_eq,
    finishRoot]
  show (FstBuilder.compileNode { frontier := [{}, {}], lastInput := [97], finished := true }
    { arcs := [onlyArc output] } >>= _) = _
  rw [compileNode, if_neg (by simp), if_neg (by simp)]
  show (FstBuilder.addNode _ _ >>= _) >>= _ = _
  rw [addNode_eq]
  simp only [ok_bind_eq, pure_bind]
  rw [if_neg (by rintro ⟨-, h⟩; exact absurd h (by decide))]
  rfl

theorem bytes_onlyKey (output : Bytes) :
    (onlyKey output).bytes = [0] ++ (arcBytes 0 true (onlyArc output)).reverse := by
  rw [onlyKey, withNode_bytes, arcsBytes, arcsBytes, append_nil]
  rfl

theorem arcBytes_onlyArc {output : Bytes} (hlong : maximumI32 < output.length) :
    arcBytes 0 true (onlyArc output) =
      27 :: 97 :: (writeVint maximumI32 ++ output) := by
  have hne : output.isEmpty = false := by
    rw [List.isEmpty_eq_false_iff, ← List.length_pos_iff]
    exact Nat.zero_lt_of_lt hlong
  have hflags : arcFlags 0 true (onlyArc output) = 27 := by
    rw [arcFlags_eq]
    show flagByte true (decide ((0 : Int) = -1)) true false (decide (¬ (0 : Int) < -1))
      (!output.isEmpty) = 27
    rw [hne]
    decide
  have houtput : outputBytes output = writeVint maximumI32 ++ output := by
    rw [outputBytes, if_neg (by rw [hne]; exact Bool.false_ne_true), writeOutput, lengthOrMaximum,
      if_neg (Nat.not_le.mpr hlong)]
  rw [arcBytes, hflags]
  show [27, 97] ++ outputBytes output ++ outputBytes [] ++ targetBytes 0 (onlyArc output) = _
  rw [houtput, targetBytes_of_not_pos (show ¬ (0 : Int) < -1 by decide)]
  simp [outputBytes]

/-- What a reader finds at the root: the output is cut at its length. -/
theorem scan_onlyKey {output : Bytes} (hlong : maximumI32 < output.length) (fuel : Nat) :
    scanArcs 97 (fuel + 1) (arcBytes 0 true (onlyArc output) ++ [0]) =
      some { label := 97, output := output.take maximumI32, isFinal := true, target := -1 } := by
  have hread : readOutput (writeVint maximumI32 ++ (output ++ [0])) =
      some (output.take maximumI32, output.drop maximumI32 ++ [0]) := by
    rw [readOutput, readVint_writeVint (Nat.le_refl _), bind_some, readBytes, if_neg,
      Int.toNat_natCast, List.take_append_of_le_length (Nat.le_of_lt hlong),
      List.drop_append_of_le_length (Nat.le_of_lt hlong)]
    rw [length_append]
    omega
  rw [arcBytes_onlyArc hlong]
  simp only [List.cons_append, List.append_assoc]
  rw [scanArcs, readNextRealArc, readArcFields]
  have h16 : decide ((27 : UInt8) &&& bitArcHasOutput ≠ 0) = true := by decide
  have h32 : decide ((27 : UInt8) &&& bitArcHasFinalOutput ≠ 0) = false := by decide
  rw [h16, h32]
  have hstop : ∀ out, (ArcFields.mk 27 97 out []).has bitStopNode = true := fun _ =>
    show decide ((27 : UInt8) &&& bitStopNode ≠ 0) = true by decide
  have hfinal : ∀ out, (ArcFields.mk 27 97 out []).has bitFinalArc = true := fun _ =>
    show decide ((27 : UInt8) &&& bitFinalArc ≠ 0) = true by decide
  simp only [readOutputIf, if_true, Bool.false_eq_true, if_false, hread, bind_eq_bind,
    Option.pure_def, bind_some, ArcFields.toArc, hstop, hfinal]
  rfl

theorem read_onlyKey {output : Bytes} (hlong : maximumI32 < output.length)
    (hsmall : output.length < 2 ^ 32) :
    ∃ bytes fst, (({} : FstBuilder).addAll [([97], output)] >>= finish) = .ok bytes ∧
      Fst.read bytes = some (fst, []) ∧ fst.get [97] = some (output.take maximumI32) := by
  obtain ⟨dedup, hfinish⟩ := finish_onlyKey output
  have hwritten := length_arcsBytes_le 0 [onlyArc output]
  have hlength : (onlyKey output).bytes.length =
      1 + (arcBytes 0 true (onlyArc output)).length := by
    rw [bytes_onlyKey, length_append, List.length_reverse]
    rfl
  have harc : (arcBytes 0 true (onlyArc output)).length =
      2 + ((writeVint maximumI32).length + output.length) := by
    rw [arcBytes_onlyArc hlong, List.length_cons, List.length_cons, length_append]
    omega
  have hvint := length_writeVint_le maximumI32
  obtain ⟨start, hstart⟩ : ∃ start : Nat, ((onlyKey output).bytes.length : Int) - 1 = start :=
    ⟨(onlyKey output).bytes.length - 1, by omega⟩
  rw [hstart] at hfinish
  have hcount : (onlyKey output).arcWithOutputCount ≤ 1 := by
    show 0 + [onlyArc output].countP _ ≤ 1
    rw [Nat.zero_add]
    exact List.countP_le_length
  obtain ⟨bytes, hbytes, hread⟩ := @read_serialize { onlyKey output with dedup := dedup }
    (show (onlyKey output).bytes.length < _ by omega)
    (show 1 ≤ (onlyKey output).bytes.length by omega)
    (show 1 ≤ (onlyKey output).bytes.length by omega)
    (show (onlyKey output).arcWithOutputCount ≤ (onlyKey output).bytes.length by omega)
    (fun value hvalue => nomatch hvalue) start (by omega)
  refine ⟨bytes, _, by rw [hfinish]; exact hbytes, hread, ?_⟩
  have hseek : seek (onlyKey output).bytes start =
      some (arcBytes 0 true (onlyArc output) ++ [0]) := by
    rw [seek, if_neg (by omega), List.take_of_length_le (by omega), bytes_onlyKey,
      List.reverse_append, List.reverse_reverse]
    rfl
  have hfind : findTargetArc (onlyKey output).bytes start 97 =
      some { label := 97, output := output.take maximumI32, isFinal := true, target := -1 } := by
    obtain ⟨fuel, hfuel⟩ : ∃ fuel, (arcBytes 0 true (onlyArc output) ++ [0]).length = fuel + 1 :=
      ⟨(arcBytes 0 true (onlyArc output)).length, by rw [length_append]; rfl⟩
    rw [findTargetArc, if_neg (by omega), Int.toNat_natCast, hseek, bind_some, hfuel,
      if_neg, scan_onlyKey hlong]
    rw [arcBytes_onlyArc hlong]
    intro hhead
    exact absurd (Option.some.inj hhead) (by decide)
  show walk (onlyKey output).bytes _ [97] = _
  rw [walk, show (firstArc _).target = (start : Int) from rfl, hfind]
  simp [walk]

/-- An output of 2 GiB comes back shorter. -/
theorem long_output_cut : ¬ ∀ entries : List (Bytes × Bytes), entries ≠ [] → Sorted entries →
    ∃ bytes fst, (({} : FstBuilder).addAll entries >>= finish) = .ok bytes ∧
      Fst.read bytes = some (fst, []) ∧ ∀ key, fst.get key = entries.lookup key := by
  intro h
  obtain ⟨output, houtput⟩ : ∃ output : Bytes, output = List.replicate (2 ^ 31) 0 := ⟨_, rfl⟩
  have hlength : output.length = 2 ^ 31 := by rw [houtput, List.length_replicate]
  obtain ⟨bytes, fst, hbuild, hread, hget⟩ := h [([97], output)] (List.cons_ne_nil _ _)
    (List.pairwise_singleton _ _)
  obtain ⟨bytes', fst', hbuild', hread', hget'⟩ := @read_onlyKey output
    (by rw [hlength]; decide) (by rw [hlength]; decide)
  rw [hbuild, Except.ok.injEq] at hbuild'
  subst hbuild'
  rw [hread] at hread'
  cases hread'
  rw [hget, List.lookup_cons_self, Option.some.injEq] at hget'
  have := congrArg List.length hget'
  rw [List.length_take, hlength] at this
  exact absurd this (by decide)

end FstBuilder

end Froe
