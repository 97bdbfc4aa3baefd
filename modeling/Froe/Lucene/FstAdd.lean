import Froe.Lucene.FstFreeze

/-!
# Adding a key

Adding a key freezes what the last key has beyond the shared prefix, puts an arc for
each new label on the frontier, and pushes the part of the outputs that conflicts down
the shared prefix.  The frontier afterwards is that of the entries with the new one
(`add_spec`).
-/

namespace Froe

open List (mem_append mem_append_left mem_append_right mem_map mem_singleton mem_singleton_self
  take_add_one take_prefix)

open CodecOutput Prefixes Fst

namespace Fst

def setLastOutput (output : Bytes) (node : UnCompiledNode) : UnCompiledNode :=
  { node with arcs := modifyLast (fun arc => { arc with output := output }) node.arcs }

/-- An arc with bytes in front of its output. -/
def prependArc (pfx : Bytes) (arc : BuilderArc) : BuilderArc :=
  { arc with output := pfx ++ arc.output }

theorem prependOutput_eq (node : UnCompiledNode) (pfx : Bytes) :
    prependOutput node pfx =
      { node with
        arcs := node.arcs.map (prependArc pfx)
        output := if node.isFinal then pfx ++ node.output else node.output } := by
  cases pfx with
  | nil =>
    have : prependArc [] = id := rfl
    rw [this, List.map_id]
    show node = _
    cases node with
    | mk arcs isFinal output => cases isFinal <;> rfl
  | cons b pfx => rfl

theorem commonPrefix_eq (left right : Bytes) : commonPrefix left right = common left right := by
  rw [commonPrefix, sharedLength, length_takeWhile_zip, take_length_common]

theorem sharedLength_eq (left right : Bytes) :
    sharedLength left right = (common left right).length :=
  length_takeWhile_zip left right

/-- How a new key leaves the keys before it: they are all less, some has the shared prefix,
and none has more of it. -/
structure Branches (entries : List (Bytes × Bytes)) (key : Bytes) (shared : Nat) : Prop where
  lt : shared < key.length
  less : ∀ entry ∈ entries, entry.1 < key
  sharing : 0 < shared → ∃ entry ∈ entries, key.take shared <+: entry.1
  fresh : ∀ entry ∈ entries, ¬ key.take (shared + 1) <+: entry.1

variable {entries : List (Bytes × Bytes)} {key output : Bytes} {shared : Nat}

variable {i : Nat} {entry : Bytes × Bytes} {p : Bytes} {node : UnCompiledNode} {arc : BuilderArc}

theorem Branches.fresh_above (h : Branches entries key shared) (hi : shared < i) (hentry : entry ∈ entries) : ¬ key.take i <+: entry.1 := by
  intro hprefix
  exact h.fresh entry hentry ((List.take_prefix_take_left hi).trans hprefix)

theorem Branches.lookup_eq (h : Branches entries key shared) (p : Bytes) :
    (entries ++ [(key, output)]).lookup p = if p = key then some output else entries.lookup p := by
  by_cases hp : p = key
  · rw [if_pos hp, hp]
    refine lookup_concat_self fun entry hentry heq => ?_
    have := h.less entry hentry
    rw [heq] at this
    exact List.lt_irrefl _ this
  · rw [if_neg hp, lookup_concat_of_ne hp]

theorem take_ne_self (h : i < key.length) : key.take i ≠ key := by
  intro heq
  have := congrArg List.length heq
  rw [List.length_take] at this
  omega

theorem take_ne_nil (h : i < key.length) : key.take (i + 1) ≠ [] := by
  rw [← List.length_pos_iff, List.length_take]
  omega

section

variable (h : Branches entries key shared)
include h

/-- What the prefixes of the new key push from now on. -/
theorem Branches.pushed_eq (hi : i < shared) :
    pushed (entries ++ [(key, output)]) (key.take (i + 1)) =
      common (pushed entries (key.take (i + 1))) output := by
  obtain ⟨entry, hentry, hprefix⟩ := h.sharing (Nat.zero_lt_of_lt hi)
  refine pushed_concat_shared (take_ne_nil (Nat.lt_trans hi h.lt)) ( take_prefix _ _) ?_
  exact List.ne_nil_of_mem
    (mem_below.mpr ⟨hentry, (List.take_prefix_take_left hi).trans hprefix⟩)

theorem Branches.pushed_fresh (hi : shared ≤ i)
    (hlt : i < key.length) : pushed (entries ++ [(key, output)]) (key.take (i + 1)) = output := by
  refine pushed_concat_fresh (take_ne_nil hlt) ( take_prefix _ _) (below_eq_nil_iff.mpr ?_)
  intro entry hentry
  exact h.fresh_above (Nat.lt_succ_of_le hi) hentry

theorem Branches.pushed_old_le (hi : i ≤ shared) :
    pushed (entries ++ [(key, output)]) (key.take i) <+: pushed entries (key.take i) := by
  cases i with
  | zero => exact List.prefix_refl _
  | succ i =>
    rw [h.pushed_eq hi]
    exact common_prefix_left _ _

end

theorem pushed_new_le (i : Nat) :
    pushed (entries ++ [(key, output)]) (key.take i) <+: output :=
  pushed_le (mem_append_right _ (mem_singleton_self (key, output))) ( take_prefix _ _)

theorem pushed_succ_le (i : Nat) :
    pushed (entries ++ [(key, output)]) (key.take i) <+:
      pushed (entries ++ [(key, output)]) (key.take (i + 1)) :=
  pushed_mono (List.take_prefix_take_left (Nat.le_succ i))
    (mem_append_right _ (mem_singleton_self (key, output))) ( take_prefix _ _)

/-- What the prefix of a length gives up for the new output. -/
def givenUp (entries : List (Bytes × Bytes)) (key output : Bytes) (i : Nat) : Bytes :=
  (pushed entries (key.take i)).drop (pushed (entries ++ [(key, output)]) (key.take i)).length

/-- What the arc into the prefix of a length keeps. -/
def keptOutput (entries : List (Bytes × Bytes)) (key output : Bytes) (i : Nat) : Bytes :=
  (pushed (entries ++ [(key, output)]) (key.take (i + 1))).drop
    (pushed (entries ++ [(key, output)]) (key.take i)).length

@[simp] theorem givenUp_zero : givenUp entries key output 0 = [] := rfl

/-- Prepending what a prefix gives up makes the outputs below it relative to what it
still pushes. -/
theorem Branches.givenUp_append (h : Branches entries key shared) (hi : i ≤ shared)
    {full : Bytes} (hfull : pushed entries (key.take i) <+: full) :
    givenUp entries key output i ++ full.drop (pushed entries (key.take i)).length =
      full.drop (pushed (entries ++ [(key, output)]) (key.take i)).length :=
  drop_append_drop (h.pushed_old_le hi) hfull

/-! ## The shared prefix, node by node -/

theorem prefix_take_concat {c : UInt8} (hp : p = key.take i)
    (h : p ++ [c] <+: key) : key[i]? = some c ∧ p ++ [c] = key.take (i + 1) := by
  have hlen := h.length_le
  rw [List.length_append, List.length_singleton] at hlen
  by_cases hi : i ≤ key.length
  · have hpl : p.length = i := by rw [hp, List.length_take, Nat.min_eq_left hi]
    have htake : p ++ [c] = key.take (i + 1) := by
      have := List.prefix_iff_eq_take.mp h
      rwa [List.length_append, List.length_singleton, hpl] at this
    refine ⟨?_, htake⟩
    rw [take_add_one, ← hp, List.append_cancel_left_eq] at htake
    cases hget : key[i]? with
    | none => rw [hget] at htake; cases htake
    | some d =>
      rw [hget] at htake
      exact congrArg some (List.singleton_inj.mp htake).symm
  · have hpl : p = key := by rw [hp, List.take_of_length_le (Nat.le_of_not_le hi)]
    rw [hpl] at hlen
    omega

theorem labels_concat (hnode : NodeOf entries p node)
    (c : UInt8) : (∃ entry ∈ entries ++ [(key, output)], p ++ [c] <+: entry.1) ↔
      (∃ arc ∈ node.arcs, arc.label = c) ∨ p ++ [c] <+: key := by
  rw [hnode.labels c]
  constructor
  · rintro ⟨entry, hentry, hprefix⟩
    rcases mem_append.mp hentry with hentry | hentry
    · exact Or.inl ⟨entry, hentry, hprefix⟩
    · rw [mem_singleton.mp hentry] at hprefix
      exact Or.inr hprefix
  · rintro (⟨entry, hentry, hprefix⟩ | hprefix)
    · exact ⟨entry, mem_append_left _ hentry, hprefix⟩
    · exact ⟨_, mem_append_right _ (mem_singleton_self _), hprefix⟩

section

variable (h : Branches entries key shared)
include h

/-- The own output of a node on the shared prefix, once the prefix has given up its part. -/
theorem Branches.output_eq (hi : i ≤ shared) (hnode : NodeOf entries (key.take i) node) (hne : key.take i ≠ []) :
    (if node.isFinal then givenUp entries key output i ++ node.output else node.output) =
      ending (entries ++ [(key, output)]) (key.take i) := by
  have hlookup : (entries ++ [(key, output)]).lookup (key.take i) =
      entries.lookup (key.take i) := by
    rw [h.lookup_eq, if_neg (take_ne_self (Nat.lt_of_le_of_lt hi h.lt))]
  rw [hnode.isFinal, hnode.output hne]
  cases hfound : entries.lookup (key.take i) with
  | none =>
    rw [ending_of_not_lookup hfound, ending_of_not_lookup (hlookup.trans hfound)]
    rfl
  | some out =>
    rw [ending_of_lookup hfound, ending_of_lookup (hlookup.trans hfound)]
    exact h.givenUp_append hi (pushed_le (mem_of_lookup hfound) (List.prefix_refl _))

/-- The outputs of the old arcs of a node on the shared prefix, apart from the arc that the
new key takes as well. -/
theorem Branches.arc_output_eq (hi : i ≤ shared) (hnode : NodeOf entries (key.take i) node)
    (harc : arc ∈ node.arcs) (hother : key[i]? ≠ some arc.label) :
    givenUp entries key output i ++ arc.output =
      (pushed (entries ++ [(key, output)]) (key.take i ++ [arc.label])).drop
        (pushed (entries ++ [(key, output)]) (key.take i)).length := by
  obtain ⟨entry, hentry, hprefix⟩ := hnode.entry harc
  rw [hnode.outputs arc harc, h.givenUp_append hi
    (pushed_mono (List.prefix_append _ _) hentry hprefix),
    pushed_concat_other (p := key.take i ++ [arc.label])]
  intro hkey
  exact hother (prefix_take_concat rfl hkey).1

/-- A node above the end of the shared prefix, after the new key. -/
theorem Branches.nodeOf_above (hi : i < shared) (hnode : NodeOf entries (key.take i) node) {init : List BuilderArc} (harcs : node.arcs = init ++ [arc]) (hlabel : key[i]? = some arc.label) :
    NodeOf (entries ++ [(key, output)]) (key.take i)
      { node with
        arcs := init.map (prependArc (givenUp entries key output i)) ++
          [{ arc with output := keptOutput entries key output i }]
        output := if node.isFinal then givenUp entries key output i ++ node.output
          else node.output } where
  isFinal := by
    rw [h.lookup_eq, if_neg (take_ne_self (Nat.lt_trans hi h.lt)), hnode.isFinal]
  output hne := h.output_eq (Nat.le_of_lt hi) hnode hne
  ascending := by
    have hascending := hnode.ascending
    rw [harcs, Ascending, List.pairwise_append] at hascending
    refine List.pairwise_append.mpr ⟨List.pairwise_map.mpr hascending.1,
      List.pairwise_singleton _ _, ?_⟩
    intro a ha x hx
    obtain ⟨a', ha', rfl⟩ := mem_map.mp ha
    rw [mem_singleton.mp hx]
    exact hascending.2.2 a' ha' arc (mem_singleton_self _)
  labels c := by
    rw [labels_concat hnode c, harcs]
    constructor
    · rintro ⟨a, ha, rfl⟩
      refine Or.inl ?_
      rcases mem_append.mp ha with ha | ha
      · obtain ⟨a', ha', rfl⟩ := mem_map.mp ha
        exact ⟨a', mem_append_left _ ha', rfl⟩
      · rw [mem_singleton.mp ha]
        exact ⟨arc, mem_append_right _ (mem_singleton_self _), rfl⟩
    · have hlast : ∃ a ∈ init.map (prependArc (givenUp entries key output i)) ++
          [{ arc with output := keptOutput entries key output i }], a.label = arc.label :=
        ⟨_, mem_append_right _ (mem_singleton_self _), rfl⟩
      rintro (⟨a, ha, rfl⟩ | hkey)
      · rcases mem_append.mp ha with ha | ha
        · exact ⟨_, mem_append_left _ (List.mem_map_of_mem ha), rfl⟩
        · rw [mem_singleton.mp ha]
          exact hlast
      · have := (prefix_take_concat rfl hkey).1
        rw [hlabel] at this
        rw [← Option.some.inj this]
        exact hlast
  outputs := by
    intro a ha
    rcases mem_append.mp ha with ha | ha
    · obtain ⟨a', ha', rfl⟩ := mem_map.mp ha
      have hmem : a' ∈ node.arcs := harcs ▸ mem_append_left _ ha'
      refine h.arc_output_eq (Nat.le_of_lt hi) hnode hmem ?_
      -- the last arc has the label of the key, and the others have smaller ones
      have hascending := hnode.ascending
      rw [harcs, Ascending, List.pairwise_append] at hascending
      have hlt := hascending.2.2 a' ha' arc (mem_singleton_self _)
      intro heq
      rw [hlabel] at heq
      rw [Option.some.inj heq] at hlt
      exact UInt8.lt_irrefl _ hlt
    · rw [mem_singleton.mp ha]
      show keptOutput entries key output i = _
      rw [keptOutput, take_add_one, hlabel]
      rfl

end

theorem label_lt_of_key {a c : UInt8}
    (hentry : p ++ [a] <+: entry.1) (hkey : p ++ [c] <+: key) (hlt : entry.1 < key)
    (hne : a ≠ c) : a < c := by
  obtain ⟨s, hs⟩ := hentry
  obtain ⟨t, rfl⟩ := hkey
  rw [← hs] at hlt
  clear hs
  induction p with
  | nil =>
    simp only [List.nil_append, List.cons_append] at hlt
    rcases List.cons_lt_cons_iff.mp hlt with h | h
    · exact h
    · exact absurd h.1 hne
  | cons x p ih =>
    simp only [List.cons_append] at hlt ih
    rcases List.cons_lt_cons_iff.mp hlt with h | h
    · exact absurd h (UInt8.lt_irrefl x)
    · exact ih h.2

section

variable (h : Branches entries key shared)
include h

/-- The node at the end of the shared prefix, after the new key. -/
theorem Branches.nodeOf_shared
    (hnode : NodeOf entries (key.take shared) node) (hlabel : key[shared]? = some arc.label) :
    NodeOf (entries ++ [(key, output)]) (key.take shared)
      { node with
        arcs := node.arcs.map (prependArc (givenUp entries key output shared)) ++
          [{ arc with output := keptOutput entries key output shared }]
        output := if node.isFinal then givenUp entries key output shared ++ node.output
          else node.output } := by
  have htake : key.take shared ++ [arc.label] = key.take (shared + 1) := by
    rw [take_add_one, hlabel]
    rfl
  have hnew : ∀ a ∈ node.arcs, a.label ≠ arc.label := by
    intro a ha heq
    obtain ⟨entry, hentry, hprefix⟩ := hnode.entry ha
    rw [heq, htake] at hprefix
    exact h.fresh entry hentry hprefix
  refine ⟨?_, h.output_eq (Nat.le_refl _) hnode, ?_, ?_, ?_⟩
  · rw [h.lookup_eq, if_neg (take_ne_self h.lt), hnode.isFinal]
  · refine List.pairwise_append.mpr ⟨List.pairwise_map.mpr hnode.ascending,
      List.pairwise_singleton _ _, ?_⟩
    intro a ha x hx
    obtain ⟨a', ha', rfl⟩ := mem_map.mp ha
    rw [mem_singleton.mp hx]
    obtain ⟨entry, hentry, hprefix⟩ := hnode.entry ha'
    refine label_lt_of_key hprefix ?_ (h.less entry hentry) (hnew a' ha')
    show key.take shared ++ [arc.label] <+: key
    rw [htake]
    exact take_prefix _ _
  · intro c
    rw [labels_concat hnode c]
    constructor
    · rintro ⟨a, ha, rfl⟩
      rcases mem_append.mp ha with ha | ha
      · obtain ⟨a', ha', rfl⟩ := mem_map.mp ha
        exact Or.inl ⟨a', ha', rfl⟩
      · rw [mem_singleton.mp ha]
        show _ ∨ key.take shared ++ [arc.label] <+: key
        rw [htake]
        exact Or.inr ( take_prefix _ _)
    · rintro (⟨a, ha, rfl⟩ | hkey)
      · exact ⟨_, mem_append_left _ (List.mem_map_of_mem ha), rfl⟩
      · have := (prefix_take_concat rfl hkey).1
        rw [hlabel] at this
        exact ⟨_, mem_append_right _ (mem_singleton_self _), Option.some.inj this⟩
  · intro a ha
    rcases mem_append.mp ha with ha | ha
    · obtain ⟨a', ha', rfl⟩ := mem_map.mp ha
      refine h.arc_output_eq (Nat.le_refl _) hnode ha' ?_
      intro heq
      rw [hlabel] at heq
      exact hnew a' ha' (Option.some.inj heq).symm
    · rw [mem_singleton.mp ha]
      show keptOutput entries key output shared = _
      rw [keptOutput, ← htake]

/-- A node that the new key adds, above its end. -/
theorem Branches.nodeOf_beyond (hi : shared < i) (hlabel : key[i]? = some arc.label) (houtput : arc.output = []) :
    NodeOf (entries ++ [(key, output)]) (key.take i) { arcs := [arc] } := by
  have hlt : i < key.length := (List.getElem?_eq_some_iff.mp hlabel).1
  have htake : key.take i ++ [arc.label] = key.take (i + 1) := by
    rw [take_add_one, hlabel]
    rfl
  have hnone : (entries ++ [(key, output)]).lookup (key.take i) = none := by
    rw [h.lookup_eq, if_neg (take_ne_self hlt), List.lookup_eq_none_iff]
    intro entry hentry
    rw [bne_iff_ne]
    intro heq
    exact h.fresh_above hi hentry (heq ▸ List.prefix_refl _)
  refine ⟨?_, fun _ => (ending_of_not_lookup hnone).symm, List.pairwise_singleton _ _, ?_, ?_⟩
  · rw [hnone]
    rfl
  · intro c
    constructor
    · rintro ⟨a, ha, rfl⟩
      rw [mem_singleton.mp ha, htake]
      exact ⟨_, mem_append_right _ (mem_singleton_self (key, output)),
        take_prefix _ _⟩
    · rintro ⟨entry, hentry, hprefix⟩
      refine ⟨arc, mem_singleton_self _, ?_⟩
      rcases mem_append.mp hentry with hentry | hentry
      · exact absurd ((List.prefix_append _ _).trans hprefix) (h.fresh_above hi hentry)
      · rw [mem_singleton.mp hentry] at hprefix
        have := (prefix_take_concat rfl hprefix).1
        rw [hlabel] at this
        exact Option.some.inj this
  · intro a ha
    obtain ⟨j, rfl⟩ := Nat.exists_eq_succ_of_ne_zero (Nat.ne_zero_of_lt hi)
    rw [mem_singleton.mp ha, houtput, htake, h.pushed_fresh (Nat.le_of_lt hi) hlt,
      h.pushed_fresh (Nat.le_of_lt_succ hi) (Nat.lt_of_succ_lt hlt), List.drop_length]

theorem Branches.nodeOf_end :
    NodeOf (entries ++ [(key, output)]) (key.take key.length) { isFinal := true } := by
  have hlt := h.lt
  have hsome : (entries ++ [(key, output)]).lookup key = some output := by
    rw [h.lookup_eq, if_pos rfl]
  have hpushed : pushed (entries ++ [(key, output)]) key = output := by
    have hlast : pushed (entries ++ [(key, output)]) (key.take (key.length - 1 + 1)) = output :=
      h.pushed_fresh (by omega) (by omega)
    rwa [Nat.sub_add_cancel (by omega), List.take_length] at hlast
  rw [List.take_length]
  refine ⟨?_, ?_, List.Pairwise.nil, ?_, fun arc harc => nomatch harc⟩
  · rw [hsome]
    rfl
  · intro _
    rw [ending_of_lookup hsome, hpushed, List.drop_length]
  · intro c
    constructor
    · rintro ⟨a, ha, -⟩
      cases ha
    · rintro ⟨entry, hentry, hprefix⟩
      rcases mem_append.mp hentry with hentry | hentry
      · have hkey := (List.prefix_append key [c]).trans hprefix
        rw [← List.take_length (l := key)] at hkey
        exact absurd hkey (h.fresh_above hlt hentry)
      · rw [mem_singleton.mp hentry] at hprefix
        have : (key ++ [c]).length ≤ key.length := hprefix.length_le
        rw [List.length_append, List.length_singleton] at this
        omega

end

end Fst

namespace FstBuilder

variable {all entries : List (Bytes × Bytes)} {key output : Bytes} {shared : Nat} {b : FstBuilder}

/-! ## The loops of one addition -/

theorem getD_eq_of_getElem? {i : Nat} {c : UInt8} (h : key[i]? = some c) : key.getD i 0 = c := by
  rw [List.getD_eq_getElem?_getD, h]
  rfl

/-- Every new label gets an arc from the node before it. -/
theorem pushArcs_spec (n : Nat) (hlength : shared + n < b.frontier.length) :
    let b' := (List.range' (shared + 1) n).foldl (fun b index =>
      b.modifyNode (index - 1) fun node =>
        { node with arcs := node.arcs ++ [{ label := key.getD (index - 1) 0 }] }) b
    SameStore b b' ∧ b'.frontier.length = b.frontier.length ∧
      (∀ i, shared ≤ i → i < shared + n → b'.node i =
        { b.node i with arcs := (b.node i).arcs ++ [{ label := key.getD i 0 }] }) ∧
      ∀ i, i < shared ∨ shared + n ≤ i → b'.node i = b.node i := by
  induction n with
  | zero => exact ⟨SameStore.refl b, rfl, fun i _ _ => by omega, fun _ _ => rfl⟩
  | succ n ih =>
    obtain ⟨hsame, hlen, hin, hout⟩ := ih (by omega)
    simp only [List.range'_1_concat, List.foldl_append, List.foldl_cons, List.foldl_nil]
    have hindex : shared + 1 + n - 1 = shared + n := by omega
    rw [hindex]
    refine ⟨hsame.trans (SameStore.modifyNode ..), by rw [length_modifyNode, hlen], ?_, ?_⟩
    · intro i hi hlt
      rcases Nat.lt_or_eq_of_le (show i ≤ shared + n by omega) with hlt | rfl
      · rw [node_modifyNode_ne (by omega), hin i hi hlt]
      · rw [node_modifyNode_self (by rw [hlen]; omega), hout _ (Or.inr (Nat.le_refl _))]
    · intro i hi
      rw [node_modifyNode_ne (by omega), hout i (by omega)]

variable {init : List BuilderArc}

theorem setLastOutput_concat {node : UnCompiledNode} {arc : BuilderArc}
    (h : node.arcs = init ++ [arc]) (out : Bytes) :
    setLastOutput out node = { node with arcs := init ++ [{ arc with output := out }] } := by
  rw [setLastOutput, h, modifyLast_concat]

/-- One round of pushing: the arc keeps what it shares, and the node below takes the rest. -/
theorem pushOutput_eq {index : Nat} (hlength : index + 1 < b.frontier.length) {arc : BuilderArc} (harcs : (b.node index).arcs = init ++ [arc])
    (hlabel : key[index]? = some arc.label) (remaining : Bytes) :
    ∃ b', pushOutput key (b, remaining) (index + 1) =
        (b', remaining.drop (common remaining arc.output).length) ∧
      SameStore b b' ∧ b'.frontier.length = b.frontier.length ∧
      b'.node index = setLastOutput (common remaining arc.output) (b.node index) ∧
      b'.node (index + 1) =
        prependOutput (b.node (index + 1)) (arc.output.drop (common remaining arc.output).length) ∧
      ∀ i, i ≠ index → i ≠ index + 1 → b'.node i = b.node i := by
  have hlast : (((b.node index).arcs.getLast?.filter fun arc => arc.label == key.getD index 0).map
      fun arc => arc.output).getD [] = arc.output := by
    rw [harcs, List.getLast?_concat, getD_eq_of_getElem? hlabel, Option.filter_some,
      if_pos (beq_self_eq_true _)]
    rfl
  rw [pushOutput]
  simp only [Nat.add_sub_cancel, hlast, commonPrefix_eq]
  by_cases hempty : arc.output = []
  · -- an arc that has nothing to give up stays as it is
    rw [if_pos (by simpa using hempty)]
    refine ⟨b, ?_, SameStore.refl b, rfl, ?_, ?_, fun _ _ _ => rfl⟩
    · rw [hempty, common_nil]
      rfl
    · rw [setLastOutput_concat harcs, hempty, common_nil, ← hempty, ← harcs]
    · rw [hempty, common_nil]
      rfl
  · rw [if_neg (by simpa using hempty)]
    refine ⟨_, rfl, (SameStore.modifyNode ..).trans (SameStore.modifyNode ..),
      by rw [length_modifyNode, length_modifyNode], ?_, ?_, ?_⟩
    · rw [node_modifyNode_ne (Nat.succ_ne_self index), node_modifyNode_self (by omega)]
      rfl
    · rw [node_modifyNode_self (by rw [length_modifyNode]; exact hlength),
        node_modifyNode_ne (Nat.succ_ne_self index).symm]
    · intro i hi hi'
      rw [node_modifyNode_ne (Ne.symm hi'), node_modifyNode_ne (Ne.symm hi)]

/-- The whole loop of pushing, down to a depth of the shared prefix. -/
theorem pushOutputs_spec (h : Branches entries key shared) (hlength : shared < b.frontier.length)
    (hnode : ∀ i < shared, ∃ init arc, (b.node i).arcs = init ++ [arc] ∧
      key[i]? = some arc.label ∧ arc.output =
        (pushed entries (key.take (i + 1))).drop (pushed entries (key.take i)).length)
    (m : Nat) (hm : m ≤ shared) :
    ∃ b', (List.range' 1 m).foldl (pushOutput key) (b, output) =
        (b', output.drop (pushed (entries ++ [(key, output)]) (key.take m)).length) ∧
      SameStore b b' ∧ b'.frontier.length = b.frontier.length ∧
      (∀ i < m, b'.node i = setLastOutput (keptOutput entries key output i)
        (prependOutput (b.node i) (givenUp entries key output i))) ∧
      b'.node m = prependOutput (b.node m) (givenUp entries key output m) ∧
      ∀ i, m < i → b'.node i = b.node i := by
  induction m with
  | zero =>
    refine ⟨b, ?_, SameStore.refl b, rfl, fun i hi => by omega, rfl, fun _ _ => rfl⟩
    rw [List.take_zero, pushed_nil]
    rfl
  | succ m ih =>
    obtain ⟨c, hfold, hsame, hlen, hdone, hat, hlater⟩ := ih (Nat.le_of_succ_le hm)
    obtain ⟨init, arc, harcs, hlabel, houtput⟩ := hnode m hm
    have hcarcs : (c.node m).arcs = init.map (prependArc (givenUp entries key output m)) ++
        [prependArc (givenUp entries key output m) arc] := by
      rw [hat, prependOutput_eq, harcs, List.map_append, List.map_singleton]
    obtain ⟨b', hpush, hsame', hlen', hatm, hatsucc, hothers⟩ :=
      pushOutput_eq (by omega : m + 1 < c.frontier.length) hcarcs hlabel
        (output.drop (pushed (entries ++ [(key, output)]) (key.take m)).length)
    -- what the arc has once the prefix above it has given up its part
    have hmono : pushed entries (key.take m) <+: pushed entries (key.take (m + 1)) := by
      obtain ⟨entry, hentry, hprefix⟩ := h.sharing (by omega)
      exact pushed_mono (List.take_prefix_take_left (Nat.le_succ m)) hentry
        ((List.take_prefix_take_left hm).trans hprefix)
    have harcOutput : (prependArc (givenUp entries key output m) arc).output =
        (pushed entries (key.take (m + 1))).drop
          (pushed (entries ++ [(key, output)]) (key.take m)).length := by
      rw [prependArc, houtput]
      exact h.givenUp_append (Nat.le_of_succ_le hm) hmono
    have hcommon : common (output.drop (pushed (entries ++ [(key, output)]) (key.take m)).length)
        ((pushed entries (key.take (m + 1))).drop
          (pushed (entries ++ [(key, output)]) (key.take m)).length) =
        keptOutput entries key output m := by
      rw [common_drop (pushed_new_le m)
        ((h.pushed_old_le (Nat.le_of_succ_le hm)).trans hmono), common_comm, keptOutput,
        h.pushed_eq hm]
    rw [harcOutput, hcommon] at hpush hatsucc hatm
    have hkept : (pushed (entries ++ [(key, output)]) (key.take m)).length +
        (keptOutput entries key output m).length =
        (pushed (entries ++ [(key, output)]) (key.take (m + 1))).length := by
      rw [keptOutput, List.length_drop]
      exact Nat.add_sub_cancel' (pushed_succ_le m).length_le
    refine ⟨b', ?_, hsame.trans hsame', hlen'.trans hlen, ?_, ?_, ?_⟩
    · rw [List.range'_1_concat, List.foldl_append, hfold, List.foldl_cons, List.foldl_nil,
        Nat.add_comm 1 m, hpush, List.drop_drop, hkept]
    · intro i hi
      rcases Nat.lt_or_eq_of_le (Nat.le_of_lt_succ hi) with hlt | rfl
      · rw [hothers i (by omega) (by omega), hdone i hlt]
      · rw [hatm, hat]
    · rw [hatsucc, hlater (m + 1) (Nat.lt_succ_self m), List.drop_drop, hkept]
      rfl
    · intro i hi
      rw [hothers i (by omega) (by omega), hlater i (by omega)]

end FstBuilder

end Froe
