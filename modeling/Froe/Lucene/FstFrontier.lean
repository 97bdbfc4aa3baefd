import Froe.Lucene.FstStore

/-!
# The frontier of a transducer under construction

The frontier holds one node for every prefix of the last key.  `Building` says how it and
the store stand when everything below a depth has been frozen, and freezing one more
node keeps it (`freezeNode_spec`).  The store takes no more than the entries do
(`Building.length_lt`), so that every address fits its encoding.
-/

namespace Froe

open CodecOutput Prefixes

namespace Fst

/-! ## Changing the last arc and one node -/

section ModifyLast

variable {α : Type} (f : α → α)

@[simp] theorem modifyLast_concat (l : List α) (a : α) : modifyLast f (l ++ [a]) = l ++ [f a] := by
  rw [modifyLast, List.getLast?_concat]
  simp only [List.dropLast_concat]

@[simp] theorem modifyLast_nil : modifyLast f [] = [] := rfl

end ModifyLast

end Fst

namespace FstBuilder

open Fst

theorem node_modifyNode_self {b : FstBuilder} {i : Nat} (h : i < b.frontier.length)
    (f : UnCompiledNode → UnCompiledNode) : (b.modifyNode i f).node i = f (b.node i) := by
  rw [node, node, modifyNode, List.getD_eq_getElem?_getD, List.getElem?_modify_eq,
    List.getD_eq_getElem?_getD, List.getElem?_eq_getElem h]
  rfl

theorem node_modifyNode_ne {b : FstBuilder} {i j : Nat} (h : i ≠ j)
    (f : UnCompiledNode → UnCompiledNode) : (b.modifyNode i f).node j = b.node j := by
  rw [node, node, modifyNode, List.getD_eq_getElem?_getD, List.getElem?_modify_ne _ _ h,
    List.getD_eq_getElem?_getD]

@[simp] theorem length_modifyNode (b : FstBuilder) (i : Nat) (f : UnCompiledNode → UnCompiledNode) :
    (b.modifyNode i f).frontier.length = b.frontier.length :=
  List.length_modify ..

/-- Changing the frontier leaves the rest of the builder alone. -/
def SameStore (b b' : FstBuilder) : Prop := b' = { b with frontier := b'.frontier }

section SameStore

variable {b b' : FstBuilder} (h : SameStore b b')
include h

theorem SameStore.bytes : b'.bytes = b.bytes := by rw [h]

theorem SameStore.lastInput : b'.lastInput = b.lastInput := by rw [h]

theorem SameStore.emptyOutput : b'.emptyOutput = b.emptyOutput := by rw [h]

theorem SameStore.finished : b'.finished = b.finished := by rw [h]

theorem SameStore.storeOf (hb : StoreOf b) : StoreOf b' := by
  rw [h]
  exact ⟨hb.nonempty, hb.lastFrozenNode, hb.dedup, hb.nodeCount, hb.arcCount,
    hb.arcWithOutputCount⟩

theorem SameStore.trans {c : FstBuilder} (h' : SameStore b' c) : SameStore b c := by
  rw [SameStore, h', h]

end SameStore

theorem SameStore.refl (b : FstBuilder) : SameStore b b := rfl

theorem SameStore.modifyNode (b : FstBuilder) (i : Nat) (f : UnCompiledNode → UnCompiledNode) :
    SameStore b (b.modifyNode i f) := rfl

end FstBuilder

namespace Fst

/-! ## What fits -/

/-- The size of the entries, with what an arc takes for every byte of a key. -/
def footprint (entries : List (Bytes × Bytes)) : Nat :=
  (entries.map fun entry => 21 * entry.1.length + entry.2.length).sum

/-- Every part into which the outputs are split has a length that is an `i32`, and the
entries fit an address space. -/
structure Fits (entries : List (Bytes × Bytes)) : Prop where
  arcs : ∀ entry ∈ entries, ∀ p c, p ++ [c] <+: entry.1 →
    (pushed entries (p ++ [c])).length - (pushed entries p).length ≤ maximumI32
  ends : ∀ entry ∈ entries, entry.1 ≠ [] →
    entry.2.length - (pushed entries entry.1).length ≤ maximumI32
  empty : ∀ output, ([], output) ∈ entries → output.length + 5 ≤ maximumI32
  size : footprint entries + 1 < 2 ^ 63

variable {all entries : List (Bytes × Bytes)} {p : Bytes} {node : UnCompiledNode}

theorem NodeOf.settled (h : NodeOf entries p node) (hsettled : Settled all entries p) :
    NodeOf all p node where
  isFinal := by rw [h.isFinal, hsettled.lookup_eq (List.prefix_refl p)]
  output hp := by rw [h.output hp, hsettled.ending_eq]
  ascending := h.ascending
  labels c := by rw [h.labels c, hsettled.exists_iff (List.prefix_append _ _)]
  outputs arc harc := by
    rw [h.outputs arc harc, (hsettled.mono (List.prefix_append _ _)).pushed_eq,
      hsettled.pushed_eq]

variable {arc : BuilderArc} {written : List Bytes}

theorem NodeOf.entry (h : NodeOf all p node) (harc : arc ∈ node.arcs) :
    ∃ entry ∈ all, p ++ [arc.label] <+: entry.1 :=
  (h.labels arc.label).mp ⟨arc, harc, rfl⟩

theorem length_ending_of_lookup {output : Bytes} (h : entries.lookup p = some output) :
    (ending entries p).length = output.length - (pushed entries p).length := by
  rw [ending_of_lookup h, List.length_drop]

/-- The frozen arcs of a node can be written. -/
theorem encodable_of_fits (hfits : Fits all) (hnode : NodeOf all p node) {store : Bytes}
    (hstore : store.length < 2 ^ 63) (harc : arc ∈ node.arcs)
    (hof : ArcOf all store (p ++ [arc.label]) arc) : Encodable arc where
  output_le := by
    obtain ⟨entry, hentry, hprefix⟩ := hnode.entry harc
    rw [hnode.outputs arc harc, List.length_drop]
    exact hfits.arcs entry hentry _ _ hprefix
  finalOutput_le := by
    rw [hof.finalOutput]
    cases hlookup : all.lookup (p ++ [arc.label]) with
    | none =>
      rw [ending_of_not_lookup hlookup]
      exact Nat.zero_le _
    | some output =>
      rw [length_ending_of_lookup hlookup]
      exact hfits.ends _ (mem_of_lookup hlookup) (by simp)
  finalOutput_nil := by
    intro hfinal
    rw [hof.finalOutput]
    apply ending_of_not_lookup
    rw [hof.isFinal] at hfinal
    exact Option.not_isSome_iff_eq_none.mp (by rw [hfinal]; exact Bool.false_ne_true)
  le_target := hof.le_target
  target_lt := by
    have := hof.target_lt
    omega

/-! ## The size of the store -/

/-- What the arc to a prefix takes at most. -/
def cost (all : List (Bytes × Bytes)) (q : Bytes) : Nat :=
  21 + ((pushed all q).length - (pushed all q.dropLast).length) + (ending all q).length

theorem arcCost_eq (hnode : NodeOf all p node) {store : Bytes}
    (harc : arc ∈ node.arcs) (hof : ArcOf all store (p ++ [arc.label]) arc) :
    arcCost arc = cost all (p ++ [arc.label]) := by
  rw [arcCost, cost, hnode.outputs arc harc, hof.finalOutput, List.length_drop,
    List.dropLast_concat]

/-- Distinct elements with a weight lie in a list that weighs as much at least. -/
theorem sum_le_of_nodup {α : Type} [DecidableEq α] {g : α → Nat} {l r : List α} (hl : l.Nodup)
    (h : ∀ a ∈ l, g a ≠ 0 → a ∈ r) : (l.map g).sum ≤ (r.map g).sum := by
  induction l generalizing r with
  | nil => exact Nat.zero_le _
  | cons a l ih =>
    obtain ⟨hfresh, hl⟩ := List.nodup_cons.mp hl
    rw [List.map_cons, List.sum_cons]
    by_cases ha : g a = 0
    · rw [ha, Nat.zero_add]
      exact ih hl fun b hb => h b (List.mem_cons_of_mem _ hb)
    · have har := h a (List.mem_cons_self ..) ha
      have hperm := ((List.perm_cons_erase har).map g).sum_eq
      rw [hperm, List.map_cons, List.sum_cons]
      refine Nat.add_le_add_left (ih hl fun b hb hgb => ?_) _
      have hne : b ≠ a := by
        rintro rfl
        exact hfresh hb
      exact (List.mem_erase_of_ne hne).mpr (h b (List.mem_cons_of_mem _ hb) hgb)

theorem sum_map_flatMap {α β : Type} (f : α → List β) (g : β → Nat) (l : List α) :
    ((l.flatMap f).map g).sum = (l.map fun a => ((f a).map g).sum).sum := by
  induction l with
  | nil => rfl
  | cons a l ih => rw [List.flatMap_cons, List.map_append, List.sum_append, ih]; rfl

/-- What the arc to a prefix takes without the ending there. -/
def passage (all : List (Bytes × Bytes)) (q : Bytes) : Nat :=
  21 + ((pushed all q).length - (pushed all q.dropLast).length)

/-- The prefixes of a key that an arc leads to. -/
def prefixes (key : Bytes) : List Bytes := (List.range key.length).map fun i => key.take (i + 1)

theorem mem_prefixes {q key : Bytes} (hq : q ≠ []) (h : q <+: key) : q ∈ prefixes key := by
  refine List.mem_map.mpr ⟨q.length - 1, List.mem_range.mpr ?_, ?_⟩
  · have := h.length_le
    have := List.length_pos_iff.mpr hq
    omega
  · rw [Nat.sub_add_cancel (List.length_pos_iff.mpr hq)]
    exact (List.prefix_iff_eq_take.mp h).symm

/-- Along one key the parts of its output add up. -/
theorem sum_passage {entry : Bytes × Bytes} (hentry : entry ∈ all) :
    ((prefixes entry.1).map (passage all)).sum =
      21 * entry.1.length + (pushed all entry.1).length := by
  suffices h : ∀ n ≤ entry.1.length,
      ((List.range n).map fun i => passage all (entry.1.take (i + 1))).sum =
        21 * n + (pushed all (entry.1.take n)).length by
    rw [prefixes, List.map_map]
    have := h entry.1.length (Nat.le_refl _)
    rwa [List.take_length] at this
  intro n
  induction n with
  | zero =>
    intro _
    rw [List.take_zero, pushed_nil]
    rfl
  | succ n ih =>
    intro hn
    have hdrop : (entry.1.take (n + 1)).dropLast = entry.1.take n := by
      rw [List.dropLast_eq_take, List.length_take, Nat.min_eq_left hn, List.take_take,
        Nat.add_sub_cancel, Nat.min_eq_left (Nat.le_succ n)]
    have hmono : (pushed all (entry.1.take n)).length ≤ (pushed all (entry.1.take (n + 1))).length :=
      (pushed_mono (List.take_prefix_take_left (Nat.le_succ n)) hentry
        (List.take_prefix _ _)).length_le
    rw [List.range_succ, List.map_append, List.sum_append, ih (Nat.le_of_succ_le hn),
      List.map_singleton, List.sum_singleton, passage, hdrop]
    omega

theorem length_pushed_add_ending {entry : Bytes × Bytes}
    (hlookup : all.lookup entry.1 = some entry.2) :
    (pushed all entry.1).length + (ending all entry.1).length = entry.2.length := by
  rw [length_ending_of_lookup hlookup]
  exact Nat.add_sub_cancel' (pushed_le (mem_of_lookup hlookup) (List.prefix_refl _)).length_le

theorem Sorted.lookup_eq (h : Sorted all) {entry : Bytes × Bytes} (hentry : entry ∈ all) :
    all.lookup entry.1 = some entry.2 := by
  obtain ⟨before, after, rfl⟩ := List.append_of_mem hentry
  refine List.lookup_eq_some_iff.mpr ⟨before, after, rfl, fun other hother => ?_⟩
  have hlt := (List.pairwise_append.mp h).2.2 other hother entry (List.mem_cons_self ..)
  have hne : entry.1 ≠ other.1 := by
    intro heq
    rw [heq] at hlt
    exact List.lt_irrefl _ hlt
  exact bne_iff_ne.mpr hne

/-- What distinct arcs take together is within the size of the entries. -/
theorem sum_cost_le (hsorted : Sorted all) (hnodup : written.Nodup)
    (hmem : ∀ q ∈ written, q ≠ [] ∧ ∃ entry ∈ all, q <+: entry.1) :
    (written.map (cost all)).sum ≤ footprint all := by
  have hpassage : (written.map (passage all)).sum ≤
      ((all.flatMap fun entry => prefixes entry.1).map (passage all)).sum := by
    refine sum_le_of_nodup hnodup fun q hq _ => ?_
    obtain ⟨hne, entry, hentry, hprefix⟩ := hmem q hq
    exact List.mem_flatMap.mpr ⟨entry, hentry, mem_prefixes hne hprefix⟩
  have hending : (written.map fun q => (ending all q).length).sum ≤
      ((all.map fun entry => entry.1).map fun q => (ending all q).length).sum := by
    refine sum_le_of_nodup hnodup fun q hq hne => ?_
    cases hlookup : all.lookup q with
    | none => exact absurd (by rw [ending_of_not_lookup hlookup]; rfl) hne
    | some output => exact List.mem_map.mpr ⟨_, mem_of_lookup hlookup, rfl⟩
  have hsplit : (written.map (cost all)).sum =
      (written.map (passage all)).sum + (written.map fun q => (ending all q).length).sum := by
    rw [← List.sum_map_add]
    rfl
  have htotal : ((all.flatMap fun entry => prefixes entry.1).map (passage all)).sum +
      ((all.map fun entry => entry.1).map fun q => (ending all q).length).sum = footprint all := by
    rw [sum_map_flatMap, List.map_map, ← List.sum_map_add, footprint]
    congr 1
    refine List.map_congr_left fun entry hentry => ?_
    rw [sum_passage hentry, ← length_pushed_add_ending (hsorted.lookup_eq hentry), Nat.add_assoc]
    rfl
  omega

/-! ## The frontier -/

/-- The prefixes whose arcs are in the store; none of them is below the frontier from a
depth up. -/
structure Written (entries : List (Bytes × Bytes)) (path : Bytes) (depth : Nat)
    (written : List Bytes) : Prop where
  nodup : written.Nodup
  entry : ∀ q ∈ written, q ≠ [] ∧ ∃ entry ∈ entries, q <+: entry.1
  apart : ∀ q ∈ written, ∀ i ≤ depth, q.dropLast ≠ path.take i

/-- The arcs of a node on the frontier are apart from those in the store. -/
theorem Written.children {path : Bytes} {depth : Nat}
    (h : Written entries path depth written) (hp : p = path.take depth)
    (hnode : NodeOf entries p node) :
    (written ++ node.arcs.map fun arc => p ++ [arc.label]).Nodup ∧
      ∀ q ∈ written ++ node.arcs.map fun arc => p ++ [arc.label],
        q ≠ [] ∧ ∃ entry ∈ entries, q <+: entry.1 := by
  constructor
  · refine List.nodup_append.mpr ⟨h.nodup, ?_, ?_⟩
    · rw [List.nodup_iff_pairwise_ne, List.pairwise_map]
      refine hnode.ascending.imp fun {x y} hxy heq => ?_
      have := List.append_cancel_left heq
      rw [List.singleton_inj] at this
      rw [this] at hxy
      exact UInt8.lt_irrefl _ hxy
    · intro q hq r hr heq
      obtain ⟨arc, -, rfl⟩ := List.mem_map.mp hr
      refine h.apart q hq depth (Nat.le_refl _) ?_
      rw [heq, List.dropLast_concat, hp]
  · intro q hq
    rcases List.mem_append.mp hq with hq | hq
    · exact h.entry q hq
    · obtain ⟨arc, harc, rfl⟩ := List.mem_map.mp hq
      exact ⟨by simp, hnode.entry harc⟩

/-- The builder after some entries, frozen below a depth of the path. -/
structure Building (all entries : List (Bytes × Bytes)) (path : Bytes) (depth : Nat)
    (b : FstBuilder) : Prop where
  store : StoreOf b
  depth_le : depth ≤ path.length
  length_lt : path.length < b.frontier.length
  node : ∀ i ≤ depth, NodeOf entries (path.take i) (b.node i)
  last : ∀ i < depth, ∃ init arc, (b.node i).arcs = init ++ [arc] ∧ path[i]? = some arc.label
  frozen : ∀ i < depth, ∀ arc ∈ (b.node i).arcs.dropLast,
    ArcOf all b.bytes (path.take i ++ [arc.label]) arc
  frozenAt : ∀ arc ∈ (b.node depth).arcs, ArcOf all b.bytes (path.take depth ++ [arc.label]) arc
  beyond : ∀ i, depth < i → b.node i = {}
  size : ∃ written, Written entries path depth written ∧
    b.bytes.length ≤ 1 + (written.map (cost all)).sum
  emptyOutput : b.emptyOutput = entries.lookup []
  finished : b.finished = false

/-- The store stays within the size of the entries. -/
theorem Building.bytes_lt {path : Bytes} {depth : Nat} {b : FstBuilder}
    (h : Building all entries path depth b) (hsorted : Sorted all) (hfits : Fits all)
    (hsub : entries ⊆ all) : b.bytes.length < 2 ^ 63 := by
  obtain ⟨written, hwritten, hle⟩ := h.size
  have hcost := sum_cost_le hsorted hwritten.nodup fun q hq => by
    obtain ⟨hne, entry, hentry, hprefix⟩ := hwritten.entry q hq
    exact ⟨hne, entry, hsub hentry, hprefix⟩
  have := hfits.size
  omega

end Fst

end Froe
