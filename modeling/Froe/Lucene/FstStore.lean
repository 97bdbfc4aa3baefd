import Froe.Lucene.FstNodes
import Froe.Lucene.FstOutputs

/-!
# The frozen part of a transducer

What a node holds at a prefix (`NodeOf`), what a frozen arc leads to (`ArcOf`), and what
the builder keeps true of its store (`StoreOf`).  Compiling a complete node makes the
arc to it a frozen arc (`compileNode_spec`).
-/

namespace Froe

open List (append_nil length_append length_pos_iff)

open CodecOutput Prefixes

namespace Fst

/-- The node at a prefix, as the entries determine it, whatever its arcs lead to. -/
structure NodeOf (entries : List (Bytes × Bytes)) (p : Bytes) (node : UnCompiledNode) : Prop where
  isFinal : node.isFinal = (entries.lookup p).isSome
  output : p ≠ [] → node.output = ending entries p
  ascending : Ascending node.arcs
  labels : ∀ c, (∃ arc ∈ node.arcs, arc.label = c) ↔ ∃ entry ∈ entries, p ++ [c] <+: entry.1
  outputs : ∀ arc ∈ node.arcs,
    arc.output = (pushed entries (p ++ [arc.label])).drop (pushed entries p).length

/-- A frozen arc to a prefix: a reader behind it finds what the entries have there. -/
structure ArcOf (all : List (Bytes × Bytes)) (store q : Bytes) (arc : BuilderArc) : Prop where
  isFinal : arc.isFinal = (all.lookup q).isSome
  finalOutput : arc.nextFinalOutput = ending all q
  walk : ∀ more key, walk (store ++ more) (reading arc) key = rest all q key
  le_target : -1 ≤ arc.target
  target_lt : arc.target < store.length

variable {all entries : List (Bytes × Bytes)} {store p : Bytes}

theorem ArcOf.append {q : Bytes} {arc : BuilderArc}
    (h : ArcOf all store q arc) (more : Bytes) : ArcOf all (store ++ more) q arc where
  isFinal := h.isFinal
  finalOutput := h.finalOutput
  walk := by
    intro later key
    rw [List.append_assoc]
    exact h.walk (more ++ later) key
  le_target := h.le_target
  target_lt := by
    have := h.target_lt
    rw [length_append]
    omega

/-- A walk does not depend on the label and the output of the arc it starts from. -/
theorem walk_reading_congr (store : Bytes) {a b : BuilderArc} (hfinal : a.isFinal = b.isFinal)
    (houtput : a.nextFinalOutput = b.nextFinalOutput) (htarget : a.target = b.target)
    (key : Bytes) : walk store (reading a) key = walk store (reading b) key := by
  cases key with
  | nil =>
    show (if a.isFinal then some a.nextFinalOutput else none) = _
    rw [hfinal, houtput]
    rfl
  | cons c key => simp only [walk, reading, hfinal, htarget]

theorem ArcOf.congr {q : Bytes} {a b : BuilderArc}
    (h : ArcOf all store q a) (hfinal : a.isFinal = b.isFinal)
    (houtput : a.nextFinalOutput = b.nextFinalOutput) (htarget : a.target = b.target) :
    ArcOf all store q b where
  isFinal := hfinal ▸ h.isFinal
  finalOutput := houtput ▸ h.finalOutput
  walk := by
    intro more key
    rw [← walk_reading_congr _ hfinal houtput htarget]
    exact h.walk more key
  le_target := htarget ▸ h.le_target
  target_lt := htarget ▸ h.target_lt

/-! ## From one node to the next -/

theorem ending_of_lookup {output : Bytes} (h : entries.lookup p = some output) :
    ending entries p = output.drop (pushed entries p).length := by
  rw [ending, rest, append_nil, h]
  rfl

theorem ending_of_not_lookup (h : entries.lookup p = none) : ending entries p = [] := by
  rw [ending, rest, append_nil, h]
  rfl

theorem rest_nil :
    rest entries p [] = if (entries.lookup p).isSome then some (ending entries p) else none := by
  cases h : entries.lookup p with
  | none =>
    rw [rest, append_nil, h]
    rfl
  | some output =>
    rw [ending_of_lookup h, rest, append_nil, h]
    rfl

/-- What a prefix has below one more label. -/
theorem rest_cons {key : Bytes} {c : UInt8} :
    rest entries p (c :: key) = (rest entries (p ++ [c]) key).map fun output =>
      (pushed entries (p ++ [c])).drop (pushed entries p).length ++ output := by
  have happend : p ++ c :: key = p ++ [c] ++ key := by simp
  rw [rest, rest, Option.map_map, happend]
  cases h : entries.lookup (p ++ [c] ++ key) with
  | none => rfl
  | some output =>
    simp only [Option.map_some, Function.comp_apply]
    rw [drop_append_drop _ (pushed_prefix_of_lookup h)]
    exact pushed_mono (List.prefix_append _ _) (mem_of_lookup h) (List.prefix_append _ _)

theorem rest_of_no_entry {key : Bytes}
    (h : ¬ ∃ entry ∈ entries, p <+: entry.1) : rest entries p key = none := by
  rw [rest]
  cases hlookup : entries.lookup (p ++ key) with
  | none => rfl
  | some output => exact absurd ⟨_, mem_of_lookup hlookup, List.prefix_append _ _⟩ h

/-- Behind a node whose arcs are frozen, a reader finds what the entries have below it. -/
theorem walk_node {node : UnCompiledNode} (hnode : NodeOf all p node)
    (harcs : ∀ arc ∈ node.arcs, ArcOf all store (p ++ [arc.label]) arc) {address : Int}
    (hat : NodeAt store address node.arcs) {arc : Arc} (harc : arc.target = address)
    (more : Bytes) (c : UInt8) (key : Bytes) :
    walk (store ++ more) arc (c :: key) = rest all p (c :: key) := by
  rw [walk, harc, hat more c, rest_cons]
  cases hfind : node.arcs.find? fun a => a.label = c with
  | none =>
    -- no arc has the label, and no entry goes on with it
    have hno : ¬ ∃ arc ∈ node.arcs, arc.label = c := by
      rintro ⟨arc, hmem, hlabel⟩
      exact absurd hlabel (by simpa using List.find?_eq_none.mp hfind arc hmem)
    rw [rest_of_no_entry (fun h => hno ((hnode.labels c).mpr h))]
    rfl
  | some found =>
    have hmem := List.mem_of_find?_eq_some hfind
    have hlabel : found.label = c := by simpa using List.find?_some hfind
    subst hlabel
    rw [Option.map_some, Option.bind_some, (harcs found hmem).walk more key]
    show (rest all _ key).map (fun output => found.output ++ output) = _
    rw [hnode.outputs found hmem]

/-! ## The store -/

/-- What the builder keeps true of its store. -/
structure StoreOf (b : FstBuilder) : Prop where
  nonempty : b.bytes ≠ []
  lastFrozenNode : b.lastFrozenNode = b.bytes.length - 1
  dedup : ∀ key address, b.dedup.lookup key = some address →
    0 < address ∧ address < b.bytes.length ∧
      ∃ arc, Encodable arc ∧ key = dedupArc arc ∧ NodeAt b.bytes address [arc]
  nodeCount : b.nodeCount ≤ b.bytes.length
  arcCount : b.arcCount ≤ b.bytes.length
  arcWithOutputCount : b.arcWithOutputCount ≤ b.bytes.length

/-- The bytes that an arc takes at most. -/
def arcCost (arc : BuilderArc) : Nat := 21 + arc.output.length + arc.nextFinalOutput.length

theorem length_outputBytes_le (output : Bytes) :
    (outputBytes output).length ≤ 5 + output.length := by
  rw [outputBytes]
  split
  · exact Nat.zero_le _
  · rw [writeOutput, length_append]
    exact Nat.add_le_add_right (length_writeVint_le _) _

theorem length_arcBytes_le (lastFrozenNode : Int) (isLast : Bool) (arc : BuilderArc) :
    (arcBytes lastFrozenNode isLast arc).length ≤ arcCost arc := by
  have houtput := length_outputBytes_le arc.output
  have hfinal := length_outputBytes_le arc.nextFinalOutput
  have htarget : (targetBytes lastFrozenNode arc).length ≤ 9 := by
    rw [targetBytes]
    split
    · exact length_writeVlongSigned_le _
    · exact Nat.zero_le _
  simp only [arcBytes, arcCost, length_append, List.length_cons, List.length_nil]
  omega

theorem length_arcsBytes_le (lastFrozenNode : Int) (arcs : List BuilderArc) :
    (arcsBytes lastFrozenNode arcs).length ≤ (arcs.map arcCost).sum := by
  induction arcs with
  | nil => exact Nat.le_refl 0
  | cons arc arcs ih =>
    rw [arcsBytes, length_append, List.map_cons, List.sum_cons]
    exact Nat.add_le_add (length_arcBytes_le _ _ _) ih

end Fst

namespace FstBuilder

open Fst

/-- What a builder leaves alone while it compiles. -/
structure Kept (b b' : FstBuilder) : Prop where
  frontier : b'.frontier = b.frontier
  lastInput : b'.lastInput = b.lastInput
  emptyOutput : b'.emptyOutput = b.emptyOutput
  finished : b'.finished = b.finished

theorem Kept.refl (b : FstBuilder) : Kept b b := ⟨rfl, rfl, rfl, rfl⟩

/-- The builder once a node has been written. -/
def withNode (b : FstBuilder) (node : UnCompiledNode) : FstBuilder :=
  let bytes := b.bytes ++ (arcsBytes b.lastFrozenNode node.arcs).reverse
  { b with
    bytes := bytes
    lastFrozenNode := bytes.length - 1
    nodeCount := b.nodeCount + 1
    arcCount := b.arcCount + node.arcs.length
    arcWithOutputCount := b.arcWithOutputCount + node.arcs.countP fun arc => !arc.output.isEmpty }

theorem addNode_eq (b : FstBuilder) (node : UnCompiledNode) :
    b.addNode node = .ok ((b.withNode node).bytes.length - 1, b.withNode node) := by
  rw [addNode, writeArcs_eq]
  rfl

section WithNode

variable {b : FstBuilder} {node : UnCompiledNode} (hb : StoreOf b)
  (hencodable : ∀ arc ∈ node.arcs, Encodable arc) (hascending : Fst.Ascending node.arcs)
  (hne : node.arcs ≠ [])

section

variable (b : FstBuilder) (node : UnCompiledNode)

theorem withNode_bytes : (b.withNode node).bytes =
    b.bytes ++ (arcsBytes b.lastFrozenNode node.arcs).reverse := rfl

theorem length_withNode_le :
    (b.withNode node).bytes.length ≤ b.bytes.length + (node.arcs.map arcCost).sum := by
  rw [withNode_bytes, length_append, List.length_reverse]
  exact Nat.add_le_add_left (length_arcsBytes_le _ _) _

theorem length_add_arcs_le :
    b.bytes.length + node.arcs.length ≤ (b.withNode node).bytes.length := by
  rw [withNode_bytes, length_append, List.length_reverse]
  exact Nat.add_le_add_left (length_le_arcsBytes _ _) _

theorem length_le_withNode :
    b.bytes.length ≤ (b.withNode node).bytes.length := by
  rw [withNode_bytes, length_append]
  exact Nat.le_add_right _ _

end

include hb hne in
theorem storeOf_withNode : StoreOf (b.withNode node) where
  nonempty := List.append_ne_nil_of_left_ne_nil hb.nonempty _
  lastFrozenNode := rfl
  nodeCount := by
    have hpos := length_pos_iff.mpr hne
    have hcount := hb.nodeCount
    have hgrow := length_add_arcs_le b node
    show b.nodeCount + 1 ≤ _
    omega
  arcCount := by
    have hcount := hb.arcCount
    have hgrow := length_add_arcs_le b node
    show b.arcCount + node.arcs.length ≤ _
    omega
  arcWithOutputCount := by
    have hcount := hb.arcWithOutputCount
    have hgrow := length_add_arcs_le b node
    have hsome : node.arcs.countP (fun arc => !arc.output.isEmpty) ≤ node.arcs.length :=
      List.countP_le_length
    show b.arcWithOutputCount + node.arcs.countP (fun arc => !arc.output.isEmpty) ≤ _
    omega
  dedup := by
    intro key address hkey
    obtain ⟨haddress, hlt, arc, harc, heq, hat⟩ := hb.dedup key address hkey
    have := length_le_withNode b node
    exact ⟨haddress, by omega, arc, harc, heq, hat.append _⟩

include hb hencodable hascending hne in
theorem nodeAt_withNode :
    NodeAt (b.withNode node).bytes ((b.withNode node).bytes.length - 1) node.arcs := by
  have hat := nodeAt_writeArcs hb.nonempty hencodable hascending hne
  rw [← hb.lastFrozenNode] at hat
  exact hat

include hb hne in
theorem address_withNode_pos : 0 < ((b.withNode node).bytes.length : Int) - 1 := by
  have hpos := length_pos_iff.mpr hb.nonempty
  have hnode := Nat.lt_of_lt_of_le (length_pos_iff.mpr hne)
    (length_le_arcsBytes b.lastFrozenNode node.arcs)
  rw [withNode_bytes, length_append, List.length_reverse]
  omega

/-- Compiling a node with arcs: it is at the address returned, written now or before. -/
theorem compileNode_spec (hb : StoreOf b) (hencodable : ∀ arc ∈ node.arcs, Encodable arc)
    (hascending : Fst.Ascending node.arcs) (hne : node.arcs ≠ []) :
    ∃ address b', b.compileNode node = .ok (address, b') ∧ StoreOf b' ∧ Kept b b' ∧
      (∃ more, b'.bytes = b.bytes ++ more) ∧
      b'.bytes.length ≤ b.bytes.length + (node.arcs.map arcCost).sum ∧
      0 < address ∧ address < b'.bytes.length ∧ NodeAt b'.bytes address node.arcs := by
  have hwritten : (b.withNode node).bytes.length - 1 < ((b.withNode node).bytes.length : Int) :=
    Int.sub_one_lt_of_le (Int.le_refl _)
  have hat := nodeAt_withNode hb hencodable hascending hne
  have hpos := address_withNode_pos hb hne
  have hsize := length_withNode_le b node
  rw [compileNode, if_neg (by simpa using hne)]
  by_cases hmany : 1 < node.arcs.length
  · rw [if_pos hmany]
    exact ⟨_, _, addNode_eq b node, storeOf_withNode hb hne, ⟨rfl, rfl, rfl, rfl⟩, ⟨_, rfl⟩, hsize, hpos,
      hwritten, hat⟩
  · rw [if_neg hmany]
    obtain ⟨arc, harc⟩ : ∃ arc, node.arcs = [arc] := by
      apply List.length_eq_one_iff.mp
      have := length_pos_iff.mpr hne
      omega
    cases hfound : b.dedup.lookup (dedupKey node) with
    | some address =>
      -- an arc with the same key was written there, and the key determines it
      obtain ⟨haddress, hlt, old, hold, hkey, hatOld⟩ := hb.dedup _ _ hfound
      rw [dedupKey_singleton node harc] at hkey
      have heq := dedupArc_injective (hencodable arc (by rw [harc]; exact List.mem_singleton_self _))
        hold hkey
      refine ⟨address, b, rfl, hb, Kept.refl b, ⟨[], by simp⟩, Nat.le_add_right _ _, haddress,
        hlt, ?_⟩
      rw [harc, heq]
      exact hatOld
    | none =>
      refine ⟨(b.withNode node).bytes.length - 1, { b.withNode node with
        dedup := (dedupKey node, ((b.withNode node).bytes.length : Int) - 1) :: b.dedup }, ?_,
        ⟨(storeOf_withNode hb hne).nonempty, rfl, ?_, (storeOf_withNode hb hne).nodeCount,
          (storeOf_withNode hb hne).arcCount, (storeOf_withNode hb hne).arcWithOutputCount⟩,
        ⟨rfl, rfl, rfl, rfl⟩, ⟨_, rfl⟩, hsize, hpos, hwritten, hat⟩
      · simp only [addNode_eq]
        rfl
      · intro key address hkey
        rw [List.lookup_cons] at hkey
        split at hkey
        next hmatch =>
          cases hkey
          rw [beq_iff_eq] at hmatch
          refine ⟨hpos, hwritten, arc, hencodable arc (by rw [harc]; exact List.mem_singleton_self _),
            ?_, harc ▸ hat⟩
          rw [hmatch, dedupKey_singleton node harc]
        next => exact (storeOf_withNode hb hne).dedup key address hkey

end WithNode

end FstBuilder

end Froe
