import Froe.Lucene.FstFrontier

/-!
# Freezing the frontier

One step of freezing turns the deepest open node into a frozen arc of its parent
(`freezeNode_spec`), and freezing a tail repeats the step down to the prefix that the
next key shares (`freezeDown_spec`).
-/

namespace Froe

open CodecOutput Prefixes Fst

namespace FstBuilder

variable {all entries : List (Bytes × Bytes)} {path : Bytes} {depth : Nat} {b : FstBuilder}

/-- A node without arcs that some entry reaches is the end of that entry. -/
theorem lookup_of_no_arcs {p : Bytes} {node : UnCompiledNode} (hnode : NodeOf entries p node)
    (harcs : node.arcs = []) {entry : Bytes × Bytes} (hentry : entry ∈ entries)
    (hp : p <+: entry.1) : node.isFinal = true := by
  obtain ⟨t, ht⟩ := hp
  cases t with
  | nil =>
    rw [hnode.isFinal, List.lookup_isSome_iff]
    rw [List.append_nil] at ht
    exact ⟨entry, hentry, beq_iff_eq.mpr ht⟩
  | cons c t =>
    have hlabel : ∃ entry ∈ entries, p ++ [c] <+: entry.1 :=
      ⟨entry, hentry, t, by rw [← ht, List.append_assoc]; rfl⟩
    obtain ⟨arc, harc, -⟩ := (hnode.labels c).mpr hlabel
    rw [harcs] at harc
    cases harc

def frozenArc (node : UnCompiledNode) (compiled : Int) (arc : BuilderArc) : BuilderArc :=
  { arc with
    target := compiled
    nextFinalOutput := node.output
    isFinal := node.isFinal || node.arcs.isEmpty }

/-- The weights of a node's arcs, as the entries determine them. -/
theorem sum_arcCost {p : Bytes} {node : UnCompiledNode} (hnode : NodeOf all p node) {store : Bytes}
    (harcs : ∀ arc ∈ node.arcs, ArcOf all store (p ++ [arc.label]) arc) :
    (node.arcs.map arcCost).sum =
      ((node.arcs.map fun arc => p ++ [arc.label]).map (cost all)).sum := by
  rw [List.map_map]
  congr 1
  exact List.map_congr_left fun arc harc => arcCost_eq hnode harc (harcs arc harc)

/-- Compiling a complete node gives a frozen arc to its prefix. -/
theorem compile_complete {p : Bytes} {node : UnCompiledNode} (hb : StoreOf b) (hfits : Fst.Fits all)
    (hbytes : b.bytes.length < 2 ^ 63) (hp : p ≠ []) (hnode : NodeOf all p node)
    (harcs : ∀ arc ∈ node.arcs, ArcOf all b.bytes (p ++ [arc.label]) arc)
    (hreached : ∃ entry ∈ all, p <+: entry.1) :
    ∃ compiled b', b.compileNode node = .ok (compiled, b') ∧ StoreOf b' ∧ Kept b b' ∧
      (∃ more, b'.bytes = b.bytes ++ more) ∧
      b'.bytes.length ≤ b.bytes.length +
        ((node.arcs.map fun arc => p ++ [arc.label]).map (cost all)).sum ∧
      ∀ arc, ArcOf all b'.bytes p (frozenArc node compiled arc) := by
  obtain ⟨entry, hentry, hprefix⟩ := hreached
  have hfinal : (node.isFinal || node.arcs.isEmpty) = (all.lookup p).isSome := by
    rw [← hnode.isFinal]
    by_cases hempty : node.arcs = []
    · rw [lookup_of_no_arcs hnode hempty hentry hprefix, Bool.true_or]
    · rw [List.isEmpty_eq_false_iff.mpr hempty, Bool.or_false]
  -- at the end of the prefix, a reader finds the ending
  have hend : ∀ store compiled arc,
      walk store (reading (frozenArc node compiled arc)) [] = rest all p [] := by
    intro store compiled arc
    show (if (node.isFinal || node.arcs.isEmpty) then some node.output else none) = _
    rw [hfinal, hnode.output hp, rest_nil]
  by_cases hempty : node.arcs = []
  · refine ⟨finalEndNode, b, ?_, hb, Kept.refl b, ⟨[], by simp⟩, Nat.le_add_right _ _,
      fun arc => ⟨hfinal, hnode.output hp, ?_, Int.le_refl _, ?_⟩⟩
    · rw [compileNode, if_pos (by simpa using hempty),
        if_pos (lookup_of_no_arcs hnode hempty hentry hprefix)]
    · intro more key
      cases key with
      | nil => exact hend _ _ _
      | cons c key =>
        -- nothing goes on below a node without arcs
        have hno : ¬ ∃ entry ∈ all, p ++ [c] <+: entry.1 := by
          rintro h
          obtain ⟨arc, harc, -⟩ := (hnode.labels c).mpr h
          rw [hempty] at harc
          cases harc
        rw [rest_cons, rest_of_no_entry hno, walk, findTargetArc, if_pos]
        · rfl
        · show (if (0 : Int) < finalEndNode then finalEndNode
            else if (node.isFinal || node.arcs.isEmpty) then finalEndNode
            else nonFinalEndNode) ≤ 0
          rw [if_neg (by decide)]
          split <;> decide
    · have := List.length_pos_iff.mpr hb.nonempty
      show finalEndNode < _
      rw [finalEndNode]
      omega
  · obtain ⟨compiled, b', hcompile, hb', hkept, ⟨more, hmore⟩, hsize, hpos, hlt, hat⟩ :=
      compileNode_spec hb (fun arc harc => encodable_of_fits hfits hnode hbytes harc (harcs arc harc))
        hnode.ascending hempty
    rw [sum_arcCost hnode harcs] at hsize
    refine ⟨compiled, b', hcompile, hb', hkept, ⟨more, hmore⟩, hsize,
      fun arc => ⟨hfinal, hnode.output hp, ?_, ?_, hlt⟩⟩
    · intro later key
      cases key with
      | nil => exact hend _ _ _
      | cons c key =>
        refine walk_node hnode (fun a ha => ?_) hat ?_ later c key
        · rw [hmore]
          exact (harcs a ha).append more
        · exact if_pos hpos
    · exact Int.le_of_lt (Int.lt_trans (by decide) hpos)

theorem Kept.node {b b' : FstBuilder} (h : Kept b b') (i : Nat) : b'.node i = b.node i := by
  rw [FstBuilder.node, FstBuilder.node, h.frontier]

/-- The key of an entry goes on from every node above the end of the path. -/
theorem reached_of_building (h : Building all entries path (depth + 1) b) :
    ∃ entry ∈ entries, path.take (depth + 1) <+: entry.1 := by
  obtain ⟨init, arc, harcs, hlabel⟩ := h.last depth (Nat.lt_succ_self _)
  obtain ⟨entry, hentry, hprefix⟩ := (h.node depth (Nat.le_succ _)).entry
    (harcs ▸ List.mem_append_right _ (List.mem_singleton_self arc))
  refine ⟨entry, hentry, ?_⟩
  rw [List.take_add_one, hlabel]
  exact hprefix

/-- Freezing the deepest open node. -/
theorem freezeNode_spec (hsorted : Sorted all) (hfits : Fst.Fits all) (hsub : entries ⊆ all)
    (h : Building all entries path (depth + 1) b)
    (hsettled : Settled all entries (path.take (depth + 1))) :
    ∃ b', b.freezeNode (depth + 1) = .ok b' ∧ Building all entries path depth b' ∧
      b'.lastInput = b.lastInput ∧ b'.frontier.length = b.frontier.length := by
  obtain ⟨p, hp⟩ : ∃ p, p = path.take (depth + 1) := ⟨_, rfl⟩
  have hbytes := h.bytes_lt hsorted hfits hsub
  have hpath : depth + 1 ≤ path.length := h.depth_le
  have hpne : p ≠ [] := by
    rw [hp, ← List.length_pos_iff, List.length_take]
    omega
  have hnode := (h.node (depth + 1) (Nat.le_refl _)).settled hsettled
  have hframe : depth + 1 < b.frontier.length := Nat.lt_of_le_of_lt hpath h.length_lt
  obtain ⟨init, arc, harcs, hlabel⟩ := h.last depth (Nat.lt_succ_self _)
  have hstep : p = path.take depth ++ [arc.label] := by
    rw [hp, List.take_add_one, hlabel]
    rfl
  have hreached : ∃ entry ∈ all, p <+: entry.1 := by
    obtain ⟨entry, hentry, hprefix⟩ := reached_of_building h
    exact ⟨entry, hsub hentry, hp ▸ hprefix⟩
  have hopen : SameStore b (b.modifyNode (depth + 1) fun _ => {}) := SameStore.modifyNode ..
  rw [← hp] at hnode
  have hfrozenAt := h.frozenAt
  rw [← hp] at hfrozenAt
  obtain ⟨compiled, c, hcompile, hstore, hkept, ⟨more, hmore⟩, hsize, hfrozen⟩ :=
    compile_complete (hopen.storeOf h.store) hfits hbytes hpne hnode hfrozenAt hreached
  rw [hopen.bytes] at hmore hsize
  obtain ⟨b', hb'⟩ : ∃ b', b' = c.modifyNode depth fun parent =>
    { parent with arcs := modifyLast (frozenArc (b.node (depth + 1)) compiled) parent.arcs } :=
    ⟨_, rfl⟩
  have hsame : SameStore c b' := hb' ▸ SameStore.modifyNode ..
  have hlength : c.frontier.length = b.frontier.length := by
    rw [hkept.frontier, length_modifyNode]
  -- what becomes of the nodes of the frontier
  have hnodeAt : b'.node depth = { b.node depth with
      arcs := init ++ [frozenArc (b.node (depth + 1)) compiled arc] } := by
    rw [hb', node_modifyNode_self (by omega), hkept.node,
      node_modifyNode_ne (Nat.succ_ne_self depth), harcs, modifyLast_concat]
  have hnodeNe : ∀ i, i ≠ depth → i ≠ depth + 1 → b'.node i = b.node i := by
    intro i hi hi'
    rw [hb', node_modifyNode_ne (Ne.symm hi), hkept.node, node_modifyNode_ne (Ne.symm hi')]
  have hnodeBelow : b'.node (depth + 1) = {} := by
    rw [hb', node_modifyNode_ne (Nat.succ_ne_self depth).symm, hkept.node,
      node_modifyNode_self hframe]
  have hbytes' : b'.bytes = b.bytes ++ more := by rw [hsame.bytes, hmore]
  refine ⟨b', ?_, ?_, ?_, ?_⟩
  · rw [freezeNode, hcompile, hb']
    rfl
  · exact
      { store := hsame.storeOf hstore
        depth_le := Nat.le_of_succ_le hpath
        length_lt := by rw [hb', length_modifyNode, hlength]; exact h.length_lt
        node := by
          intro i hi
          rcases Nat.lt_or_eq_of_le hi with hlt | rfl
          · rw [hnodeNe i (Nat.ne_of_lt hlt) (by omega)]
            exact h.node i (by omega)
          · have hold := h.node i (Nat.le_succ i)
            rw [hnodeAt]
            refine ⟨hold.isFinal, hold.output, ?_, ?_, ?_⟩
            · have := hold.ascending
              rw [harcs] at this
              rw [Fst.Ascending, List.pairwise_append] at this ⊢
              exact ⟨this.1, List.pairwise_singleton _ _, fun a ha x hx => by
                rw [List.mem_singleton.mp hx]
                exact this.2.2 a ha arc (List.mem_singleton_self _)⟩
            · intro label
              rw [← hold.labels label, harcs]
              simp only [List.mem_append, List.mem_singleton, or_and_right, exists_or,
                exists_eq_left]
              rfl
            · intro a ha
              have houtputs := hold.outputs
              rw [harcs] at houtputs
              rcases List.mem_append.mp ha with ha | ha
              · exact houtputs a (List.mem_append_left _ ha)
              · rw [List.mem_singleton.mp ha]
                exact houtputs arc (List.mem_append_right _ (List.mem_singleton_self _))
        last := by
          intro i hi
          rw [hnodeNe i (Nat.ne_of_lt hi) (by omega)]
          exact h.last i (by omega)
        frozen := by
          intro i hi a ha
          rw [hnodeNe i (Nat.ne_of_lt hi) (by omega)] at ha
          rw [hbytes']
          exact (h.frozen i (by omega) a ha).append more
        frozenAt := by
          intro a ha
          rw [hnodeAt] at ha
          rcases List.mem_append.mp ha with ha | ha
          · rw [hbytes']
            refine (h.frozen depth (Nat.lt_succ_self _) a ?_).append more
            rw [harcs, List.dropLast_concat]
            exact ha
          · rw [List.mem_singleton.mp ha, hsame.bytes]
            show ArcOf all c.bytes (path.take depth ++ [arc.label]) _
            rw [← hstep]
            exact hfrozen arc
        beyond := by
          intro i hi
          rcases Nat.eq_or_lt_of_le hi with rfl | hlt
          · exact hnodeBelow
          · rw [hnodeNe i (by omega) (by omega)]
            exact h.beyond i hlt
        size := by
          obtain ⟨written, hwritten, hle⟩ := h.size
          obtain ⟨hnodup, hentry⟩ := hwritten.children hp (hp ▸ h.node (depth + 1) (Nat.le_refl _))
          refine ⟨written ++ (b.node (depth + 1)).arcs.map fun a => p ++ [a.label],
            ⟨hnodup, hentry, ?_⟩, ?_⟩
          · intro q hq i hi
            rcases List.mem_append.mp hq with hq | hq
            · exact hwritten.apart q hq i (by omega)
            · obtain ⟨a, ha, rfl⟩ := List.mem_map.mp hq
              rw [List.dropLast_concat, hp]
              intro heq
              have := congrArg List.length heq
              rw [List.length_take, List.length_take] at this
              omega
          · rw [hsame.bytes, List.map_append, List.sum_append]
            omega
        emptyOutput := by
          rw [hsame.emptyOutput, hkept.emptyOutput, hopen.emptyOutput, h.emptyOutput]
        finished := by rw [hsame.finished, hkept.finished, hopen.finished, h.finished] }
  · rw [hsame.lastInput, hkept.lastInput, hopen.lastInput]
  · rw [hb', length_modifyNode, hlength]

theorem freezeDown_spec (hsorted : Sorted all) (hfits : Fst.Fits all) (hsub : entries ⊆ all)
    {downTo : Nat} (hdown : 1 ≤ downTo) (hle : downTo ≤ depth + 1)
    (h : Building all entries path depth b)
    (hsettled : ∀ i, downTo ≤ i → i ≤ depth → Settled all entries (path.take i)) :
    ∃ b', freezeDown downTo depth b = .ok b' ∧ Building all entries path (downTo - 1) b' ∧
      b'.lastInput = b.lastInput ∧ b'.frontier.length = b.frontier.length := by
  induction depth generalizing b with
  | zero =>
    have : downTo = 1 := by omega
    subst this
    exact ⟨b, rfl, h, rfl, rfl⟩
  | succ depth ih =>
    rw [freezeDown]
    by_cases hd : downTo ≤ depth + 1
    · rw [if_pos hd]
      obtain ⟨c, hc, hbuilding, hlast, hlength⟩ := freezeNode_spec hsorted hfits hsub h
        (hsettled (depth + 1) hd (Nat.le_refl _))
      obtain ⟨b', hb', hbuilt, hlast', hlength'⟩ := ih hd hbuilding
        fun i hi hid => hsettled i hi (Nat.le_succ_of_le hid)
      refine ⟨b', ?_, hbuilt, hlast'.trans hlast, hlength'.trans hlength⟩
      rw [hc]
      exact hb'
    · rw [if_neg hd]
      have : downTo = depth + 1 + 1 := by omega
      subst this
      exact ⟨b, rfl, h, rfl, rfl⟩

end FstBuilder

end Froe
