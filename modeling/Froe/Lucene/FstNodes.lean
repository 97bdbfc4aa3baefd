import Froe.Lucene.FstReader

/-!
# Nodes of a transducer, written and read

A node that is written after a store is found again at its address, in every longer
store: following a label from there gives the arc that was written under it
(`nodeAt_writeArcs`).  The sharing key of an arc determines it (`dedupArc_injective`).
-/

namespace Froe

open List (append_assoc append_inj length_append nil_append)
open Option (bind_eq_bind bind_some)

open CodecInput CodecOutput
open Bytes (length_be)

namespace Fst

/-! ## Flags -/

/-- The flags of an arc, from what each of them says. -/
def flagByte (isLast isNext isFinal hasFinalOutput isStop hasOutput : Bool) : UInt8 :=
  (if isLast then bitLastArc else 0)
    ||| (if isNext then bitTargetNext else 0)
    ||| (if isFinal then bitFinalArc ||| (if hasFinalOutput then bitArcHasFinalOutput else 0)
        else 0)
    ||| (if isStop then bitStopNode else 0)
    ||| (if hasOutput then bitArcHasOutput else 0)

theorem flagByte_bits (isLast isNext isFinal hasFinalOutput isStop hasOutput : Bool) :
    let flags := flagByte isLast isNext isFinal hasFinalOutput isStop hasOutput
    decide (flags &&& bitLastArc ≠ 0) = isLast ∧ decide (flags &&& bitTargetNext ≠ 0) = isNext ∧
      decide (flags &&& bitFinalArc ≠ 0) = isFinal ∧
      decide (flags &&& bitArcHasFinalOutput ≠ 0) = (isFinal && hasFinalOutput) ∧
      decide (flags &&& bitStopNode ≠ 0) = isStop ∧
      decide (flags &&& bitArcHasOutput ≠ 0) = hasOutput ∧ flags ≠ arcsAsFixedArray := by
  revert isLast isNext isFinal hasFinalOutput isStop hasOutput
  decide

/-- An arc whose parts fit their encodings. -/
structure Encodable (arc : BuilderArc) : Prop where
  output_le : arc.output.length ≤ maximumI32
  finalOutput_le : arc.nextFinalOutput.length ≤ maximumI32
  finalOutput_nil : arc.isFinal = false → arc.nextFinalOutput = []
  le_target : -1 ≤ arc.target
  target_lt : arc.target < 2 ^ 63

variable (lastFrozenNode : Int) (isLast : Bool) (arc : BuilderArc)

theorem arcFlags_eq :
    arcFlags lastFrozenNode isLast arc = flagByte isLast (decide (lastFrozenNode = arc.target))
      arc.isFinal (!arc.nextFinalOutput.isEmpty) (decide (¬ 0 < arc.target))
      (!arc.output.isEmpty) := by
  unfold arcFlags flagByte
  congr 1
  · congr 1
    · congr 1
      · simp only [decide_eq_true_eq]
      · cases arc.nextFinalOutput.isEmpty <;> rfl
    · by_cases h : 0 < arc.target <;> simp [h]
  · cases arc.output.isEmpty <;> rfl

/-- What a reader makes of the fields of an arc. -/
def arcFields (lastFrozenNode : Int) (isLast : Bool) (arc : BuilderArc) : ArcFields :=
  ⟨arcFlags lastFrozenNode isLast arc, arc.label, arc.output, arc.nextFinalOutput⟩

section Fields

variable (lastFrozenNode : Int) (isLast : Bool) (arc : BuilderArc)

@[simp] theorem has_last : (arcFields lastFrozenNode isLast arc).has bitLastArc = isLast := by
  rw [ArcFields.has, arcFields, arcFlags_eq]
  exact (flagByte_bits ..).1

@[simp] theorem has_next : (arcFields lastFrozenNode isLast arc).has bitTargetNext =
    decide (lastFrozenNode = arc.target) := by
  rw [ArcFields.has, arcFields, arcFlags_eq]
  exact (flagByte_bits ..).2.1

@[simp] theorem has_final : (arcFields lastFrozenNode isLast arc).has bitFinalArc = arc.isFinal := by
  rw [ArcFields.has, arcFields, arcFlags_eq]
  exact (flagByte_bits ..).2.2.1

@[simp] theorem has_stop : (arcFields lastFrozenNode isLast arc).has bitStopNode =
    decide (¬ 0 < arc.target) := by
  rw [ArcFields.has, arcFields, arcFlags_eq]
  exact (flagByte_bits ..).2.2.2.2.1

theorem flags_output : decide (arcFlags lastFrozenNode isLast arc &&& bitArcHasOutput ≠ 0) =
    !arc.output.isEmpty := by
  rw [arcFlags_eq]
  exact (flagByte_bits ..).2.2.2.2.2.1

theorem flags_finalOutput :
    decide (arcFlags lastFrozenNode isLast arc &&& bitArcHasFinalOutput ≠ 0) =
      (arc.isFinal && !arc.nextFinalOutput.isEmpty) := by
  rw [arcFlags_eq]
  exact (flagByte_bits ..).2.2.2.1

theorem flags_ne_fixedArray : arcFlags lastFrozenNode isLast arc ≠ arcsAsFixedArray := by
  rw [arcFlags_eq]
  exact (flagByte_bits ..).2.2.2.2.2.2

theorem flags_next : arcFlags lastFrozenNode isLast arc &&& bitTargetNext = 0 ↔
    lastFrozenNode ≠ arc.target := by
  have h : arcFlags lastFrozenNode isLast arc &&& bitTargetNext ≠ 0 ↔ lastFrozenNode = arc.target :=
    decide_eq_decide.mp (has_next lastFrozenNode isLast arc)
  exact (not_iff_comm.mp h).symm

end Fields

/-! ## One arc -/

def outputBytes (output : Bytes) : Bytes := if output.isEmpty then [] else writeOutput output

/-- The target as it is written. -/
def targetBytes (lastFrozenNode : Int) (arc : BuilderArc) : Bytes :=
  if 0 < arc.target ∧ lastFrozenNode ≠ arc.target then writeVlongSigned arc.target else []

def arcBytes (lastFrozenNode : Int) (isLast : Bool) (arc : BuilderArc) : Bytes :=
  [arcFlags lastFrozenNode isLast arc, arc.label] ++ outputBytes arc.output
    ++ outputBytes arc.nextFinalOutput ++ targetBytes lastFrozenNode arc

def arcsBytes (lastFrozenNode : Int) : List BuilderArc → Bytes
  | [] => []
  | arc :: arcs => arcBytes lastFrozenNode arcs.isEmpty arc ++ arcsBytes lastFrozenNode arcs

theorem writeArc_eq :
    writeArc lastFrozenNode isLast arc = .ok (arcBytes lastFrozenNode isLast arc) := by
  have htarget : writeTarget (arcFlags lastFrozenNode isLast arc) arc.target =
      .ok (targetBytes lastFrozenNode arc) := by
    simp only [writeTarget, targetBytes, flags_next]
    split
    next h => exact writeVlong_of_nonneg (Int.le_of_lt h.1)
    next => rfl
  rw [writeArc, htarget]
  rfl

theorem writeArcs_eq (arcs : List BuilderArc) :
    writeArcs lastFrozenNode arcs = .ok (arcsBytes lastFrozenNode arcs) := by
  induction arcs with
  | nil => rfl
  | cons arc arcs ih =>
    rw [writeArcs, writeArc_eq, ih]
    rfl

section

variable {output : Bytes} (h : output.length ≤ maximumI32) (rest : Bytes)
include h

theorem readOutput_writeOutput :
    readOutput (writeOutput output ++ rest) = some (output, rest) := by
  rw [readOutput, writeOutput, lengthOrMaximum_of_le h, append_assoc, readVint_writeVint h,
    bind_some, readBytes_append]

theorem readOutputIf_outputBytes :
    readOutputIf (!output.isEmpty) (outputBytes output ++ rest) = some (output, rest) := by
  cases output with
  | nil => rfl
  | cons b output => exact readOutput_writeOutput h rest

end

theorem readArcFields_arcBytes {arc : BuilderArc} (h : Encodable arc) (lastFrozenNode : Int)
    (isLast : Bool) (rest : Bytes) :
    readArcFields (arcBytes lastFrozenNode isLast arc ++ rest) =
      some (arcFields lastFrozenNode isLast arc, targetBytes lastFrozenNode arc ++ rest) := by
  have hfinal : (arc.isFinal && !arc.nextFinalOutput.isEmpty) = !arc.nextFinalOutput.isEmpty := by
    cases hf : arc.isFinal with
    | true => rfl
    | false => rw [h.finalOutput_nil hf]; rfl
  simp only [arcBytes, List.cons_append, nil_append, append_assoc]
  rw [readArcFields, flags_output, flags_finalOutput, hfinal]
  simp only [readOutputIf_outputBytes h.output_le, readOutputIf_outputBytes h.finalOutput_le,
    bind_eq_bind, bind_some]
  rfl

theorem two_le_length_arcBytes :
    2 ≤ (arcBytes lastFrozenNode isLast arc).length := by
  simp only [arcBytes, length_append, List.length_cons, List.length_nil]
  omega

theorem length_le_arcsBytes (arcs : List BuilderArc) :
    arcs.length ≤ (arcsBytes lastFrozenNode arcs).length := by
  induction arcs with
  | nil => exact Nat.le_refl 0
  | cons arc arcs ih =>
    have := two_le_length_arcBytes lastFrozenNode arcs.isEmpty arc
    simp only [arcsBytes, length_append, List.length_cons]
    omega

section

variable {arc : BuilderArc} {lastFrozenNode : Int}

theorem readVlong_targetBytes (h : Encodable arc)
    (hpos : 0 < arc.target) (hne : lastFrozenNode ≠ arc.target) (rest : Bytes) :
    readVlong (targetBytes lastFrozenNode arc ++ rest) = some (arc.target.toNat, rest) := by
  have hlt := h.target_lt
  rw [targetBytes, if_pos ⟨hpos, hne⟩]
  obtain ⟨n, hn⟩ := Int.eq_ofNat_of_zero_le (Int.le_of_lt hpos)
  rw [hn, readVlong_writeVlongSigned (by omega), Int.toNat_natCast]

theorem targetBytes_of_not_pos (h : ¬ 0 < arc.target) :
    targetBytes lastFrozenNode arc = [] :=
  if_neg fun hwritten => h hwritten.1

theorem targetBytes_of_next
    (h : lastFrozenNode = arc.target) : targetBytes lastFrozenNode arc = [] :=
  if_neg fun hwritten => hwritten.2 h

end

theorem skipTarget_targetBytes {arc : BuilderArc} (h : Encodable arc) (lastFrozenNode : Int)
    (isLast : Bool) (rest : Bytes) :
    skipTarget (arcFields lastFrozenNode isLast arc) (targetBytes lastFrozenNode arc ++ rest) =
      some rest := by
  simp only [skipTarget, has_stop, has_next, decide_eq_true_eq]
  split
  next hno =>
    rcases hno with hstop | hnext
    · rw [targetBytes_of_not_pos hstop, nil_append]
    · rw [targetBytes_of_next hnext, nil_append]
  next hyes =>
    rw [not_or, not_not] at hyes
    rw [readVlong_targetBytes h hyes.1 hyes.2]
    rfl

/-! ## All arcs of a node -/

variable {arcs : List BuilderArc}

theorem seekToNextNode_arcsBytes (h : ∀ arc ∈ arcs, Encodable arc)
    (hne : arcs ≠ []) (lastFrozenNode : Int) (rest : Bytes) {fuel : Nat}
    (hfuel : arcs.length ≤ fuel) :
    seekToNextNode fuel (arcsBytes lastFrozenNode arcs ++ rest) = some rest := by
  induction arcs generalizing fuel with
  | nil => exact absurd rfl hne
  | cons arc arcs ih =>
    obtain ⟨fuel, rfl⟩ := Nat.exists_eq_succ_of_ne_zero
      (Nat.ne_of_gt (Nat.lt_of_lt_of_le (Nat.succ_pos _) hfuel))
    have harc := h arc (List.mem_cons_self ..)
    rw [arcsBytes, append_assoc, seekToNextNode, readArcFields_arcBytes harc]
    simp only [bind_eq_bind, bind_some, has_last, skipTarget_targetBytes harc]
    cases arcs with
    | nil => rfl
    | cons next arcs =>
      exact ih (fun a ha => h a (List.mem_cons_of_mem _ ha)) (List.cons_ne_nil _ _)
        (Nat.le_of_succ_le_succ hfuel)

theorem belowNode_arcsBytes (h : ∀ arc ∈ arcs, Encodable arc)
    (lastFrozenNode : Int) (rest : Bytes) :
    belowNode arcs.isEmpty (arcsBytes lastFrozenNode arcs ++ rest) = some rest := by
  cases arcs with
  | nil => rfl
  | cons next arcs =>
    refine seekToNextNode_arcsBytes h (List.cons_ne_nil _ _) _ _ ?_
    rw [length_append]
    exact Nat.le_add_right_of_le (length_le_arcsBytes _ _)

/-- An arc as a reader gives it back. -/
def reading (arc : BuilderArc) : Arc :=
  { label := arc.label, output := arc.output, isFinal := arc.isFinal,
    nextFinalOutput := arc.nextFinalOutput,
    target := if 0 < arc.target then arc.target
      else if arc.isFinal then finalEndNode else nonFinalEndNode }

theorem readNextRealArc_arcsBytes {arc : BuilderArc}
    (h : ∀ a ∈ arc :: arcs, Encodable a) {lastFrozenNode : Int} {rest : Bytes}
    (hrest : (rest.length : Int) - 1 = lastFrozenNode) :
    readNextRealArc (arcsBytes lastFrozenNode (arc :: arcs) ++ rest) =
      some (reading arc, arcs.isEmpty, arcsBytes lastFrozenNode arcs ++ rest) := by
  have harc := h arc (List.mem_cons_self ..)
  have hfields : ∀ target, (arcFields lastFrozenNode arcs.isEmpty arc).toArc target =
      { reading arc with target := target } := by
    intro target
    rw [ArcFields.toArc, has_final]
    rfl
  rw [arcsBytes, append_assoc, readNextRealArc, readArcFields_arcBytes harc]
  simp only [bind_eq_bind, bind_some, has_stop, has_next, has_last, has_final,
    decide_eq_true_eq, hfields]
  by_cases hstop : 0 < arc.target
  · rw [if_neg (not_not.mpr hstop)]
    by_cases hnext : lastFrozenNode = arc.target
    · rw [if_pos hnext, targetBytes_of_next hnext, nil_append,
        belowNode_arcsBytes (fun a ha => h a (List.mem_cons_of_mem _ ha)), bind_some,
        hrest, hnext, reading, if_pos hstop]
      rfl
    · rw [if_neg hnext, readVlong_targetBytes harc hstop hnext, bind_some, reading,
        if_pos hstop, Int.toNat_of_nonneg (Int.le_of_lt hstop)]
      rfl
  · rw [if_pos hstop, targetBytes_of_not_pos hstop, reading, if_neg hstop]
    rfl

/-- The labels of a node's arcs are in order. -/
def Ascending (arcs : List BuilderArc) : Prop := arcs.Pairwise fun a b => a.label < b.label

theorem scanArcs_arcsBytes (h : ∀ a ∈ arcs, Encodable a)
    (hascending : Ascending arcs) (hne : arcs ≠ []) {lastFrozenNode : Int} {rest : Bytes}
    (hrest : (rest.length : Int) - 1 = lastFrozenNode) (label : UInt8) {fuel : Nat}
    (hfuel : arcs.length ≤ fuel) :
    scanArcs label fuel (arcsBytes lastFrozenNode arcs ++ rest) =
      (arcs.find? fun a => a.label = label).map reading := by
  induction arcs generalizing fuel with
  | nil => exact absurd rfl hne
  | cons arc arcs ih =>
    obtain ⟨fuel, rfl⟩ := Nat.exists_eq_succ_of_ne_zero
      (Nat.ne_of_gt (Nat.lt_of_lt_of_le (Nat.succ_pos _) hfuel))
    obtain ⟨hlater, htail⟩ := List.pairwise_cons.mp hascending
    rw [scanArcs, readNextRealArc_arcsBytes h hrest]
    simp only [bind_eq_bind, bind_some]
    have hlabel : (reading arc).label = arc.label := rfl
    rw [hlabel]
    by_cases heq : arc.label = label
    · rw [if_pos heq, List.find?_cons_of_pos (by simpa using heq)]
      rfl
    · rw [if_neg heq, List.find?_cons_of_neg (by simpa using heq)]
      by_cases hlt : label < arc.label
      · -- every later label is greater still
        rw [if_pos hlt, List.find?_eq_none.mpr]
        · rfl
        · intro a ha
          have : label < a.label := UInt8.lt_trans hlt (hlater a ha)
          simpa using (UInt8.ne_of_lt this).symm
      · rw [if_neg hlt]
        cases arcs with
        | nil => rfl
        | cons next arcs =>
          exact ih (fun a ha => h a (List.mem_cons_of_mem _ ha)) htail (List.cons_ne_nil _ _)
            (Nat.le_of_succ_le_succ hfuel)

/-- A node of a store: following a label from the address gives the arc under it, and
goes on doing so when the store grows. -/
def NodeAt (store : Bytes) (address : Int) (arcs : List BuilderArc) : Prop :=
  ∀ more label, findTargetArc (store ++ more) address label =
    (arcs.find? fun a => a.label = label).map reading

theorem NodeAt.append {store : Bytes} {address : Int}
    (h : NodeAt store address arcs) (more : Bytes) : NodeAt (store ++ more) address arcs := by
  intro later label
  rw [append_assoc]
  exact h (more ++ later) label

/-- A node written after a store is at the last byte it takes. -/
theorem nodeAt_writeArcs {store : Bytes} (hstore : store ≠ [])
    (h : ∀ a ∈ arcs, Encodable a) (hascending : Ascending arcs) (hne : arcs ≠ []) :
    NodeAt (store ++ (arcsBytes (store.length - 1) arcs).reverse)
      ((store ++ (arcsBytes (store.length - 1) arcs).reverse).length - 1) arcs := by
  intro more label
  obtain ⟨written, hwritten⟩ : ∃ w, w = arcsBytes ((store.length : Int) - 1) arcs := ⟨_, rfl⟩
  have hpos : 0 < written.length := by
    rw [hwritten]
    exact Nat.lt_of_lt_of_le (List.length_pos_iff.mpr hne) (length_le_arcsBytes _ _)
  have hstorePos := List.length_pos_iff.mpr hstore
  rw [← hwritten]
  have hlength : (store ++ written.reverse).length = store.length + written.length := by simp
  have haddress : (((store ++ written.reverse).length : Int) - 1).toNat + 1 =
      (store ++ written.reverse).length := by
    rw [hlength]
    omega
  have hseek : seek (store ++ written.reverse ++ more)
      (((store ++ written.reverse).length : Int) - 1).toNat = some (written ++ store.reverse) := by
    rw [seek, if_neg (by rw [length_append]; omega), haddress, List.take_left,
      List.reverse_append, List.reverse_reverse]
  rw [findTargetArc, if_neg (by rw [hlength]; omega), hseek, bind_some]
  have hhead : (written ++ store.reverse).head? ≠ some arcsAsFixedArray := by
    rw [hwritten]
    cases arcs with
    | nil => exact absurd rfl hne
    | cons arc arcs =>
      simp only [arcsBytes, arcBytes, List.cons_append, List.head?_cons]
      intro heq
      exact flags_ne_fixedArray _ _ _ (Option.some.inj heq)
  rw [if_neg hhead, hwritten]
  refine scanArcs_arcsBytes h hascending hne (by rw [List.length_reverse]) label ?_
  rw [length_append]
  exact Nat.le_add_right_of_le (length_le_arcsBytes _ _)

/-! ## Sharing -/

theorem be_injective {w n m : Nat} (hn : n < 256 ^ w) (hm : m < 256 ^ w)
    (h : Bytes.be w n = Bytes.be w m) : n = m := by
  rw [← Bytes.ofBe_be_of_lt hn, h, Bytes.ofBe_be_of_lt hm]

/-- The sharing key of an arc, in front of anything, determines the arc. -/
theorem dedupArc_injective {a b : BuilderArc} (ha : Encodable a) (hb : Encodable b)
    (h : dedupArc a = dedupArc b) : a = b := by
  have hbound : ∀ {x : Bytes}, x.length ≤ maximumI32 → x.length < 256 ^ 4 := fun hx =>
    Nat.lt_of_le_of_lt hx (by decide)
  simp only [dedupArc, append_assoc, List.cons_append, nil_append,
    List.cons.injEq] at h
  obtain ⟨hlabel, h⟩ := h
  obtain ⟨htarget, h⟩ := append_inj h (by rw [length_be, length_be])
  rw [List.cons.injEq] at h
  obtain ⟨hfinal, h⟩ := h
  obtain ⟨hlength, h⟩ := append_inj h (by rw [length_be, length_be])
  have hlength := be_injective (hbound ha.output_le) (hbound hb.output_le) hlength
  obtain ⟨houtput, h⟩ := append_inj h hlength
  obtain ⟨hlength, h⟩ := append_inj h (by rw [length_be, length_be])
  have htarget := be_injective (show (a.target % 2 ^ 64).toNat < 256 ^ 8 by omega)
    (show (b.target % 2 ^ 64).toNat < 256 ^ 8 by omega) htarget
  have htarget : a.target = b.target := by
    have := ha.le_target
    have := ha.target_lt
    have := hb.le_target
    have := hb.target_lt
    omega
  have hfinal : a.isFinal = b.isFinal := by
    cases hfa : a.isFinal <;> cases hfb : b.isFinal <;> simp_all
  cases a
  cases b
  simp_all

theorem dedupKey_singleton (node : UnCompiledNode) {arc : BuilderArc} (h : node.arcs = [arc]) :
    dedupKey node = dedupArc arc := by
  rw [dedupKey, h, List.flatMap_cons, List.flatMap_nil, List.append_nil]

end Fst

end Froe
