import Froe.Writer.WriterState

/-!
# Writing one record

A record goes into the segment that has room for it, with all its references in
the table of that segment (`writeRecord_spec`).  Flushing makes a store of the
sink that serves every record ever written (`serves_destination`).
-/

namespace Froe

open StateT (bind_ok_iff get_bind_ok_iff pure_ok_iff set_bind_ok_iff)

open RecordWriter

variable {c : Session} {w w' : RecordWriter}

/-! ## Flushing -/

section

variable (h : (flushCurrentSegment c.environment).run w = .ok (⟨⟩, w'))
include h

theorem flushCurrentSegment_ok :
    (w.current.records.length ≤ 1 ∧ w' = w) ∨ (1 < w.current.records.length ∧
      c.environment.takesSegment w.sink w.current.finish = .ok () ∧
      w' = { w.startSegment c.environment with sink := w.sink ++ [w.current.finish] }) := by
  replace h := get_bind_ok_iff.mp h
  split at h
  · rename_i hle
    obtain ⟨-, rfl⟩ := pure_ok_iff.mp h
    exact .inl ⟨hle, rfl⟩
  · rename_i hlt
    replace h := set_bind_ok_iff.mp h
    replace h := get_bind_ok_iff.mp h
    obtain ⟨_, _, hlift, h⟩ := bind_ok_iff.mp h
    obtain ⟨htaken, rfl⟩ := StateT.lift_ok_iff.mp hlift
    obtain rfl := StateT.set_ok_iff.mp h
    obtain ⟨current, fields, hstart, -⟩ := RecordWriter.startSegment_spec c.environment w
    have hsink : (w.startSegment c.environment).sink = w.sink := by rw [hstart]
    rw [hsink] at htaken ⊢
    exact .inr ⟨not_le.mp hlt, htaken, rfl⟩

theorem flushCurrentSegment_steps : Steps c w w' := by
  rcases flushCurrentSegment_ok h with ⟨-, rfl⟩ | ⟨hlt, htaken, rfl⟩
  · exact Steps.refl _
  · exact (Step.roll hlt htaken).steps

/-- Nothing but the segment-info record is left after a flush. -/
theorem flushCurrentSegment_left :
    w'.current.records.length ≤ 1 := by
  rcases flushCurrentSegment_ok h with ⟨hle, rfl⟩ | ⟨-, -, rfl⟩
  · exact hle
  · obtain ⟨current, fields, hstart, hfilled, -⟩ := RecordWriter.startSegment_spec c.environment w
    have hlength : (w.startSegment c.environment).current.records.length = 0 + 1 := by
      rw [hstart]
      exact hfilled.length
    exact hlength.le

end

/-- The segments that were drawn have identifiers of their own. -/
structure Distinct (source : SegmentProvider) (w : RecordWriter) : Prop where
  nodup : w.identifiers.Nodup
  source : ∀ segment ∈ w.sink, ∀ view, source segment.identifier ≠ .ok view

variable {segment : BuiltSegment} {recordType : RecordType} {referenced : List RecordIdentifier}
  {current : SegmentBufferBuilder} {fields : List Field} {record : RecordIdentifier}

theorem find?_of_nodup {sink : List BuiltSegment}
    (hnodup : (sink.map BuiltSegment.identifier).Nodup) (h : segment ∈ sink) :
    sink.find? (fun s => s.identifier == segment.identifier) = some segment := by
  induction sink with
  | nil => cases h
  | cons first sink ih =>
    rw [List.map_cons, List.nodup_cons] at hnodup
    rw [List.find?_cons]
    rcases List.mem_cons.mp h with rfl | hmem
    · rw [beq_self_eq_true]
    · have hne : first.identifier ≠ segment.identifier := fun heq =>
        hnodup.1 (heq ▸ List.mem_map_of_mem hmem)
      rw [beq_false_of_ne hne]
      exact ih hnodup.2 hmem

theorem destination_of_mem {source : SegmentProvider}
    (hnodup : w.identifiers.Nodup) (h : segment ∈ w.sink) :
    destination source w.sink segment.identifier = segment.view := by
  rw [destination, find?_of_nodup (List.Nodup.of_append_left hnodup) h]

/-- After a flush the segments of the sink serve all that was recorded. -/
theorem serves_destination (hleft : w.current.records.length ≤ 1)
    (hdistinct : Distinct c.source w) : Serves c (destination c.source w.sink) w := by
  refine ⟨hdistinct.nodup, fun segment view hview => ?_, fun record fields hrecorded => ?_⟩
  · have hnone : w.sink.find? (fun s => s.identifier == segment) = none := by
      rw [List.find?_eq_none]
      intro built hmem heq
      exact hdistinct.source built hmem view (beq_iff_eq.mp heq ▸ hview)
    rw [destination, hnone]
    exact hview
  · rcases hrecorded with ⟨segment, hmem, view, hidentifier, hview, hholds⟩ |
      ⟨number, _, _, hnumber, hholds⟩
    · refine ⟨view, ?_, hholds⟩
      rw [← hidentifier, destination_of_mem hdistinct.nodup hmem]
      exact hview
    · obtain ⟨hlt, -⟩ := List.getElem?_eq_some_iff.mp hholds.record
      omega

/-! ## Allocating -/

/-- A record is allocated in the segment under construction, or in a fresh one. -/
theorem allocate_ok {size number : Nat}
    (h : (allocate c.environment recordType size referenced).run w = .ok (number, w')) :
    ∃ w₁ current, Steps c w w₁ ∧
      w₁.current.allocate recordType size (referenced.map RecordIdentifier.segment) =
        some (number, current) ∧
      w' = { w₁ with current := current } := by
  replace h := get_bind_ok_iff.mp h
  split at h
  · rename_i record current halloc
    replace h := set_bind_ok_iff.mp h
    obtain ⟨rfl, rfl⟩ := pure_ok_iff.mp h
    exact ⟨_, current, Steps.refl _, halloc, rfl⟩
  · obtain ⟨_, w₁, hflush, h⟩ := bind_ok_iff.mp h
    replace h := get_bind_ok_iff.mp h
    split at h
    · rename_i record current halloc
      replace h := set_bind_ok_iff.mp h
      obtain ⟨rfl, rfl⟩ := pure_ok_iff.mp h
      exact ⟨_, current, flushCurrentSegment_steps hflush, halloc, rfl⟩
    · exact absurd h StateT.throw_ok

/-- Where a record that was filled stands. -/
theorem recorded_of_filled {referenced : List SegmentIdentifier} (hw : Valid c w)
    (hfilled : w.current.Filled current recordType referenced fields) :
    RecordWriter.Recorded { w with current := current }
      ⟨w.current.identifier, UInt32.ofNat w.current.records.length⟩ fields := by
  refine .inr ⟨w.current.records.length, recordType, ?_, hw.started, hfilled.holds⟩
  rw [hfilled.grows.identifier]

theorem not_used_of_filled (hbounded : w.current.Bounded) (hunique : w.identifiers.Nodup)
    (h : record = ⟨w.current.identifier, UInt32.ofNat w.current.records.length⟩) :
    ¬ w.Used record := by
  subst h
  rintro (hmem | ⟨-, hnumber⟩)
  · have hdisjoint := List.disjoint_of_nodup_append hunique
    exact hdisjoint hmem (List.mem_singleton_self _)
  · have hsize := hbounded.size
    unfold headerSize segmentReferenceSize recordReferenceSize maximumSegmentSize at hsize
    rw [UInt32.toNat_ofNat'] at hnumber
    omega

theorem used_of_filled {referenced : List SegmentIdentifier}
    (hfilled : w.current.Filled current recordType referenced fields) :
    RecordWriter.Used { w with current := current }
      ⟨w.current.identifier, UInt32.ofNat w.current.records.length⟩ := by
  refine .inr ⟨hfilled.grows.identifier.symm, ?_⟩
  show (UInt32.ofNat w.current.records.length).toNat < current.records.length
  rw [hfilled.length, UInt32.toNat_ofNat']
  exact Nat.lt_succ_of_le (Nat.mod_le ..)

/-- The identifier of a record was not given out before. -/
def New (w w' : RecordWriter) (record : RecordIdentifier) : Prop :=
  w'.Used record ∧ (w'.identifiers.Nodup → ¬ w.Used record)

theorem New.mono {w₁ w₂ w₃ w₄ : RecordWriter} (h : New w₂ w₃ record)
    (hbefore : Steps c w₁ w₂) (hafter : Steps c w₃ w₄) : New w₁ w₄ record :=
  ⟨hafter.used h.1, fun hunique hused =>
    h.2 (hafter.identifiers.nodup hunique) (hbefore.used hused)⟩

/-- One record is written: all of it is recorded, in the segment that was current when it was
allocated. -/
theorem writeRecord_spec {size : Nat} {own : RecordIdentifier} {fields : RecordIdentifier → List Field} (hw : Valid c w)
    (h : (writeRecord c.environment recordType size referenced fields).run w = .ok (own, w'))
    (htype : recordType ≠ .externalBlobIdentifier)
    (hsize : ∀ own, size = fieldsLength (fields own)) (hpos : 0 < size)
    (hfields : ∀ own record, .identifier record ∈ fields own → record = own ∨ record ∈ referenced)
    (hreferenced : ∀ record ∈ referenced, Allowed c w record.segment) :
    Steps c w w' ∧ w'.Recorded own (fields own) ∧ own.segment = w'.current.identifier ∧
      New w w' own := by
  obtain ⟨number, _, hallocated, h⟩ := bind_ok_iff.mp h
  replace h := get_bind_ok_iff.mp h
  replace h := set_bind_ok_iff.mp h
  obtain ⟨hown, rfl⟩ := pure_ok_iff.mp h
  obtain ⟨w₁, current, hsteps, halloc, rfl⟩ := allocate_ok hallocated
  have hw₁ := hsteps.valid hw
  have hidentifier : current.identifier = w₁.current.identifier := by
    unfold SegmentBufferBuilder.allocate at halloc
    split at halloc
    · cases halloc
      rfl
    · cases halloc
  dsimp only at hown ⊢
  rw [hown]
  rw [hidentifier] at hown
  obtain ⟨hnumber, hfilled⟩ := SegmentBufferBuilder.allocate_fill hw₁.bounded halloc (hsize own)
    hpos (by
      intro record hmem
      rcases hfields own record hmem with hself | hmem
      · rw [hself, ← hown]
        exact .inl rfl
      · exact .inr (List.mem_map_of_mem hmem))
  have hstep : Step c w₁ { w₁ with current := current.fill number 0 (fields own) } :=
    .record hfilled htype fun record hmem => hsteps.allowed (hreferenced record hmem)
  have hrecorded := recorded_of_filled hw₁ hfilled
  have hused := used_of_filled hfilled
  rw [← hnumber, hown] at hrecorded hused
  refine ⟨hsteps.trans hstep.steps, hrecorded, ?_, hused, fun hunique hbefore => ?_⟩
  · rw [hfilled.grows.identifier, ← hown]
  · exact not_used_of_filled hw₁.bounded (hstep.identifiers.nodup hunique)
      (by rw [← hown, hnumber]) (hsteps.used hbefore)

/-! ## Loops -/

/-- What every round of a loop says of its result, and later steps keep, holds at its end. -/
theorem mapM_steps {α β : Type} {f : α → Writing β} {Q : α → β → RecordWriter → Prop}
    {l : List α} {bs : List β} (hw : Valid c w)
    (hmono : ∀ a b w w', Valid c w → Steps c w w' → Q a b w → Q a b w')
    (hstep : ∀ a ∈ l, ∀ t b t', Valid c t → Steps c w t → (f a).run t = .ok (b, t') →
      Steps c t t' ∧ Q a b t')
    (h : (l.mapM f).run w = .ok (bs, w')) :
    Steps c w w' ∧ List.Forall₂ (fun a b => Q a b w') l bs := by
  obtain ⟨hsteps, hall⟩ := StateT.mapM_spec (R := Steps c) (Q := fun a b s => Valid c s ∧ Q a b s)
    Steps.refl (fun _ _ _ => Steps.trans)
    (fun a b s t hQ hsteps => ⟨hsteps.valid hQ.1, hmono a b s t hQ.1 hsteps hQ.2⟩)
    (fun a ha t b t' ht hrun => by
      have hvalid := ht.valid hw
      obtain ⟨hstep, hQ⟩ := hstep a ha t b t' hvalid ht hrun
      exact ⟨hstep, hstep.valid hvalid, hQ⟩) h
  exact ⟨hsteps, hall.imp fun _ _ hQ => hQ.2⟩

/-- A loop that writes one record a round: where the records are and what is assured of them. -/
theorem mapM_assured {α : Type} {f : α → Writing RecordIdentifier}
    {P : α → RecordIdentifier → SegmentProvider → Prop} {l : List α} {bs : List RecordIdentifier}
    (hw : Valid c w)
    (hstep : ∀ a ∈ l, ∀ t b t', Valid c t → Steps c w t → (f a).run t = .ok (b, t') →
      Steps c t t' ∧ Allowed c t' b.segment ∧ Assured c t' (P a b))
    (h : (l.mapM f).run w = .ok (bs, w')) :
    Steps c w w' ∧ (∀ b ∈ bs, Allowed c w' b.segment) ∧
      Assured c w' fun p => List.Forall₂ (fun a b => P a b p) l bs := by
  obtain ⟨hsteps, hall⟩ := mapM_steps
    (Q := fun a (b : RecordIdentifier) w => Allowed c w b.segment ∧ Assured c w (P a b)) hw
    (fun a b w w' hw hsteps hQ => ⟨hsteps.allowed hQ.1, hsteps.assured hw hQ.2⟩) hstep h
  refine ⟨hsteps, fun b hb => ?_, fun p hp => hall.imp fun a b hQ => hQ.2 p hp⟩
  obtain ⟨i, hi, rfl⟩ := List.getElem_of_mem hb
  have := List.forall₂_iff_get.mp hall
  exact (this.2 i (by omega) hi).1

end Froe
