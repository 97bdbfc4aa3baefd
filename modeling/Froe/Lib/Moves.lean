import Mathlib.Data.Finmap

/-!
# Files moved aside

Files are moved to free names one after the other, and moved back.  `Moved` says what is under
every name while some moves stand: nothing under the name that a file was moved from, the file
under the name that it was moved to, and under any other name what the base has there.
-/

namespace Moves

open List (map_append mem_append mem_map mem_singleton)
open Finmap (lookup_erase_ne lookup_insert lookup_insert_of_ne)

variable {κ β : Type} [DecidableEq κ]

/-- A second name for a file, unless it is missing. -/
def link? (source target : κ) (files : Finmap fun _ : κ => β) : Option (Finmap fun _ : κ => β) :=
  (files.lookup source).map fun file => files.insert target file

/-- Another name for a file, unless it is missing. -/
def rename? (source target : κ) (files : Finmap fun _ : κ => β) :
    Option (Finmap fun _ : κ => β) :=
  (files.lookup source).map fun file => Finmap.insert target file (files.erase source)

/-- The files of a base after some moves. -/
structure Moved (base : Finmap fun _ : κ => β) (moves : List (κ × κ))
    (files : Finmap fun _ : κ => β) : Prop where
  sources : (moves.map Prod.fst).Nodup
  targets : (moves.map Prod.snd).Nodup
  source_mem : ∀ move ∈ moves, move.1 ∈ base
  target_free : ∀ move ∈ moves, move.2 ∉ base
  gone : ∀ move ∈ moves, files.lookup move.1 = none
  moved : ∀ move ∈ moves, files.lookup move.2 = base.lookup move.1
  others : ∀ key, (∀ move ∈ moves, key ≠ move.1 ∧ key ≠ move.2) →
    files.lookup key = base.lookup key

variable {base files next : Finmap fun _ : κ => β} {moves front kept : List (κ × κ)}
  {source target key : κ} {file : β}

theorem mem_iff_lookup : key ∈ files ↔ files.lookup key ≠ none := by
  rw [← Finmap.lookup_isSome, Option.isSome_iff_ne_none]

theorem link?_eq (h : files.lookup source = some file) :
    link? source target files = some (files.insert target file) := by
  rw [link?, h]
  rfl

theorem rename?_eq (h : files.lookup source = some file) :
    rename? source target files = some (Finmap.insert target file (files.erase source)) := by
  rw [rename?, h]
  rfl

theorem lookup_renamed (hne : key ≠ target) :
    (Finmap.insert target file (files.erase source)).lookup key =
      if key = source then none else files.lookup key := by
  rw [lookup_insert_of_ne _ hne]
  by_cases hkey : key = source
  · rw [if_pos hkey, hkey, Finmap.lookup_erase]
  · rw [if_neg hkey, lookup_erase_ne hkey]

theorem moved_nil_iff : Moved base [] files ↔ files = base := by
  constructor
  · intro h
    exact Finmap.ext_lookup fun key => h.others key nofun
  · rintro rfl
    exact ⟨List.nodup_nil, List.nodup_nil, nofun, nofun, nofun, nofun, fun _ _ => rfl⟩

namespace Moved

/-- A file that was moved is there under its new name. -/
theorem target_mem (h : Moved base moves files) {move : κ × κ} (hmove : move ∈ moves) :
    move.2 ∈ files := by
  rw [mem_iff_lookup, h.moved move hmove]
  exact mem_iff_lookup.mp (h.source_mem move hmove)

/-- One more file is moved to a free name. -/
theorem rename (h : Moved base moves files) (hfile : files.lookup source = some file)
    (hsource : source ∈ base) (hbase : target ∉ base) (hfree : files.lookup target = none) :
    Moved base (moves ++ [(source, target)]) (Finmap.insert target file (files.erase source)) := by
  have hsources : ∀ move ∈ moves, move.1 ≠ source := by
    rintro move hmove rfl
    rw [h.gone move hmove] at hfile
    cases hfile
  have htargets : ∀ move ∈ moves, move.2 ≠ target := by
    rintro move hmove rfl
    exact mem_iff_lookup.mp (h.target_mem hmove) hfree
  have hcross : ∀ move ∈ moves, move.1 ≠ target ∧ move.2 ≠ source := by
    intro move hmove
    constructor
    · rintro rfl
      exact hbase (h.source_mem move hmove)
    · rintro rfl
      exact h.target_free move hmove hsource
  have hne : source ≠ target := by
    rintro rfl
    exact hbase hsource
  have hbaseFile : base.lookup source = some file := by
    rw [← hfile, h.others source fun move hmove =>
      ⟨(hsources move hmove).symm, (hcross move hmove).2.symm⟩]
  refine ⟨?_, ?_, ?_, ?_, ?_, ?_, ?_⟩
  · rw [map_append, List.nodup_append']
    refine ⟨h.sources, List.nodup_singleton _, ?_⟩
    intro key hkey hlast
    obtain ⟨move, hmove, rfl⟩ := mem_map.mp hkey
    exact hsources move hmove (mem_singleton.mp hlast)
  · rw [map_append, List.nodup_append']
    refine ⟨h.targets, List.nodup_singleton _, ?_⟩
    intro key hkey hlast
    obtain ⟨move, hmove, rfl⟩ := mem_map.mp hkey
    exact htargets move hmove (mem_singleton.mp hlast)
  · intro move hmove
    rcases mem_append.mp hmove with hmove | hmove
    · exact h.source_mem move hmove
    · exact mem_singleton.mp hmove ▸ hsource
  · intro move hmove
    rcases mem_append.mp hmove with hmove | hmove
    · exact h.target_free move hmove
    · exact mem_singleton.mp hmove ▸ hbase
  · intro move hmove
    rcases mem_append.mp hmove with hmove | hmove
    · rw [lookup_renamed (hcross move hmove).1, if_neg (hsources move hmove)]
      exact h.gone move hmove
    · obtain rfl := mem_singleton.mp hmove
      rw [lookup_renamed hne, if_pos rfl]
  · intro move hmove
    rcases mem_append.mp hmove with hmove | hmove
    · rw [lookup_renamed (htargets move hmove), if_neg (hcross move hmove).2]
      exact h.moved move hmove
    · obtain rfl := mem_singleton.mp hmove
      rw [lookup_insert, hbaseFile]
  · intro key hkey
    obtain ⟨hnotSource, hnotTarget⟩ :=
      hkey (source, target) (List.mem_append_right _ (List.mem_singleton_self _))
    rw [lookup_renamed hnotTarget, if_neg hnotSource]
    exact h.others key fun move hmove => hkey move (List.mem_append_left _ hmove)

/-- A move is taken back. -/
theorem restore (h : Moved base (front ++ (source, target) :: kept) files) :
    ∃ file, files.lookup target = some file ∧
      Moved base (front ++ kept) (Finmap.insert source file (files.erase target)) := by
  have hmem : (source, target) ∈ front ++ (source, target) :: kept := by simp
  have hsub : (front ++ kept).Sublist (front ++ (source, target) :: kept) :=
    List.Sublist.append_left (List.sublist_cons_self ..) front
  obtain ⟨file, hfile⟩ := Option.ne_none_iff_exists'.mp (mem_iff_lookup.mp (h.source_mem _ hmem))
  have htarget : files.lookup target = some file := (h.moved _ hmem).trans hfile
  have hsources := h.sources
  rw [map_append, List.map_cons, List.nodup_middle, ← map_append] at hsources
  have htargets := h.targets
  rw [map_append, List.map_cons, List.nodup_middle, ← map_append] at htargets
  obtain ⟨hnotSource, hsources⟩ := List.nodup_cons.mp hsources
  obtain ⟨hnotTarget, htargets⟩ := List.nodup_cons.mp htargets
  have hother : ∀ move ∈ front ++ kept, move.1 ≠ source ∧ move.2 ≠ target ∧ move.1 ≠ target ∧
      move.2 ≠ source := by
    intro move hmove
    refine ⟨?_, ?_, ?_, ?_⟩
    · exact fun heq => hnotSource (mem_map.mpr ⟨move, hmove, heq⟩)
    · exact fun heq => hnotTarget (mem_map.mpr ⟨move, hmove, heq⟩)
    · rintro rfl
      exact h.target_free _ hmem (h.source_mem move (hsub.subset hmove))
    · rintro rfl
      exact h.target_free move (hsub.subset hmove) (h.source_mem _ hmem)
  refine ⟨file, htarget, hsources, htargets, fun move hmove => h.source_mem move (hsub.subset hmove),
    fun move hmove => h.target_free move (hsub.subset hmove), ?_, ?_, ?_⟩
  · intro move hmove
    obtain ⟨hsource, -, hcross, -⟩ := hother move hmove
    rw [lookup_renamed hsource, if_neg hcross]
    exact h.gone move (hsub.subset hmove)
  · intro move hmove
    obtain ⟨-, hne, -, hcross⟩ := hother move hmove
    rw [lookup_renamed hcross, if_neg hne]
    exact h.moved move (hsub.subset hmove)
  · intro key hkey
    by_cases hsource : key = source
    · rw [hsource, lookup_insert, hfile]
    rw [lookup_renamed hsource]
    by_cases htarget' : key = target
    · rw [if_pos htarget', htarget']
      by_contra hbase
      exact h.target_free _ hmem (mem_iff_lookup.mpr fun hnone => hbase hnone.symm)
    · rw [if_neg htarget']
      refine h.others key fun move hmove => ?_
      rcases mem_append.mp hmove with hmove | hmove
      · exact hkey move (List.mem_append_left _ hmove)
      rcases List.mem_cons.mp hmove with rfl | hmove
      · exact ⟨hsource, htarget'⟩
      · exact hkey move (List.mem_append_right _ hmove)

/-- A file under a name that no move has to do with. -/
theorem insert (h : Moved base moves files) (file : β)
    (hkey : ∀ move ∈ moves, move.1 ≠ key ∧ move.2 ≠ key) :
    Moved (base.insert key file) moves (files.insert key file) where
  sources := h.sources
  targets := h.targets
  source_mem move hmove := Finmap.mem_insert.mpr (.inr (h.source_mem move hmove))
  target_free move hmove hmem := by
    rcases Finmap.mem_insert.mp hmem with heq | hmem
    · exact (hkey move hmove).2 heq
    · exact h.target_free move hmove hmem
  gone move hmove := by
    rw [lookup_insert_of_ne _ (hkey move hmove).1]
    exact h.gone move hmove
  moved move hmove := by
    rw [lookup_insert_of_ne _ (hkey move hmove).2,
      lookup_insert_of_ne _ (hkey move hmove).1]
    exact h.moved move hmove
  others other hother := by
    by_cases heq : other = key
    · rw [heq, lookup_insert, lookup_insert]
    · rw [lookup_insert_of_ne _ heq, lookup_insert_of_ne _ heq]
      exact h.others other hother

/-- A name that no move has to do with is given up. -/
theorem erase (h : Moved base moves files) (hkey : ∀ move ∈ moves, move.1 ≠ key ∧ move.2 ≠ key) :
    Moved (base.erase key) moves (files.erase key) where
  sources := h.sources
  targets := h.targets
  source_mem move hmove := Finmap.mem_erase.mpr ⟨(hkey move hmove).1, h.source_mem move hmove⟩
  target_free move hmove hmem := h.target_free move hmove (Finmap.mem_erase.mp hmem).2
  gone move hmove := by
    rw [lookup_erase_ne (hkey move hmove).1]
    exact h.gone move hmove
  moved move hmove := by
    rw [lookup_erase_ne (hkey move hmove).2, lookup_erase_ne (hkey move hmove).1]
    exact h.moved move hmove
  others other hother := by
    by_cases heq : other = key
    · rw [heq, Finmap.lookup_erase, Finmap.lookup_erase]
    · rw [lookup_erase_ne heq, lookup_erase_ne heq]
      exact h.others other hother

end Moved

end Moves
