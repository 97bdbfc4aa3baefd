import Froe.ExternalSort.Runs
import Froe.Lib.Except
import Mathlib.Algebra.Order.BigOperators.Group.List

/-!
# What a pass yields

A run file of an ascending sequence is read back record by record, and a pass over
several such files yields all their records in ascending order.  `SortedPass.Yields`
says which records a pass still has before it.
-/

namespace Froe

open List (append_assoc append_nil length_append map_append nil_subset)

open SpillRecord

variable {Record : Type} [SpillRecord Record]

/-! ## Run files -/

/-- A record whose length the spill format can hold. -/
def Fits (record : Record) : Prop := (encode record).length < 2 ^ 32

instance (record : Record) : Decidable (Fits record) := inferInstanceAs (Decidable (_ < _))

def Ascending (records : List Record) : Prop :=
  records.Pairwise fun a b => (SpillRecord.cmp a b).isLE

def encodeRun (records : List Record) : Bytes :=
  records.flatMap fun record => (Bytes.be 4 (encode record).length).reverse ++ encode record

variable {records rest left : List Record} {disk : Disk} {path : RunPath} {cursor : RunCursor}
  {cursors : List RunCursor} {rests : List (List Record)} {pass : SortedPass Record}
  {run : RunPath → List Record} {paths : List RunPath}

theorem encodeRecords_ok (h : ∀ record ∈ records, Fits record) :
    encodeRecords (records.map .ok) = (.ok (), encodeRun records) := by
  induction records with
  | nil => rfl
  | cons record records ih =>
    rw [List.forall_mem_cons] at h
    rw [List.map_cons, encodeRecords, ih h.2]
    dsimp only
    rw [if_pos (show (encode record).length < 2 ^ 32 from h.1), encodeRun, encodeRun,
      List.flatMap_cons]

theorem writeRun_ok (hpath : disk path = none) (h : ∀ record ∈ records, Fits record) :
    writeRun disk path (records.map .ok) =
      (.ok (), Function.update disk path (some (encodeRun records))) := by
  rw [writeRun, hpath]
  dsimp only
  rw [encodeRecords_ok h]

theorem nextRecord_nil (h : cursor.reader.getD [] = []) :
    cursor.nextRecord Record = (.ok none, { cursor with reader := none }) := by
  obtain ⟨path, reader⟩ := cursor
  cases reader with
  | none => rfl
  | some bytes =>
    obtain rfl : bytes = [] := h
    rfl

theorem nextRecord_cons [LawfulSpillRecord Record] {record : Record} (h : cursor.reader.getD [] = encodeRun (record :: records))
    (hfits : Fits record) :
    cursor.nextRecord Record =
      (.ok (some record), { cursor with reader := some (encodeRun records) }) := by
  obtain ⟨path, reader⟩ := cursor
  obtain ⟨bytes, rfl⟩ : ∃ bytes, reader = some bytes := by
    cases reader with
    | none =>
      have hlength := congrArg List.length h
      rw [encodeRun, List.flatMap_cons, append_assoc, length_append,
        List.length_reverse, Bytes.length_be] at hlength
      exact absurd hlength (by rw [Option.getD_none, List.length_nil]; omega)
    | some bytes => exact ⟨bytes, rfl⟩
  obtain rfl : bytes = (Bytes.be 4 (encode record).length).reverse ++
      (encode record ++ encodeRun records) := by
    rw [← append_assoc]
    exact h
  have hfour : ((Bytes.be 4 (encode record).length).reverse).length = 4 := by
    rw [List.length_reverse, Bytes.length_be]
  have hlength : Bytes.ofBe (Bytes.be 4 (encode record).length) = (encode record).length :=
    Bytes.ofBe_be_of_lt hfits
  rw [RunCursor.nextRecord]
  dsimp only
  rw [if_neg (by rw [length_append, hfour]; omega),
    List.take_append_of_le_length hfour.ge, List.take_of_length_le hfour.le, List.reverse_reverse,
    hlength, List.drop_append_of_le_length hfour.ge, List.drop_of_length_le hfour.le,
    List.nil_append, if_neg (by rw [length_append]; omega), List.take_left, List.drop_left,
    LawfulSpillRecord.decode_encode record hfits]
  rfl

theorem length_le_encodeRun (records : List Record) : records.length ≤ (encodeRun records).length := by
  induction records with
  | nil => exact Nat.zero_le _
  | cons record records ih =>
    rw [encodeRun, List.flatMap_cons, length_append, length_append, List.length_reverse,
      Bytes.length_be, List.length_cons]
    rw [encodeRun] at ih
    omega

/-! ## Passes -/

/-- The cursors of a pass stand before these records. -/
def ReadFrom (cursors : List RunCursor) (rests : List (List Record)) : Prop :=
  cursors.map (fun cursor => cursor.reader.getD []) = rests.map encodeRun

inductive SortedPass.Yields (pass : SortedPass Record) (left : List Record) : Prop where
  | resident (only : pass.residentOnly = true) (same : pass.resident = left)
      (ascending : Ascending left) (fits : ∀ record ∈ left, Fits record)
  | merging (rests : List (List Record)) (only : pass.residentOnly = false)
      (resident : pass.resident = [])
      (cursors : Merge.Cursors SpillRecord.cmp pass.heap rests)
      (readers : ReadFrom pass.cursors rests)
      (perm : (Merge.content pass.heap rests).Perm left)
      (fits : ∀ record ∈ left, Fits record)

theorem ReadFrom.get (h : ReadFrom cursors rests) {run : Nat} (hrest : rests[run]? = some rest) :
    ∃ cursor, cursors[run]? = some cursor ∧ cursor.reader.getD [] = encodeRun rest := by
  have hget : (cursors.map fun cursor => cursor.reader.getD [])[run]? =
      (rests.map encodeRun)[run]? := by
    rw [show cursors.map (fun cursor => cursor.reader.getD []) = rests.map encodeRun from h]
  rw [List.getElem?_map, List.getElem?_map, hrest, Option.map_some, Option.map_eq_some_iff] at hget
  exact hget

theorem ReadFrom.set (h : ReadFrom cursors rests) (run : Nat)
    (hcursor : cursor.reader.getD [] = encodeRun rest) :
    ReadFrom (cursors.set run cursor) (rests.set run rest) := by
  rw [ReadFrom, List.map_set, List.map_set, h, hcursor]

theorem set_of_getElem? {α : Type} {l : List α} {i : Nat} {a : α} (h : l[i]? = some a) :
    l.set i a = l := by
  obtain ⟨hlt, rfl⟩ := List.getElem?_eq_some_iff.mp h
  exact List.set_getElem_self hlt

theorem map_path_set {run : Nat} (hcursor : cursors[run]? = some cursor) (reader : Option Bytes) :
    (cursors.set run { cursor with reader := reader }).map RunCursor.path =
      cursors.map RunCursor.path := by
  rw [List.map_set]
  refine set_of_getElem? ?_
  rw [List.getElem?_map, hcursor, Option.map_some]

/-- What a step of a pass keeps. -/
structure SortedPass.SameFiles (pass pass' : SortedPass Record) (unlinked : List RunPath) : Prop where
  paths : pass'.cursors.map RunCursor.path = pass.cursors.map RunCursor.path
  unlinkExhausted : pass'.unlinkExhausted = pass.unlinkExhausted
  unlinked : unlinked ⊆ pass.unlinked

/-- A step yields a least record of those that are left, or there is none left. -/
theorem SortedPass.Yields.advance [LawfulSpillRecord Record] (h : pass.Yields left) :
    (left = [] ∧ pass.advance = none) ∨
      ∃ record pass' unlinked left', pass.advance = some (.ok record, pass', unlinked) ∧
        pass'.Yields left' ∧ (record :: left').Perm left ∧
        (∀ other ∈ left, (SpillRecord.cmp record other).isLE) ∧
        pass.SameFiles pass' unlinked := by
  cases h with
  | resident only same ascending fits =>
    rw [SortedPass.advance, if_pos only, same]
    cases left with
    | nil => exact .inl ⟨rfl, rfl⟩
    | cons record left =>
      rw [List.forall_mem_cons] at fits
      obtain ⟨hfirst, hrest⟩ := List.pairwise_cons.mp ascending
      refine .inr ⟨record, { pass with resident := left }, [], left, ?_,
        .resident only rfl hrest fits.2, .refl _, ?_, ?_⟩
      · dsimp only
        rw [LawfulSpillRecord.decode_encode record fits.1]
      · intro other hmem
        rcases List.mem_cons.mp hmem with rfl | hother
        · exact Std.ReflCmp.isLE_rfl
        · exact hfirst other hother
      · exact ⟨rfl, rfl, nil_subset _⟩
  | merging rests only resident cursors readers perm fits =>
    rw [SortedPass.advance, if_neg (by rw [only]; nofun)]
    cases hpop : Merge.popLeast (Merge.Head.cmp SpillRecord.cmp) pass.heap with
    | none =>
      rw [Merge.popLeast_eq_none] at hpop
      rw [hpop] at cursors perm
      rw [cursors.content_eq_nil] at perm
      exact .inl ⟨perm.nil_eq.symm, rfl⟩
    | some popped =>
      obtain ⟨head, heap⟩ := popped
      have hhead : head ∈ pass.heap := (Merge.popLeast_perm hpop).subset (.head _)
      obtain ⟨rest, hrest, -⟩ := cursors.ascending head hhead
      obtain ⟨cursor, hcursor, hreader⟩ := readers.get hrest
      have hleast : ∀ other ∈ left, (SpillRecord.cmp head.record other).isLE :=
        fun other hmem => cursors.le_content hpop (perm.mem_iff.mpr hmem)
      dsimp only
      rw [hcursor]
      dsimp only
      cases rest with
      | nil =>
        obtain ⟨hcursors, hperm⟩ := cursors.pop_nil hpop hrest
        have hreaders := readers.set head.run
          (show ({ cursor with reader := none } : RunCursor).reader.getD [] = encodeRun [] from rfl)
        rw [set_of_getElem? hrest] at hreaders
        have hsub : ∀ record ∈ Merge.content heap rests, Fits record := fun record hmem =>
          fits record (perm.mem_iff.mp (hperm.mem_iff.mp (List.mem_cons_of_mem _ hmem)))
        rw [nextRecord_nil hreader]
        dsimp only
        by_cases hunlink : pass.unlinkExhausted = true
        · rw [if_pos hunlink]
          refine .inr ⟨head.record, _, _, _, rfl, .merging rests only resident hcursors hreaders
            (.refl _) hsub, hperm.trans perm, hleast, map_path_set hcursor none, rfl, ?_⟩
          rw [SortedPass.unlinked, if_pos hunlink]
          exact List.cons_subset.mpr
            ⟨List.mem_map_of_mem (List.mem_of_getElem? hcursor), nil_subset _⟩
        · rw [if_neg hunlink]
          exact .inr ⟨head.record, _, _, _, rfl, .merging rests only resident hcursors hreaders
            (.refl _) hsub, hperm.trans perm, hleast, map_path_set hcursor none, rfl,
            nil_subset _⟩
      | cons next rest =>
        obtain ⟨hcursors, hperm⟩ := cursors.pop_cons hpop hrest
        have hnext : Fits next := by
          refine fits next (perm.mem_iff.mp (List.mem_append_right _ ?_))
          exact List.mem_flatten.mpr ⟨_, List.mem_of_getElem? hrest, .head _⟩
        have hsub : ∀ record ∈ Merge.content (⟨next, head.run⟩ :: heap) (rests.set head.run rest),
            Fits record := fun record hmem =>
          fits record (perm.mem_iff.mp (hperm.mem_iff.mp (List.mem_cons_of_mem _ hmem)))
        rw [nextRecord_cons hreader hnext]
        exact .inr ⟨head.record, _, _, _, rfl, .merging _ only resident hcursors
          (readers.set head.run rfl) (.refl _) hsub, hperm.trans perm, hleast,
          map_path_set hcursor _, rfl, nil_subset _⟩

/-- The number of records that are left is at most the size of a pass. -/
theorem SortedPass.Yields.length_le (h : pass.Yields left) : left.length ≤ pass.size := by
  cases h with
  | resident _ same _ _ =>
    rw [SortedPass.size, same]
    exact Nat.le_add_left _ _
  | merging rests _ _ _ readers perm _ =>
    have hbytes : rests.flatten.length ≤
        (pass.cursors.map fun cursor => (cursor.reader.getD []).length).sum := by
      have hmap : pass.cursors.map (fun cursor => (cursor.reader.getD []).length) =
          rests.map fun rest => (encodeRun rest).length := by
        have hlengths := congrArg (List.map List.length) readers
        rwa [List.map_map, List.map_map] at hlengths
      rw [hmap, List.length_flatten]
      exact List.sum_le_sum fun rest _ => length_le_encodeRun rest
    rw [← perm.length_eq, Merge.content, length_append, List.length_map, SortedPass.size]
    omega

/-- A pass that is walked to its end yields all records in ascending order. -/
theorem SortedPass.Yields.items [LawfulSpillRecord Record] {fuel : Nat} (h : pass.Yields left) (hfuel : left.length ≤ fuel) :
    ∃ sorted : List Record, pass.items fuel = sorted.map .ok ∧ sorted.Perm left ∧
      Ascending sorted := by
  induction fuel generalizing pass left with
  | zero =>
    obtain rfl := List.length_eq_zero_iff.mp (Nat.le_zero.mp hfuel)
    exact ⟨[], rfl, .refl _, .nil⟩
  | succ fuel ih =>
    rw [SortedPass.items]
    rcases h.advance with ⟨rfl, hnone⟩ | ⟨record, pass', unlinked, left', hsome, hyields, hperm,
      hleast, -⟩
    · rw [hnone]
      exact ⟨[], rfl, .refl _, .nil⟩
    · have hlength := hperm.length_eq
      rw [List.length_cons] at hlength
      obtain ⟨sorted, hitems, hsorted, hascending⟩ := ih hyields (by omega)
      rw [hsome]
      refine ⟨record :: sorted, ?_, (hsorted.cons record).trans hperm, ?_⟩
      · dsimp only
        rw [hitems, List.map_cons]
      · refine List.pairwise_cons.mpr ⟨fun other hmem => ?_, hascending⟩
        exact hleast other (hperm.subset (List.mem_cons_of_mem _ (hsorted.subset hmem)))

/-! ## Opening -/

/-- The file of a run. -/
structure OnDisk (disk : Disk) (run : RunPath → List Record) (path : RunPath) : Prop where
  bytes : disk path = some (encodeRun (run path))
  ascending : Ascending (run path)
  fits : ∀ record ∈ run path, Fits record

theorem OnDisk.congr {disk' : Disk} {run' : RunPath → List Record}
    (h : OnDisk disk run path) (hdisk : disk' path = disk path) (hrun : run' path = run path) :
    OnDisk disk' run' path := by
  refine ⟨?_, ?_, ?_⟩
  · rw [hdisk, hrun]
    exact h.bytes
  · rw [hrun]
    exact h.ascending
  · rw [hrun]
    exact h.fits

theorem SortedPass.openRun_ok [LawfulSpillRecord Record]
    (h : pass.Yields left) (honly : pass.residentOnly = false) (hpath : OnDisk disk run path) :
    ∃ pass', pass.openRun disk path = .ok pass' ∧ pass'.Yields (left ++ run path) ∧
      pass'.residentOnly = false ∧ pass'.unlinkExhausted = pass.unlinkExhausted ∧
      pass'.cursors.map RunCursor.path = pass.cursors.map RunCursor.path ++ [path] := by
  cases h with
  | resident only _ _ _ =>
    rw [honly] at only
    cases only
  | merging rests only resident cursors readers perm fits =>
    have hlength : pass.cursors.length = rests.length := by
      have hlengths := congrArg List.length readers
      rwa [List.length_map, List.length_map] at hlengths
    have hfits : ∀ record ∈ left ++ run path, Fits record :=
      List.forall_mem_append.mpr ⟨fits, hpath.fits⟩
    rw [SortedPass.openRun, RunCursor.open, hpath.bytes]
    dsimp only
    rw [Except.ok_bind_eq]
    cases hrun : run path with
    | nil =>
      rw [nextRecord_nil rfl]
      refine ⟨_, rfl, ?_, only, rfl, ?_⟩
      · refine .merging (rests ++ [[]]) only resident cursors.push_nil ?_ ?_ ?_
        · rw [ReadFrom, map_append, map_append, readers]
          rfl
        · rw [Merge.content, List.flatten_append, List.flatten_singleton, append_nil,
            append_nil]
          exact perm
        · rw [← hrun]
          exact hfits
      · rw [map_append]
        rfl
    | cons record records =>
      have hascending := hpath.ascending
      rw [hrun] at hfits hascending
      rw [nextRecord_cons rfl (hfits record (List.mem_append_right _ (.head _))), hlength]
      refine ⟨_, rfl, ?_, only, rfl, ?_⟩
      · refine .merging (rests ++ [records]) only resident (cursors.push hascending) ?_ ?_ hfits
        · rw [ReadFrom, map_append, map_append, readers]
          rfl
        · rw [Merge.content, List.flatten_append, List.flatten_singleton, List.map_cons,
            List.cons_append, ← append_assoc]
          exact List.perm_middle.symm.trans (perm.append_right _)
      · rw [map_append]
        rfl

theorem SortedPass.open_from [LawfulSpillRecord Record]
    (h : pass.Yields left) (honly : pass.residentOnly = false)
    (hpaths : ∀ path ∈ paths, OnDisk disk run path) :
    ∃ pass', paths.foldlM (SortedPass.openRun disk) pass = .ok pass' ∧
      pass'.Yields (left ++ paths.flatMap run) ∧
      pass'.unlinkExhausted = pass.unlinkExhausted ∧
      pass'.cursors.map RunCursor.path = pass.cursors.map RunCursor.path ++ paths := by
  induction paths generalizing pass left with
  | nil =>
    refine ⟨pass, rfl, ?_, rfl, (append_nil _).symm⟩
    rwa [List.flatMap_nil, append_nil]
  | cons path paths ih =>
    rw [List.forall_mem_cons] at hpaths
    obtain ⟨next, hnext, hyields, honly', hunlink, hmap⟩ := openRun_ok h honly hpaths.1
    obtain ⟨last, hlast, hyields', hunlink', hmap'⟩ := ih hyields honly' hpaths.2
    refine ⟨last, Except.foldlM_cons_ok_iff.mpr ⟨next, hnext, hlast⟩, ?_, hunlink'.trans hunlink, ?_⟩
    · rwa [List.flatMap_cons, ← append_assoc]
    · rw [hmap', hmap, append_assoc]
      rfl

/-- A pass over run files has all their records before it. -/
theorem SortedPass.open_ok [LawfulSpillRecord Record] (hpaths : ∀ path ∈ paths, OnDisk disk run path) (owned : Bool) :
    ∃ pass : SortedPass Record, SortedPass.open disk paths owned = .ok pass ∧
      pass.Yields (paths.flatMap run) ∧ pass.unlinkExhausted = owned ∧
      pass.cursors.map RunCursor.path = paths := by
  have hstart : (⟨[], [], owned, [], false⟩ : SortedPass Record).Yields [] :=
    .merging [] rfl rfl ⟨.nil, nofun, nofun⟩ rfl (.refl _) nofun
  obtain ⟨pass, hopen, hyields, hunlink, hmap⟩ := open_from hstart rfl hpaths
  exact ⟨pass, hopen, hyields, hunlink, hmap⟩

end Froe
