import Froe.Lib.OrderedMap
import Froe.Tar.Index
import Mathlib.Data.List.Sort

/-!
# Archive file names

The number of an archive is its place in write order, and the letter is its file
generation: a rewrite takes the next letter.  A name without a letter counts as
generation `a`, so that one archive can have two names there and only there
(`eq_or_letterless`).

A directory listing is grouped by number, newest number first and newest letter
first within a number.  Two names of one number and letter are an error.  The
groups do not depend on the order of the listing (`group_ok_iff`).
-/

namespace Froe

open List (append_nil map_append mem_append)
open Digits (padded)

/-- The parsed name of one segment archive. -/
structure ArchiveFileName where
  /-- The complete file name. -/
  fileName : String
  /-- The archive number. -/
  archiveNumber : Nat
  /-- The character code of the generation letter. -/
  fileGeneration : Nat
deriving DecidableEq, Repr

namespace ArchiveFileName

/-- The digits and the generation letter between the fixed parts of a name. -/
def splitGeneration (middle : Bytes) : Option (Bytes × Nat) := do
  let last ← middle.getLast?
  if 97 ≤ last.toNat ∧ last.toNat ≤ 122 then some (middle.dropLast, last.toNat)
  else if 48 ≤ last.toNat ∧ last.toNat ≤ 57 then some (middle, 97)
  else none

/-- Parses an archive file name. -/
def parse (fileName : String) : Option ArchiveFileName := do
  let rest ← fileName.utf8.dropPrefix? "data".utf8
  let middle ← rest.dropSuffix? ".tar".utf8
  let (digits, fileGeneration) ← splitGeneration middle
  guard (5 ≤ digits.length)
  -- a run of more than five digits has no leading zero
  guard (¬ (5 < digits.length ∧ digits.head? = some 48))
  let archiveNumber ← Digits.parse 10 digits
  guard (archiveNumber < 2 ^ 32)
  return ⟨fileName, archiveNumber, fileGeneration⟩

/-- The bytes of a name. -/
def nameBytes (archiveNumber : Nat) (letter : Bytes) : Bytes :=
  "data".utf8 ++ (Digits.padded 10 5 archiveNumber ++ letter) ++ ".tar".utf8

/-- The name of a generation of an archive. -/
def format (archiveNumber letter : Nat) : String :=
  Utf8.ascii (nameBytes archiveNumber [UInt8.ofNat letter])

/-- The code of a generation letter. -/
def IsLetter (letter : Nat) : Prop := 97 ≤ letter ∧ letter ≤ 122

/-! ## What a name says -/

theorem splitGeneration_eq_some_iff {middle digits : Bytes} {letter : Nat} :
    splitGeneration middle = some (digits, letter) ↔
      IsLetter letter ∧ (middle = digits ++ [UInt8.ofNat letter] ∨
        letter = 97 ∧ middle = digits ∧ ∃ last, digits.getLast? = some last ∧ 48 ≤ last.toNat ∧
          last.toNat ≤ 57) := by
  rw [splitGeneration, Option.bind_eq_bind, Option.bind_eq_some_iff]
  constructor
  · rintro ⟨last, hlast, h⟩
    split at h
    · rename_i hletter
      cases h
      refine ⟨hletter, .inl ?_⟩
      rw [UInt8.ofNat_toNat, List.dropLast_append_getLast? _ hlast]
    · split at h
      · rename_i hdigit
        cases h
        exact ⟨⟨le_rfl, by decide⟩, .inr ⟨rfl, rfl, last, hlast, hdigit⟩⟩
      · cases h
  · rintro ⟨hletter, rfl | ⟨rfl, rfl, last, hlast, hlow, hhigh⟩⟩
    · have hcode : (UInt8.ofNat letter).toNat = letter := by
        rw [UInt8.toNat_ofNat', Nat.mod_eq_of_lt (lt_of_le_of_lt hletter.2 (by decide))]
      refine ⟨UInt8.ofNat letter, List.getLast?_concat .., ?_⟩
      rw [hcode, if_pos (show 97 ≤ letter ∧ letter ≤ 122 from hletter), List.dropLast_concat]
    · refine ⟨last, hlast, ?_⟩
      rw [if_neg, if_pos ⟨hlow, hhigh⟩]
      rintro ⟨hlow', -⟩
      omega

theorem getLast_padded (n : Nat) : ∃ last, (padded 10 5 n).getLast? = some last ∧
    48 ≤ last.toNat ∧ last.toNat ≤ 57 := by
  obtain ⟨last, hlast⟩ : ∃ last, (padded 10 5 n).getLast? = some last := by
    refine ⟨_, List.getLast?_eq_some_getLast (List.ne_nil_of_length_pos ?_)⟩
    rw [padded, Digits.length_fixed]
    exact lt_of_lt_of_le (by decide) (le_max_left _ _)
  obtain ⟨d, hd, rfl⟩ := Digits.fixed_mem (by decide) (List.mem_of_getLast? hlast)
  refine ⟨_, hlast, ?_⟩
  rw [Digits.toNat_digitByte (by omega), if_pos hd]
  omega

theorem dropFixedParts_eq_some_iff {name middle : Bytes} :
    (∃ rest, name.dropPrefix? "data".utf8 = some rest ∧ rest.dropSuffix? ".tar".utf8 = some middle) ↔
      name = "data".utf8 ++ middle ++ ".tar".utf8 := by
  constructor
  · rintro ⟨rest, hrest, hmiddle⟩
    obtain ⟨front, rfl, hfront⟩ := List.dropPrefix?_eq_some_iff.mp hrest
    obtain ⟨back, rfl, hback⟩ := List.dropSuffix?_eq_some_iff.mp hmiddle
    rw [beq_iff_eq.mp hfront, beq_iff_eq.mp hback, List.append_assoc]
  · rintro rfl
    refine ⟨middle ++ ".tar".utf8, ?_, ?_⟩
    · exact List.dropPrefix?_eq_some_iff.mpr ⟨_, List.append_assoc .., beq_self_eq_true _⟩
    · exact List.dropSuffix?_eq_some_iff.mpr ⟨_, rfl, beq_self_eq_true _⟩

variable {name a b : ArchiveFileName}

/-- The names that parse: the number with at least five digits and a letter, which may be
missing in generation `a`. -/
theorem parse_eq_some_iff {fileName : String} :
    parse fileName = some name ↔
      name.fileName = fileName ∧ name.archiveNumber < 2 ^ 32 ∧ IsLetter name.fileGeneration ∧
        (fileName.utf8 = nameBytes name.archiveNumber [UInt8.ofNat name.fileGeneration] ∨
          name.fileGeneration = 97 ∧ fileName.utf8 = nameBytes name.archiveNumber []) := by
  simp only [parse, Option.bind_eq_bind, Option.bind_eq_some_iff, Option.guard_eq_some',
    exists_const]
  constructor
  · rintro ⟨rest, hrest, middle, hmiddle, ⟨digits, letter⟩, hsplit, hfive, hzero, number, hnumber,
      hlimit, hname⟩
    cases hname
    obtain ⟨hletter, hshape⟩ := splitGeneration_eq_some_iff.mp hsplit
    have hpadded : digits = padded 10 5 number :=
      Digits.padded_of_parse (by decide) (by decide) (by decide) hfive
        (fun hlong hhead => hzero ⟨hlong, hhead⟩) hnumber
    refine ⟨rfl, hlimit, hletter, ?_⟩
    rw [dropFixedParts_eq_some_iff.mp ⟨rest, hrest, hmiddle⟩]
    rcases hshape with rfl | ⟨rfl, rfl, -⟩
    · exact .inl (by rw [nameBytes, ← hpadded])
    · exact .inr ⟨rfl, by rw [nameBytes, ← hpadded, append_nil]⟩
  · obtain ⟨own, number, letter⟩ := name
    rintro ⟨rfl, hlimit, hletter, hshape⟩
    have hfive : 5 ≤ (padded 10 5 number).length := by
      rw [padded, Digits.length_fixed]
      exact le_max_left _ _
    have hsplit : ∃ middle, own.utf8 = "data".utf8 ++ middle ++ ".tar".utf8 ∧
        splitGeneration middle = some (padded 10 5 number, letter) := by
      rcases hshape with hshape | ⟨rfl, hshape⟩
      · exact ⟨_, hshape, splitGeneration_eq_some_iff.mpr ⟨hletter, .inl rfl⟩⟩
      · exact ⟨_, hshape, splitGeneration_eq_some_iff.mpr ⟨hletter,
          .inr ⟨rfl, append_nil _, getLast_padded number⟩⟩⟩
    obtain ⟨middle, hmiddle, hsplit⟩ := hsplit
    obtain ⟨rest, hrest, hmiddle⟩ := dropFixedParts_eq_some_iff.mpr hmiddle
    exact ⟨rest, hrest, middle, hmiddle, (padded 10 5 number, letter), hsplit, hfive,
      fun hlong => Digits.padded_head (by decide) (by decide) (by decide) hlong.1 hlong.2, number,
      Digits.parse_padded (by decide) (by decide) 5 number, hlimit, rfl⟩

theorem parse_fileName {fileName : String}
    (h : parse fileName = some name) : name.fileName = fileName :=
  (parse_eq_some_iff.mp h).1

/-- From letter `b` on, a generation has one name. -/
theorem eq_or_letterless {first second : String}
    (ha : parse first = some a) (hb : parse second = some b)
    (hnumber : a.archiveNumber = b.archiveNumber) (hletter : a.fileGeneration = b.fileGeneration) :
    first = second ∨ a.fileGeneration = 97 := by
  obtain ⟨-, -, -, hfirst⟩ := parse_eq_some_iff.mp ha
  obtain ⟨-, -, -, hsecond⟩ := parse_eq_some_iff.mp hb
  rcases hfirst with hfirst | ⟨hfirst, -⟩
  · rcases hsecond with hsecond | ⟨hsecond, -⟩
    · refine .inl (Utf8.utf8_injective ?_)
      rw [hfirst, hsecond, hnumber, hletter]
    · exact .inr (hletter.trans hsecond)
  · exact .inr hfirst

theorem nameBytes_ascii {n : Nat} {letter : Bytes} (hletter : ∀ x ∈ letter, x.toNat < 128) :
    ∀ x ∈ nameBytes n letter, x.toNat < 128 := by
  intro x hx
  rw [nameBytes, mem_append, mem_append, mem_append] at hx
  rcases hx with (hx | hx | hx) | hx
  · revert x
    decide +kernel
  · exact Digits.fixed_ascii (by decide) (by decide) hx
  · exact hletter x hx
  · revert x
    decide +kernel

/-- The name written for a generation is parsed as that generation. -/
theorem parse_format {archiveNumber letter : Nat} (hnumber : archiveNumber < 2 ^ 32)
    (hletter : IsLetter letter) :
    parse (format archiveNumber letter) =
      some ⟨format archiveNumber letter, archiveNumber, letter⟩ := by
  refine parse_eq_some_iff.mpr ⟨rfl, hnumber, hletter, .inl ?_⟩
  refine Utf8.utf8_ascii (nameBytes_ascii ?_)
  intro x hx
  rw [List.mem_singleton.mp hx, UInt8.toNat_ofNat',
    Nat.mod_eq_of_lt (lt_of_le_of_lt hletter.2 (by decide))]
  exact lt_of_le_of_lt hletter.2 (by decide)

/-! ## Grouping a listing -/

/-- What only one name may have. -/
def claim (name : ArchiveFileName) : Nat × Nat := (name.archiveNumber, name.fileGeneration)

/-- The letters of a number, newest first. -/
def newestFirst (group : List ArchiveFileName) : List ArchiveFileName :=
  group.insertionSort fun a b => b.fileGeneration ≤ a.fileGeneration

/-- The two maps that grouping fills. -/
structure Grouping where
  seenNames : Finmap fun _ : Nat × Nat => String
  byNumber : Finmap fun _ : Nat => List ArchiveFileName

/-- Adds one name of the listing. -/
def groupFileName (grouping : Grouping) (fileName : String) : Result Grouping :=
  match parse fileName with
  | none => .ok grouping
  | some parsed =>
    match grouping.seenNames.lookup parsed.claim with
    | some existingName =>
      invalid s!"archives {existingName} and {parsed.fileName} both claim number {parsed.archiveNumber} generation {(Char.ofNat parsed.fileGeneration).quote}"
    | none => .ok
        ⟨grouping.seenNames.insert parsed.claim parsed.fileName,
          grouping.byNumber.upsert parsed.archiveNumber [] (· ++ [parsed])⟩

/-- Groups every archive file by number, newest number first, and within each number the
letters newest first. -/
def groupFileGenerationsNewestFirst (fileNames : List String) :
    Result (List (List ArchiveFileName)) := do
  let grouping ← fileNames.foldlM groupFileName ⟨∅, ∅⟩
  return grouping.byNumber.rows.reverse.map fun row => newestFirst row.2

/-- The archive names of a list. -/
def parsedNames (fileNames : List String) : List ArchiveFileName := fileNames.filterMap parse

/-- Only names that are no archive names may be left out of a listing. -/
theorem parsedNames_filter {p : String → Bool} (h : ∀ fileName name,
    parse fileName = some name → p fileName = true) (fileNames : List String) :
    parsedNames (fileNames.filter p) = parsedNames fileNames := by
  induction fileNames with
  | nil => rfl
  | cons fileName fileNames ih =>
    rw [parsedNames] at ih
    rw [parsedNames, parsedNames, List.filter_cons, List.filterMap_cons]
    cases hparse : parse fileName with
    | none =>
      split
      · rw [List.filterMap_cons_none hparse]
        exact ih
      · exact ih
    | some name =>
      rw [if_pos (h fileName name hparse), List.filterMap_cons_some hparse, ih]
      rfl

def lettersOf (parsed : List ArchiveFileName) (number : Nat) : List ArchiveFileName :=
  newestFirst (parsed.filter fun name => name.archiveNumber = number)

/-- A name goes behind the names of its number. -/
theorem lookup_upsert_archiveNumber {groups : Finmap fun _ : Nat => List ArchiveFileName}
    {parsed : List ArchiveFileName} (h : ∀ number, groups.lookup number =
      if number ∈ (parsed.map archiveNumber).toFinset then
        some (parsed.filter fun name => name.archiveNumber = number) else none)
    (name : ArchiveFileName) (number : Nat) :
    (groups.upsert name.archiveNumber [] (· ++ [name])).lookup number =
      if number ∈ ((parsed ++ [name]).map archiveNumber).toFinset then
        some ((parsed ++ [name]).filter fun name => name.archiveNumber = number) else none := by
  rw [Finmap.lookup_upsert]
  by_cases hnumber : number = name.archiveNumber
  · subst hnumber
    -- a number met for the first time has no names yet
    have hbefore : (groups.lookup name.archiveNumber).getD [] =
        parsed.filter fun other => other.archiveNumber = name.archiveNumber := by
      rw [h]
      split
      · rfl
      · rename_i hnone
        refine (List.filter_eq_nil_iff.mpr ?_).symm
        intro other hother hsame
        refine hnone (List.mem_toFinset.mpr (List.mem_map.mpr ⟨other, hother, ?_⟩))
        exact of_decide_eq_true hsame
    have hmem : name.archiveNumber ∈ ((parsed ++ [name]).map archiveNumber).toFinset := by simp
    rw [if_pos rfl, if_pos hmem, hbefore, List.filter_append, List.filter_singleton,
      decide_eq_true rfl]
    rfl
  · have hfilter : (parsed ++ [name]).filter (fun other => other.archiveNumber = number) =
        parsed.filter fun other => other.archiveNumber = number := by
      rw [List.filter_append, List.filter_singleton,
        decide_eq_false (fun heq => hnumber heq.symm)]
      exact append_nil _
    rw [if_neg hnumber, h, hfilter]
    simp only [map_append, List.map_singleton, List.toFinset_append, Finset.mem_union,
      List.mem_toFinset, List.mem_singleton, hnumber, or_false]

def namesByNumber (fileNames : List String) : Finmap fun _ : Nat => List ArchiveFileName :=
  fileNames.foldl (fun groups fileName =>
    match parse fileName with
    | none => groups
    | some parsed => groups.upsert parsed.archiveNumber [] (· ++ [parsed])) ∅

theorem lookup_namesByNumber (fileNames : List String) (number : Nat) :
    (namesByNumber fileNames).lookup number =
      if number ∈ ((parsedNames fileNames).map archiveNumber).toFinset then
        some ((parsedNames fileNames).filter fun name => name.archiveNumber = number)
      else none := by
  induction fileNames using List.reverseRecOn generalizing number with
  | nil => simp [namesByNumber, parsedNames]
  | append_singleton fileNames fileName ih =>
    rw [namesByNumber, List.foldl_append, List.foldl_cons, List.foldl_nil, parsedNames,
      List.filterMap_append]
    cases hparse : parse fileName with
    | none =>
      rw [List.filterMap_cons_none hparse, List.filterMap_nil, append_nil]
      exact ih number
    | some name =>
      rw [List.filterMap_cons_some hparse, List.filterMap_nil]
      exact lookup_upsert_archiveNumber ih name number

/-- The maps hold the names read so far, no two of which claim the same. -/
structure Grouping.Lists (grouping : Grouping) (parsed : List ArchiveFileName) : Prop where
  distinct : (parsed.map claim).Nodup
  seen : ∀ key, (grouping.seenNames.lookup key).isSome ↔ key ∈ parsed.map claim
  groups : ∀ number, grouping.byNumber.lookup number =
    if number ∈ (parsed.map archiveNumber).toFinset then
      some (parsed.filter fun name => name.archiveNumber = number) else none

section Grouping

variable {grouping : Grouping} {parsed : List ArchiveFileName} {fileName : String}

theorem Grouping.lists_nil : Grouping.Lists ⟨∅, ∅⟩ [] where
  distinct := List.nodup_nil
  seen key := by simp
  groups number := by simp

theorem Grouping.Lists.groupFileName_ok_iff (h : grouping.Lists parsed) :
    (∃ next, groupFileName grouping fileName = .ok next) ↔
      ((parsed ++ (parse fileName).toList).map claim).Nodup := by
  rw [groupFileName]
  cases hparse : parse fileName with
  | none =>
    refine iff_of_true ⟨_, rfl⟩ ?_
    rw [Option.toList_none, append_nil]
    exact h.distinct
  | some name =>
    have hseen := h.seen name.claim
    have hnodup : ((parsed ++ (some name).toList).map claim).Nodup ↔
        name.claim ∉ parsed.map claim := by
      rw [Option.toList_some, map_append, List.map_singleton, List.nodup_append]
      simp only [h.distinct, List.nodup_singleton, List.mem_singleton, true_and, forall_eq]
      exact ⟨fun hne hmem => hne _ hmem rfl, fun hmem other hother heq => hmem (heq ▸ hother)⟩
    rw [hnodup, ← hseen]
    dsimp only
    cases hlookup : grouping.seenNames.lookup name.claim with
    | none => exact iff_of_true ⟨_, rfl⟩ (by simp)
    | some existing =>
      refine iff_of_false ?_ (by simp)
      rintro ⟨next, hnext⟩
      exact invalid_ne_ok hnext

theorem Grouping.Lists.next {next : Grouping} (h : grouping.Lists parsed)
    (hnext : groupFileName grouping fileName = .ok next) :
    next.Lists (parsed ++ (parse fileName).toList) := by
  have hnodup := h.groupFileName_ok_iff.mp ⟨next, hnext⟩
  rw [groupFileName] at hnext
  cases hparse : parse fileName with
  | none =>
    rw [hparse] at hnext
    cases hnext
    rw [Option.toList_none, append_nil]
    exact h
  | some name =>
    rw [hparse] at hnext hnodup
    rw [Option.toList_some] at hnodup ⊢
    dsimp only at hnext
    split at hnext
    · exact absurd hnext invalid_ne_ok
    cases hnext
    refine ⟨hnodup, ?_, ?_⟩
    · intro key
      rw [map_append, List.map_singleton, mem_append, List.mem_singleton, ← h.seen]
      by_cases hkey : key = name.claim
      · subst hkey
        simp [Finmap.lookup_insert]
      · rw [Finmap.lookup_insert_of_ne _ hkey]
        simp [hkey]
    · exact lookup_upsert_archiveNumber h.groups name

end Grouping

/-- A listing is grouped when no two of its names claim the same. -/
theorem foldlM_groupFileName {grouping : Grouping} {parsed : List ArchiveFileName}
    (h : grouping.Lists parsed) (fileNames : List String) :
    ((∃ last, fileNames.foldlM groupFileName grouping = .ok last) ↔
        ((parsed ++ parsedNames fileNames).map claim).Nodup) ∧
      ∀ last, fileNames.foldlM groupFileName grouping = .ok last →
        last.Lists (parsed ++ parsedNames fileNames) := by
  induction fileNames generalizing grouping parsed with
  | nil =>
    have hnil : parsed ++ parsedNames [] = parsed := append_nil _
    rw [hnil]
    refine ⟨iff_of_true ⟨_, rfl⟩ h.distinct, ?_⟩
    intro last hlast
    cases hlast
    exact h
  | cons fileName fileNames ih =>
    have hcons : parsed ++ parsedNames (fileName :: fileNames) =
        parsed ++ (parse fileName).toList ++ parsedNames fileNames := by
      rw [parsedNames, List.filterMap_cons, List.append_assoc]
      cases parse fileName with
      | none => rfl
      | some name => rfl
    rw [hcons]
    refine ⟨⟨?_, ?_⟩, ?_⟩
    · rintro ⟨last, hlast⟩
      obtain ⟨next, hnext, hrest⟩ := Except.foldlM_cons_ok_iff.mp hlast
      exact (ih (h.next hnext)).1.mp ⟨last, hrest⟩
    · intro hnodup
      have hfirst : ((parsed ++ (parse fileName).toList).map claim).Nodup := by
        rw [map_append] at hnodup
        exact (List.nodup_append.mp hnodup).1
      obtain ⟨next, hnext⟩ := h.groupFileName_ok_iff.mpr hfirst
      obtain ⟨last, hlast⟩ := (ih (h.next hnext)).1.mpr hnodup
      exact ⟨last, Except.foldlM_cons_ok_iff.mpr ⟨next, hnext, hlast⟩⟩
    · intro last hlast
      obtain ⟨next, hnext, hrest⟩ := Except.foldlM_cons_ok_iff.mp hlast
      exact (ih (h.next hnext)).2 last hrest

def numbersNewestFirst (parsed : List ArchiveFileName) : List Nat :=
  ((parsed.map archiveNumber).toFinset.sort (· ≤ ·)).reverse

/-- **Grouping.**  A listing is grouped exactly when no two names claim one number and
letter, and then into the letters of every number. -/
theorem group_ok_iff {fileNames : List String} {groups : List (List ArchiveFileName)} :
    groupFileGenerationsNewestFirst fileNames = .ok groups ↔
      ((parsedNames fileNames).map claim).Nodup ∧
        groups = (numbersNewestFirst (parsedNames fileNames)).map
          (lettersOf (parsedNames fileNames)) := by
  have hfold := foldlM_groupFileName Grouping.lists_nil fileNames
  rw [List.nil_append] at hfold
  have hgroups : ∀ last, fileNames.foldlM groupFileName ⟨∅, ∅⟩ = .ok last →
      (last.byNumber.rows.reverse.map fun row => newestFirst row.2) =
        (numbersNewestFirst (parsedNames fileNames)).map (lettersOf (parsedNames fileNames)) := by
    intro last hlast
    rw [Finmap.rows_of_lookup (hfold.2 last hlast).groups, numbersNewestFirst, ← List.map_reverse,
      List.map_map]
    rfl
  rw [groupFileGenerationsNewestFirst, Except.bind_ok_iff]
  constructor
  · rintro ⟨last, hlast, heq⟩
    exact ⟨hfold.1.mp ⟨last, hlast⟩, (Except.pure_ok_iff.mp heq).symm.trans (hgroups last hlast)⟩
  · rintro ⟨hnodup, rfl⟩
    obtain ⟨last, hlast⟩ := hfold.1.mpr hnodup
    exact ⟨last, hlast, Except.pure_ok_iff.mpr (hgroups last hlast)⟩

/-! ## The letters of a number -/

/-- Letters stand newest first. -/
def NewestFirst (group : List ArchiveFileName) : Prop :=
  group.Pairwise fun a b => b.fileGeneration < a.fileGeneration

theorem mem_lettersOf {parsed : List ArchiveFileName} {number : Nat} :
    name ∈ lettersOf parsed number ↔ name ∈ parsed ∧ name.archiveNumber = number := by
  rw [lettersOf, newestFirst, List.mem_insertionSort, List.mem_filter, decide_eq_true_eq]

theorem mem_numbersNewestFirst {parsed : List ArchiveFileName} {number : Nat} :
    number ∈ numbersNewestFirst parsed ↔ ∃ name ∈ parsed, name.archiveNumber = number := by
  rw [numbersNewestFirst, List.mem_reverse, Finset.mem_sort, List.mem_toFinset, List.mem_map]

theorem nodup_numbersNewestFirst (parsed : List ArchiveFileName) :
    (numbersNewestFirst parsed).Nodup :=
  List.nodup_reverse.mpr (Finset.sort_nodup ..)

theorem newestFirst_lettersOf {parsed : List ArchiveFileName} (number : Nat)
    (h : (parsed.map claim).Nodup) : NewestFirst (lettersOf parsed number) := by
  have hsorted : (lettersOf parsed number).Pairwise fun a b =>
      b.fileGeneration ≤ a.fileGeneration :=
    List.pairwise_insertionSort (fun a b : ArchiveFileName => b.fileGeneration ≤ a.fileGeneration) _
  have hdistinct : ((lettersOf parsed number).map claim).Nodup := by
    have hperm := (List.perm_insertionSort
      (fun a b : ArchiveFileName => b.fileGeneration ≤ a.fileGeneration)
      (parsed.filter fun name => name.archiveNumber = number)).map claim
    exact hperm.nodup_iff.mpr (h.sublist (List.filter_sublist.map claim))
  rw [List.Nodup, List.pairwise_map] at hdistinct
  refine (hsorted.and hdistinct).imp_of_mem ?_
  rintro a b ha hb ⟨hle, hne⟩
  refine lt_of_le_of_ne hle fun heq => hne ?_
  exact Prod.ext ((mem_lettersOf.mp ha).2.trans (mem_lettersOf.mp hb).2.symm) heq.symm

/-- The letters of a number, oldest first. -/
def oldestFirst (group : List ArchiveFileName) : List ArchiveFileName :=
  group.insertionSort fun a b => a.fileGeneration ≤ b.fileGeneration

/-- Oldest first is newest first backwards when no two names claim the same. -/
theorem oldestFirst_eq {parsed : List ArchiveFileName} (number : Nat)
    (h : (parsed.map claim).Nodup) :
    oldestFirst (parsed.filter fun name => name.archiveNumber = number) =
      (lettersOf parsed number).reverse := by
  have hperm : (oldestFirst (parsed.filter fun name => name.archiveNumber = number)).Perm
      (lettersOf parsed number).reverse :=
    (List.perm_insertionSort _ _).trans
      ((List.perm_insertionSort _ _).symm.trans (List.reverse_perm _).symm)
  have hnewest := List.pairwise_reverse.mpr (newestFirst_lettersOf number h)
  have hsorted : (oldestFirst (parsed.filter fun name => name.archiveNumber = number)).Pairwise
      fun a b => a.fileGeneration ≤ b.fileGeneration :=
    List.pairwise_insertionSort (fun a b : ArchiveFileName => a.fileGeneration ≤ b.fileGeneration) _
  refine List.Perm.eq_of_pairwise ?_ hsorted (hnewest.imp fun hlt => le_of_lt hlt) hperm
  intro a b ha hb hab hba
  have hletter : a.fileGeneration = b.fileGeneration := le_antisymm hab hba
  obtain ⟨i, hi, rfl⟩ := List.mem_iff_getElem.mp (hperm.mem_iff.mp ha)
  obtain ⟨j, hj, rfl⟩ := List.mem_iff_getElem.mp hb
  rcases lt_trichotomy i j with hlt | rfl | hlt
  · exact absurd (List.pairwise_iff_getElem.mp hnewest i j hi hj hlt) (by omega)
  · rfl
  · exact absurd (List.pairwise_iff_getElem.mp hnewest j i hj hi hlt) (by omega)

theorem NewestFirst.eq_of_letter {group : List ArchiveFileName} (h : NewestFirst group) (ha : a ∈ group) (hb : b ∈ group)
    (heq : a.fileGeneration = b.fileGeneration) : a = b := by
  obtain ⟨newer, older, rfl⟩ := List.append_of_mem ha
  obtain ⟨-, hafter, hcross⟩ := List.pairwise_append.mp h
  rcases mem_append.mp hb with hb | hb
  · exact absurd (hcross b hb a (List.mem_cons_self ..)) (by omega)
  · rcases List.mem_cons.mp hb with rfl | hb
    · rfl
    · exact absurd ((List.pairwise_cons.mp hafter).1 b hb) (by omega)

/-- A list of letters, newest first, is known by its members. -/
theorem NewestFirst.eq_of_mem_iff {first second : List ArchiveFileName} (hfirst : NewestFirst first)
    (hsecond : NewestFirst second) (h : ∀ name, name ∈ first ↔ name ∈ second) : first = second := by
  have hnodup : ∀ {group}, NewestFirst group → group.Nodup := by
    intro group hgroup
    exact hgroup.imp fun hlt heq => absurd (heq ▸ hlt) (lt_irrefl _)
  refine List.Perm.eq_of_pairwise ?_ hfirst hsecond
    ((List.perm_ext_iff_of_nodup (hnodup hfirst) (hnodup hsecond)).mpr h)
  intro a b _ _ hab hba
  exact absurd (hab.trans hba) (lt_irrefl _)

end ArchiveFileName

end Froe
