import Froe.Lib.TreeOrder
import Mathlib.Data.Char
import Mathlib.Data.List.Destutter
import Mathlib.Order.Lex

/-!
# The path filter of an index

`index/path_filter.rs` reads the included and the excluded paths of an index definition, leaves
out of both lists what has no effect, and tells of every path whether it is indexed, skipped with
all below it, or only walked through.

Paths are ordered by their elements, which makes them a tree; what the two lists mean is told in
that order, and `filter` is shown to keep it.
-/

namespace Froe

open List (append_assoc mem_cons singleton_append)

namespace PathFilters

open TreeOrder

/-- A path, character by character. -/
abbrev Path := List Char

/-- What a path filter says about one path. -/
inductive PathVerdict where
  | included
  | excluded
  | traversed
deriving DecidableEq, Repr

/-- Which of the two lists a path is from. -/
inductive FilterPathSet where
  | included
  | excluded
deriving DecidableEq, Repr

/-- Why a definition has no filter. -/
inductive FilterError where
  | relativeFilterPath (definitionPath : String) (pathSet : FilterPathSet) (value : Path)
  | emptyIncludeSet (definitionPath : String)
deriving DecidableEq, Repr

/-- An index definition's path restriction. -/
structure PathFilter where
  includedPaths : List Path
  excludedPaths : List Path
deriving DecidableEq, Repr

/-! ## The filter -/

/-- `PathUtils.isAncestor`: strictly an ancestor. -/
def isAncestor (ancestor path : Path) : Bool :=
  if ancestor = ['/'] then decide (1 < path.length) && ['/'].isPrefixOf path
  else
    decide (ancestor.length < path.length) && ancestor.isPrefixOf path &&
      path[ancestor.length]? == some '/'

/-- One exclude against one include, both in the order of the loops. -/
def unifyExclude (path : Path) (state : List Path × List Path) (exclude : Path) :
    List Path × List Path :=
  if exclude = path ∨ isAncestor exclude path then (state.1 ++ [path], state.2)
  else if isAncestor path exclude then (state.1, state.2 ++ [exclude])
  else state

/-- One include against another. -/
def unifyInclude (path : Path) (state : List Path × List Path) (other : Path) :
    List Path × List Path :=
  if isAncestor path other then (state.1 ++ [other], state.2) else state

/-- What the loops of `unify` remove of the includes and retain of the excludes. -/
def removedAndRetained (includes excludes : List Path) : List Path × List Path :=
  includes.foldl (fun state path =>
    includes.foldl (unifyInclude path) (excludes.foldl (unifyExclude path) state)) ([], [])

/-- `sort` and `dedup`. -/
def sorted (paths : List Path) : List Path :=
  (paths.mergeSort fun a b => decide (a ≤ b)).destutter (· ≠ ·)

/-- `PathUtils.unifyInExcludes`. -/
def unify (includes excludes : List Path) : List Path × List Path :=
  let (removed, retained) := removedAndRetained includes excludes
  (sorted (includes.filter fun path => !removed.contains path),
    sorted (excludes.filter fun exclude => retained.contains exclude))

def refuseRelative (paths : List Path) (pathSet : FilterPathSet) (definitionPath : String) :
    Except FilterError Unit :=
  paths.forM fun path =>
    if ['/'].isPrefixOf path then .ok ()
    else .error (.relativeFilterPath definitionPath pathSet path)

/-- `PathFilter::new`. -/
def PathFilter.new (includes excludes : List Path) (definitionPath : String) :
    Except FilterError PathFilter := do
  refuseRelative includes .included definitionPath
  refuseRelative excludes .excluded definitionPath
  let (includedPaths, excludedPaths) := unify includes excludes
  if includedPaths.isEmpty then .error (.emptyIncludeSet definitionPath)
  else return { includedPaths, excludedPaths }

/-- The verdict for a path: exclude wins, then include, then traverse. -/
def PathFilter.filter (filter : PathFilter) (path : Path) : PathVerdict :=
  if filter.excludedPaths.any fun excluded => excluded == path || isAncestor excluded path then
    .excluded
  else if filter.includedPaths.any fun included => included == path || isAncestor included path then
    .included
  else if filter.includedPaths.any fun included => isAncestor path included then .traversed
  else .excluded

/-! ## Paths as a tree -/

/-- The elements of a path: the root has none, and the first element of any other absolute path
is the empty one before its slash. -/
def pathElements (path : Path) : List Path :=
  if path = ['/'] then [] else path.splitOn '/'

/-- At or below: the elements of the one path begin those of the other. -/
def AtOrAbove (ancestor path : Path) : Prop := pathElements ancestor <+: pathElements path

/-- A path that begins with a slash. -/
def Absolute (path : Path) : Prop := ['/'] <+: path

instance (path : Path) : Decidable (Absolute path) := inferInstanceAs (Decidable (_ <+: _))

instance (ancestor path : Path) : Decidable (AtOrAbove ancestor path) :=
  inferInstanceAs (Decidable (_ <+: _))

theorem pathElements_inj (a b : Path) (h : pathElements a = pathElements b) : a = b := by
  rw [pathElements, pathElements] at h
  split at h
  next ha =>
    split at h
    next hb => exact ha.trans hb.symm
    next => exact absurd h.symm (List.splitOn_ne_nil '/' b)
  next =>
    split at h
    next => exact absurd h (List.splitOn_ne_nil '/' a)
    next =>
      have hjoined := congrArg (List.intercalate ['/']) h
      rwa [List.intercalate_splitOn, List.intercalate_splitOn] at hjoined

theorem isTree_atOrAbove : IsTree AtOrAbove := isTree_prefix.comap pathElements_inj

theorem intercalate_append {separator : Char} {a b : List Path} (ha : a ≠ []) (hb : b ≠ []) :
    [separator].intercalate (a ++ b) =
      [separator].intercalate a ++ separator :: [separator].intercalate b := by
  induction a with
  | nil => exact absurd rfl ha
  | cons first rest ih =>
    cases rest with
    | nil =>
      obtain ⟨next, others, rfl⟩ := List.exists_cons_of_ne_nil hb
      rw [singleton_append, List.intercalate_cons_cons, List.intercalate_singleton]
      exact append_assoc ..
    | cons second rest =>
      have hrest := ih (List.cons_ne_nil second rest)
      rw [List.cons_append] at hrest
      rw [List.cons_append, List.cons_append, List.intercalate_cons_cons, hrest,
        List.intercalate_cons_cons]
      simp only [append_assoc]

/-- Below a path are the texts that go on with a slash. -/
theorem splitOn_prefix_iff (a b : Path) :
    a.splitOn '/' <+: b.splitOn '/' ↔ a = b ∨ (a ++ ['/']) <+: b := by
  constructor
  · rintro ⟨rest, hrest⟩
    have hjoined := congrArg (List.intercalate ['/']) hrest
    rw [List.intercalate_splitOn] at hjoined
    cases rest with
    | nil =>
      rw [List.append_nil, List.intercalate_splitOn] at hjoined
      exact .inl hjoined
    | cons next others =>
      rw [intercalate_append (List.splitOn_ne_nil '/' a) (List.cons_ne_nil next others),
        List.intercalate_splitOn] at hjoined
      refine .inr ⟨['/'].intercalate (next :: others), ?_⟩
      rw [append_assoc, singleton_append]
      exact hjoined
  · rintro (rfl | ⟨rest, rfl⟩)
    · exact List.prefix_refl _
    · rw [append_assoc, singleton_append, List.splitOn_append_cons_self]
      exact List.prefix_append _ _

theorem concat_prefix_iff {a b : Path} {c : Char} :
    (a ++ [c]) <+: b ↔ a.length < b.length ∧ a <+: b ∧ b[a.length]? = some c := by
  constructor
  · rintro ⟨rest, rfl⟩
    refine ⟨?_, ?_, ?_⟩
    · rw [List.length_append, List.length_append, List.length_singleton]
      omega
    · rw [append_assoc]
      exact List.prefix_append _ _
    · rw [append_assoc, singleton_append, List.getElem?_append_right (Nat.le_refl _),
        Nat.sub_self, List.getElem?_cons_zero]
  · rintro ⟨_, ⟨rest, rfl⟩, hat⟩
    rw [List.getElem?_append_right (Nat.le_refl _), Nat.sub_self] at hat
    cases rest with
    | nil => cases hat
    | cons first rest =>
      rw [List.getElem?_cons_zero, Option.some.injEq] at hat
      rw [hat]
      exact ⟨rest, by rw [append_assoc, singleton_append]⟩

variable {path : Path} {paths includes excludes : List Path}

/-- The code's test for ancestors is the strict order of the tree. -/
theorem isAncestor_iff {ancestor : Path} (ha : Absolute ancestor) (hp : Absolute path) :
    isAncestor ancestor path ↔ AtOrAbove ancestor path ∧ ancestor ≠ path := by
  rw [isAncestor, AtOrAbove, pathElements]
  split
  next hroot =>
    subst hroot
    obtain ⟨rest, rfl⟩ := hp
    cases rest with
    | nil => decide
    | cons first rest =>
      refine iff_of_true ?_ ⟨List.nil_prefix, nofun⟩
      rw [Bool.and_eq_true, decide_eq_true_eq, List.isPrefixOf_iff_prefix]
      exact ⟨Nat.lt_of_sub_eq_succ rfl, List.prefix_append _ _⟩
  next hroot =>
    have htest : (decide (ancestor.length < path.length) && ancestor.isPrefixOf path &&
        path[ancestor.length]? == some '/') = true ↔ (ancestor ++ ['/']) <+: path := by
      rw [concat_prefix_iff, Bool.and_eq_true, Bool.and_eq_true, decide_eq_true_eq,
        List.isPrefixOf_iff_prefix, beq_iff_eq, and_assoc]
    rw [htest, pathElements]
    split
    next hpath =>
      subst hpath
      refine iff_of_false (fun hprefix => ?_) fun hbelow =>
        List.splitOn_ne_nil '/' ancestor (List.prefix_nil.mp hbelow.1)
      have hlength := hprefix.length_le
      have hpositive := ha.length_le
      rw [List.length_append] at hlength
      exact absurd hlength (by rw [List.length_singleton] at *; omega)
    next =>
      rw [splitOn_prefix_iff]
      constructor
      · intro hprefix
        refine ⟨.inr hprefix, fun heq => ?_⟩
        have hlength := hprefix.length_le
        rw [heq, List.length_append, List.length_singleton] at hlength
        omega
      · rintro ⟨heq | hprefix, hne⟩
        · exact absurd heq hne
        · exact hprefix

/-- The filter's test for a path at or below another. -/
theorem atOrAbove_iff {ancestor : Path} (ha : Absolute ancestor) (hp : Absolute path) :
    (ancestor == path || isAncestor ancestor path) ↔ AtOrAbove ancestor path := by
  rw [Bool.or_eq_true, beq_iff_eq, isAncestor_iff ha hp]
  constructor
  · rintro (rfl | h)
    · exact isTree_atOrAbove.refl ancestor
    · exact h.1
  · intro h
    by_cases heq : ancestor = path
    · exact .inl heq
    · exact .inr ⟨h, heq⟩

/-! ## What unification leaves -/

theorem mem_destutter_cons {first : Path} (h : path ∈ first :: paths) :
    path ∈ List.destutter' (· ≠ ·) first paths := by
  induction paths generalizing first with
  | nil => exact h
  | cons second paths ih =>
    by_cases hne : first ≠ second
    · rw [List.destutter'_cons_pos _ hne]
      cases mem_cons.mp h with
      | inl heq => exact mem_cons.mpr (.inl heq)
      | inr hrest => exact List.mem_cons_of_mem _ (ih hrest)
    · rw [List.destutter'_cons_neg _ hne]
      refine ih ?_
      cases mem_cons.mp h with
      | inl heq => exact mem_cons.mpr (.inl heq)
      | inr hrest =>
        rw [not_ne_iff.mp hne]
        exact hrest

/-- Sorting and leaving out repetitions keeps what is in a list. -/
theorem mem_sorted : path ∈ sorted paths ↔ path ∈ paths := by
  have hdestutter : ∀ list : List Path, path ∈ list.destutter (· ≠ ·) ↔ path ∈ list := by
    intro list
    refine ⟨fun h => (List.destutter_sublist (· ≠ ·) list).subset h, fun h => ?_⟩
    cases list with
    | nil => exact h
    | cons first list => exact mem_destutter_cons h
  rw [sorted, hdestutter, List.mem_mergeSort]

/-- What a loop collects is what its rounds do. -/
theorem mem_foldl {α : Type} {f : List Path × List Path → α → List Path × List Path}
    {removes retains : α → Path → Prop} (list : List α)
    (hfirst : ∀ state a x, x ∈ (f state a).1 ↔ x ∈ state.1 ∨ removes a x)
    (hsecond : ∀ state a x, x ∈ (f state a).2 ↔ x ∈ state.2 ∨ retains a x)
    (state : List Path × List Path) (x : Path) :
    (x ∈ (list.foldl f state).1 ↔ x ∈ state.1 ∨ ∃ a ∈ list, removes a x) ∧
      (x ∈ (list.foldl f state).2 ↔ x ∈ state.2 ∨ ∃ a ∈ list, retains a x) := by
  induction list generalizing state with
  | nil => simp
  | cons a list ih =>
    obtain ⟨hremoved, hretained⟩ := ih (f state a)
    rw [List.foldl_cons, hremoved, hretained, hfirst, hsecond]
    simp only [mem_cons, exists_eq_or_imp, or_assoc, and_self]

section

variable (path : Path) (state : List Path × List Path)

theorem unifyExclude_removed (exclude x : Path) :
    x ∈ (unifyExclude path state exclude).1 ↔
      x ∈ state.1 ∨ (x = path ∧ (exclude = path ∨ isAncestor exclude path)) := by
  rw [unifyExclude]
  split
  next h => rw [List.mem_append, List.mem_singleton, and_iff_left h]
  next h =>
    split <;> exact (or_iff_left fun hx => h hx.2).symm

theorem unifyExclude_retained (exclude x : Path) :
    x ∈ (unifyExclude path state exclude).2 ↔
      x ∈ state.2 ∨ (x = exclude ∧ ¬ (exclude = path ∨ isAncestor exclude path) ∧
        isAncestor path exclude) := by
  rw [unifyExclude]
  split
  next h => exact (or_iff_left fun hx => hx.2.1 h).symm
  next h =>
    split
    next hbelow => rw [List.mem_append, List.mem_singleton, and_iff_left ⟨h, hbelow⟩]
    next hbelow => exact (or_iff_left fun hx => hbelow hx.2.2).symm

theorem unifyInclude_removed (other x : Path) :
    x ∈ (unifyInclude path state other).1 ↔ x ∈ state.1 ∨ (x = other ∧ isAncestor path other) := by
  rw [unifyInclude]
  split
  next h => rw [List.mem_append, List.mem_singleton, and_iff_left h]
  next h => exact (or_iff_left fun hx => h hx.2).symm

theorem unifyInclude_retained (other x : Path) :
    x ∈ (unifyInclude path state other).2 ↔ x ∈ state.2 ∨ False := by
  rw [unifyInclude, or_false]
  split <;> exact Iff.rfl

end

/-- One round of the outer loop. -/
theorem unifyRound (includes excludes : List Path) (state : List Path × List Path) (path x : Path) :
    let next := includes.foldl (unifyInclude path) (excludes.foldl (unifyExclude path) state)
    (x ∈ next.1 ↔ x ∈ state.1 ∨
      ((x = path ∧ ∃ exclude ∈ excludes, exclude = path ∨ isAncestor exclude path) ∨
        (x ∈ includes ∧ isAncestor path x))) ∧
    (x ∈ next.2 ↔ x ∈ state.2 ∨
      (x ∈ excludes ∧ ¬ (x = path ∨ isAncestor x path) ∧ isAncestor path x)) := by
  obtain ⟨hremoved, hretained⟩ := mem_foldl excludes (unifyExclude_removed path)
    (unifyExclude_retained path) state x
  obtain ⟨hremoved', hretained'⟩ := mem_foldl includes (unifyInclude_removed path)
    (unifyInclude_retained path) (excludes.foldl (unifyExclude path) state) x
  constructor
  · rw [hremoved', hremoved, or_assoc]
    refine or_congr Iff.rfl (or_congr ?_ ?_)
    · constructor
      · rintro ⟨exclude, hexclude, rfl, h⟩
        exact ⟨rfl, exclude, hexclude, h⟩
      · rintro ⟨rfl, exclude, hexclude, h⟩
        exact ⟨exclude, hexclude, rfl, h⟩
    · constructor
      · rintro ⟨other, hother, rfl, h⟩
        exact ⟨hother, h⟩
      · rintro ⟨hother, h⟩
        exact ⟨x, hother, rfl, h⟩
  · rw [hretained', hretained]
    constructor
    · rintro ((hstate | ⟨exclude, hexclude, rfl, h⟩) | ⟨_, _, hfalse⟩)
      · exact .inl hstate
      · exact .inr ⟨hexclude, h⟩
      · exact hfalse.elim
    · rintro (hstate | ⟨hexclude, h⟩)
      · exact .inl (.inl hstate)
      · exact .inl (.inr ⟨x, hexclude, rfl, h⟩)

/-- Of the includes those survive that no exclude and no other include covers; of the excludes
those are kept that lie below an include. -/
theorem unify_spec (hincludes : ∀ path ∈ includes, Absolute path)
    (hexcludes : ∀ path ∈ excludes, Absolute path) (x : Path) :
    (x ∈ (unify includes excludes).1 ↔ Surviving AtOrAbove includes excludes x) ∧
      (x ∈ (unify includes excludes).2 ↔ Retained AtOrAbove includes excludes x) := by
  obtain ⟨hremoved, hretained⟩ := mem_foldl includes
    (fun state path x => (unifyRound includes excludes state path x).1)
    (fun state path x => (unifyRound includes excludes state path x).2) ([], []) x
  have hfirst : x ∈ (unify includes excludes).1 ↔
      x ∈ includes ∧ x ∉ (removedAndRetained includes excludes).1 := by
    rw [unify, mem_sorted, List.mem_filter, Bool.not_eq_true', List.contains_eq_mem,
      decide_eq_false_iff_not]
  have hsecond : x ∈ (unify includes excludes).2 ↔
      x ∈ excludes ∧ x ∈ (removedAndRetained includes excludes).2 := by
    rw [unify, mem_sorted, List.mem_filter, List.contains_eq_mem, decide_eq_true_eq]
  constructor
  · rw [hfirst, removedAndRetained, hremoved]
    constructor
    · rintro ⟨hx, hkept⟩
      refine ⟨hx, fun e he hex => hkept (.inr ⟨x, hx, .inl ⟨rfl, e, he, ?_⟩⟩), fun j hj hjx => ?_⟩
      · have hcovered := (atOrAbove_iff (hexcludes e he) (hincludes x hx)).mpr hex
        rwa [Bool.or_eq_true, beq_iff_eq] at hcovered
      · by_contra hne
        exact hkept (.inr ⟨j, hj, .inr ⟨hx,
          (isAncestor_iff (hincludes j hj) (hincludes x hx)).mpr ⟨hjx, hne⟩⟩⟩)
    · rintro ⟨hx, hout, hhighest⟩
      refine ⟨hx, ?_⟩
      rintro (hnil | ⟨path, hpath, ⟨rfl, e, he, hcovered⟩ | ⟨_, hbelow⟩⟩)
      · exact absurd hnil List.not_mem_nil
      · refine hout e he ((atOrAbove_iff (hexcludes e he) (hincludes x hx)).mp ?_)
        rwa [Bool.or_eq_true, beq_iff_eq]
      · obtain ⟨hle, hne⟩ := (isAncestor_iff (hincludes path hpath) (hincludes x hx)).mp hbelow
        exact hne (hhighest path hpath hle)
  · rw [hsecond, removedAndRetained, hretained]
    constructor
    · rintro ⟨hx, hnil | ⟨path, hpath, _, hnot, hbelow⟩⟩
      · exact absurd hnil List.not_mem_nil
      · obtain ⟨hle, hne⟩ := (isAncestor_iff (hincludes path hpath) (hexcludes x hx)).mp hbelow
        refine ⟨hx, path, hpath, hle, hne, fun hxp => hnot ?_⟩
        have hcovered := (atOrAbove_iff (hexcludes x hx) (hincludes path hpath)).mpr hxp
        rwa [Bool.or_eq_true, beq_iff_eq] at hcovered
    · rintro ⟨hx, path, hpath, hle, hne, hnot⟩
      refine ⟨hx, .inr ⟨path, hpath, hx, fun hcovered => hnot ?_,
        (isAncestor_iff (hincludes path hpath) (hexcludes x hx)).mpr ⟨hle, hne⟩⟩⟩
      refine (atOrAbove_iff (hexcludes x hx) (hincludes path hpath)).mp ?_
      rwa [Bool.or_eq_true, beq_iff_eq]

/-! ## The meaning of the filter -/

theorem refuseRelative_ok {pathSet : FilterPathSet} {definitionPath : String}
    (h : ∀ path ∈ paths, Absolute path) : refuseRelative paths pathSet definitionPath = .ok () := by
  induction paths with
  | nil => rfl
  | cons path paths ih =>
    rw [refuseRelative, List.forM_eq_forM, List.forM_cons,
      if_pos (List.isPrefixOf_iff_prefix.mpr (h path List.mem_cons_self))]
    exact ih fun other hother => h other (List.mem_cons_of_mem _ hother)

/-- For absolute paths the filter is what unification leaves, unless no include is left. -/
theorem new_eq (definitionPath : String)
    (hincludes : ∀ path ∈ includes, Absolute path) (hexcludes : ∀ path ∈ excludes, Absolute path) :
    PathFilter.new includes excludes definitionPath =
      if (unify includes excludes).1 = [] then .error (.emptyIncludeSet definitionPath)
      else .ok ⟨(unify includes excludes).1, (unify includes excludes).2⟩ := by
  rw [PathFilter.new, refuseRelative_ok hincludes, refuseRelative_ok hexcludes]
  simp only [List.isEmpty_iff]
  rfl

/-- The tests of `filter` in the order of the tree. -/
theorem any_atOrAbove (hpaths : ∀ other ∈ paths, Absolute other) (hpath : Absolute path) :
    (paths.any fun other => other == path || isAncestor other path) ↔
      ∃ other ∈ paths, AtOrAbove other path := by
  rw [List.any_eq_true]
  exact exists_congr fun other => and_congr_right fun hother =>
    atOrAbove_iff (hpaths other hother) hpath

theorem any_below (hpaths : ∀ other ∈ paths, Absolute other) (hpath : Absolute path) :
    (paths.any fun other => isAncestor path other) ↔
      ∃ other ∈ paths, AtOrAbove path other ∧ path ≠ other := by
  rw [List.any_eq_true]
  exact exists_congr fun other => and_congr_right fun hother =>
    isAncestor_iff hpath (hpaths other hother)

/-- The verdicts, told of the unified lists. -/
theorem filter_cases {filter : PathFilter}
    (hincluded : ∀ other ∈ filter.includedPaths, Absolute other)
    (hexcluded : ∀ other ∈ filter.excludedPaths, Absolute other) (hpath : Absolute path) :
    (filter.filter path = .included ↔
      (∃ other ∈ filter.includedPaths, AtOrAbove other path) ∧
        ¬ ∃ other ∈ filter.excludedPaths, AtOrAbove other path) ∧
    (filter.filter path = .excluded ↔
      (∃ other ∈ filter.excludedPaths, AtOrAbove other path) ∨
        (¬ (∃ other ∈ filter.includedPaths, AtOrAbove other path) ∧
          ¬ ∃ other ∈ filter.includedPaths, AtOrAbove path other)) := by
  have hexclude := any_atOrAbove hexcluded hpath
  have hinclude := any_atOrAbove hincluded hpath
  have hbelow := any_below hincluded hpath
  rw [PathFilter.filter]
  split
  next h =>
    have hcovered := hexclude.mp h
    exact ⟨iff_of_false nofun fun hx => hx.2 hcovered, iff_of_true rfl (.inl hcovered)⟩
  next h =>
    have hfree := fun hx => h (hexclude.mpr hx)
    split
    next h =>
      have hcovered := hinclude.mp h
      exact ⟨iff_of_true rfl ⟨hcovered, hfree⟩, iff_of_false nofun fun hx =>
        hx.elim hfree fun hnone => hnone.1 hcovered⟩
    next h =>
      have houtside := fun hx => h (hinclude.mpr hx)
      split
      next h =>
        obtain ⟨other, hother, hle, _⟩ := hbelow.mp h
        exact ⟨iff_of_false nofun fun hx => houtside hx.1, iff_of_false nofun fun hx =>
          hx.elim hfree fun hnone => hnone.2 ⟨other, hother, hle⟩⟩
      next h =>
        refine ⟨iff_of_false nofun fun hx => houtside hx.1, iff_of_true rfl (.inr ⟨houtside, ?_⟩)⟩
        rintro ⟨other, hother, hle⟩
        refine h (hbelow.mpr ⟨other, hother, hle, ?_⟩)
        rintro rfl
        exact houtside ⟨path, hother, hle⟩

/-- A filter that can be built includes exactly what is at or below a given include and at or
below no given exclude.  What it excludes it excludes with all below it, the way to an included
path is never cut off, and there is no filter exactly where no path would be included. -/
theorem pathFilter_meaning {includes excludes : List Path} (definitionPath : String)
    (hincludes : ∀ path ∈ includes, Absolute path) (hexcludes : ∀ path ∈ excludes, Absolute path) :
    (∀ filter, PathFilter.new includes excludes definitionPath = .ok filter →
      (∀ path, Absolute path → (filter.filter path = .included ↔
        (∃ included ∈ includes, AtOrAbove included path) ∧
          ∀ excluded ∈ excludes, ¬ AtOrAbove excluded path)) ∧
      (∀ path descendant, Absolute path → Absolute descendant → AtOrAbove path descendant →
        filter.filter path = .excluded → filter.filter descendant = .excluded) ∧
      (∀ ancestor path, Absolute ancestor → Absolute path → AtOrAbove ancestor path →
        filter.filter path = .included →
        filter.filter ancestor = .included ∨ filter.filter ancestor = .traversed)) ∧
    ((∃ error, PathFilter.new includes excludes definitionPath = .error error) ↔
      ¬ ∃ path, Absolute path ∧ (∃ included ∈ includes, AtOrAbove included path) ∧
        ∀ excluded ∈ excludes, ¬ AtOrAbove excluded path) := by
  have htree := isTree_atOrAbove
  have hunify := unify_spec hincludes hexcludes
  have hnew := new_eq definitionPath hincludes hexcludes
  refine ⟨fun filter hfilter => ?_, ?_⟩
  · obtain ⟨hfirst, hsecond⟩ : filter.includedPaths = (unify includes excludes).1 ∧
        filter.excludedPaths = (unify includes excludes).2 := by
      rw [hnew] at hfilter
      split at hfilter
      · cases hfilter
      · cases hfilter
        exact ⟨rfl, rfl⟩
    have hincluded : ∀ path ∈ filter.includedPaths, Absolute path := fun path hpath =>
      hincludes path ((hunify path).1.mp (hfirst ▸ hpath)).1
    have hexcluded : ∀ path ∈ filter.excludedPaths, Absolute path := fun path hpath =>
      hexcludes path ((hunify path).2.mp (hsecond ▸ hpath)).1
    have hinclude : ∀ path, Absolute path → (filter.filter path = .included ↔
        Admits AtOrAbove includes excludes path) := by
      intro path hpath
      rw [(filter_cases hincluded hexcluded hpath).1, ← admits_reduced htree, hfirst, hsecond]
      refine and_congr (exists_congr fun i => and_congr (hunify i).1 Iff.rfl) ?_
      constructor
      · exact fun h e he hle => h ⟨e, (hunify e).2.mpr he, hle⟩
      · rintro h ⟨e, he, hle⟩
        exact h e ((hunify e).2.mp he) hle
    refine ⟨hinclude, fun path descendant hpath hdescendant hle hexcludes => ?_,
      fun ancestor path hancestor hpath hle hpathIncluded => ?_⟩
    · rw [(filter_cases hincluded hexcluded hpath).2] at hexcludes
      rw [(filter_cases hincluded hexcluded hdescendant).2]
      rcases hexcludes with ⟨e, he, hcovered⟩ | ⟨houtside, hnotAbove⟩
      · exact .inl ⟨e, he, htree.trans _ _ _ hcovered hle⟩
      · refine .inr ⟨?_, ?_⟩
        · rintro ⟨i, hi, hcovered⟩
          cases htree.chain _ _ _ hcovered hle with
          | inl habove => exact houtside ⟨i, hi, habove⟩
          | inr hbelow => exact hnotAbove ⟨i, hi, hbelow⟩
        · rintro ⟨i, hi, hbelow⟩
          exact hnotAbove ⟨i, hi, htree.trans _ _ _ hle hbelow⟩
    · cases hverdict : filter.filter ancestor with
      | included => exact .inl rfl
      | traversed => exact .inr rfl
      | excluded =>
        rw [(filter_cases hincluded hexcluded hancestor).2] at hverdict
        obtain ⟨⟨i, hi, hcovered⟩, hfree⟩ := (filter_cases hincluded hexcluded hpath).1.mp hpathIncluded
        rcases hverdict with ⟨e, he, hexclude⟩ | ⟨houtside, hnotAbove⟩
        · exact absurd ⟨e, he, htree.trans _ _ _ hexclude hle⟩ hfree
        · cases htree.chain _ _ _ hcovered hle with
          | inl habove => exact absurd ⟨i, hi, habove⟩ houtside
          | inr hbelow => exact absurd ⟨i, hi, hbelow⟩ hnotAbove
  · have hrefused : (∃ error, PathFilter.new includes excludes definitionPath = .error error) ↔
        (unify includes excludes).1 = [] := by
      rw [hnew]
      split
      next h => exact iff_of_true ⟨_, rfl⟩ h
      next h => exact iff_of_false (fun ⟨_, herror⟩ => nomatch herror) h
    rw [hrefused, List.eq_nil_iff_forall_not_mem, ← not_exists]
    refine not_congr ?_
    constructor
    · rintro ⟨i, hi⟩
      obtain ⟨hmem, hout, _⟩ := (hunify i).1.mp hi
      exact ⟨i, hincludes i hmem, ⟨i, hmem, htree.refl i⟩, hout⟩
    · rintro ⟨path, _, hadmits⟩
      obtain ⟨i, hi⟩ := (exists_surviving_iff htree includes excludes).mpr ⟨path, hadmits⟩
      exact ⟨i, (hunify i).1.mpr hi⟩

/-- A filter of two nested includes, with an exclude between them. -/
theorem pathFilter_meaning_nested :
    ∃ filter, PathFilter.new ["/a".toList, "/a/b/c".toList] ["/a/b".toList] "/oak:index/x" =
        .ok filter ∧
      (filter.filter "/a/b/c".toList = .included ↔
        (∃ included ∈ ["/a".toList, "/a/b/c".toList], AtOrAbove included "/a/b/c".toList) ∧
          ∀ excluded ∈ ["/a/b".toList], ¬ AtOrAbove excluded "/a/b/c".toList) := by
  have hmeaning := (@pathFilter_meaning ["/a".toList, "/a/b/c".toList] ["/a/b".toList]
    "/oak:index/x" (by decide) (by decide)).1
  have hnew : PathFilter.new ["/a".toList, "/a/b/c".toList] ["/a/b".toList] "/oak:index/x" =
      .ok ⟨["/a".toList], ["/a/b".toList]⟩ := by decide +kernel
  exact ⟨_, hnew, (hmeaning _ hnew).1 _ (by decide)⟩

end PathFilters

end Froe
