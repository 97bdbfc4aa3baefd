import Froe.Lib.Related
import Mathlib.Data.List.Induction

/-!
# Differences of two labelled trees

A node of a tree has labelled properties, and children with keys.  `differences` compares two
trees by recursion.  Where labels and keys are distinct at every node, the differences are,
each once (`nodup_differences`), what has become of the properties of every path that both
trees have, and the topmost paths that only one has (`mem_differences`), and there are none
exactly when the trees agree (`differences_eq_nil_iff`).
-/

/-- A tree with properties and keyed children. -/
inductive KeyedTree (κ π : Type) where
  | node (properties : List π) (children : List (κ × KeyedTree κ π))

namespace KeyedTree

open List (mem_append mem_map)

open Related

section

variable {κ ι π : Type}

def properties : KeyedTree κ π → List π
  | node properties _ => properties

def children : KeyedTree κ π → List (κ × KeyedTree κ π)
  | node _ children => children

variable {tree : KeyedTree κ π} {key : κ}

theorem sizeOf_child {below : KeyedTree κ π}
    (h : (key, below) ∈ tree.children) : sizeOf below < sizeOf tree := by
  obtain ⟨properties, children⟩ := tree
  have hmem : sizeOf (key, below) < sizeOf children := List.sizeOf_lt_of_mem h
  have hpair : sizeOf (key, below) = 1 + sizeOf key + sizeOf below := rfl
  have htree : sizeOf (node properties children) = 1 + sizeOf properties + sizeOf children :=
    node.sizeOf_spec properties children
  omega

/-- A tree that can stand below another. -/
def Smaller (below tree : KeyedTree κ π) : Prop := sizeOf below < sizeOf tree

theorem Smaller.trans {below middle : KeyedTree κ π} (h : Smaller below middle)
    (hmiddle : Smaller middle tree) : Smaller below tree := Nat.lt_trans h hmiddle

theorem not_smaller_self (tree : KeyedTree κ π) : ¬ Smaller tree tree := Nat.lt_irrefl _

/-- What holds of a node when it holds of its children holds of every tree. -/
theorem induction_on {P : KeyedTree κ π → Prop} (tree : KeyedTree κ π)
    (hnode : ∀ tree : KeyedTree κ π, (∀ key below, (key, below) ∈ tree.children → P below) → P tree) :
    P tree :=
  hnode tree fun _ below _ => induction_on below hnode
termination_by sizeOf tree
decreasing_by exact sizeOf_child ‹_›

variable [DecidableEq κ]

def child (tree : KeyedTree κ π) (key : κ) : Option (KeyedTree κ π) :=
  (tree.children.find? fun child => decide (child.1 = key)).map Prod.snd

/-- The node at a path of keys. -/
def at? : List κ → KeyedTree κ π → Option (KeyedTree κ π)
  | [], tree => some tree
  | key :: keys, tree => (tree.child key).bind (at? keys)

@[simp] theorem at?_nil (tree : KeyedTree κ π) : tree.at? [] = some tree := rfl

theorem at?_cons (tree : KeyedTree κ π) (key : κ) (keys : List κ) :
    tree.at? (key :: keys) = (tree.child key).bind (at? keys) := rfl

theorem at?_append (tree : KeyedTree κ π) (keys later : List κ) :
    tree.at? (keys ++ later) = (tree.at? keys).bind (at? later) := by
  induction keys generalizing tree with
  | nil => rfl
  | cons key keys ih =>
    rw [List.cons_append, at?_cons, at?_cons]
    cases tree.child key with
    | none => rfl
    | some child => exact ih child

/-! ## Distinct names -/

variable (label : π → ι)

def Distinct (tree : KeyedTree κ π) : Prop :=
  ∀ keys below, tree.at? keys = some below →
    (below.properties.map label).Nodup ∧ (below.children.map Prod.fst).Nodup

variable {label}

theorem smaller_child {below : KeyedTree κ π}
    (h : tree.child key = some below) : Smaller below tree := by
  obtain ⟨⟨key, below⟩, hfind, rfl⟩ := Option.map_eq_some_iff.mp h
  exact sizeOf_child (List.mem_of_find?_eq_some hfind)

theorem Distinct.child_iff (h : tree.Distinct label)
    {below : KeyedTree κ π} : tree.child key = some below ↔ (key, below) ∈ tree.children := by
  rw [child, Option.map_eq_some_iff]
  simp only [find_label_iff (h [] tree rfl).2]
  constructor
  · rintro ⟨⟨key, below⟩, ⟨hmem, rfl⟩, rfl⟩
    exact hmem
  · intro hmem
    exact ⟨_, ⟨hmem, rfl⟩, rfl⟩

theorem child_none_iff :
    tree.child key = none ↔ key ∉ tree.children.map Prod.fst := by
  rw [child, Option.map_eq_none_iff, find_label_none_iff]

theorem Distinct.below (h : tree.Distinct label)
    {below : KeyedTree κ π} (hbelow : tree.child key = some below) : below.Distinct label := by
  intro keys node hnode
  refine h (key :: keys) node ?_
  rw [at?_cons, hbelow]
  exact hnode

end

section

variable {κ ι π : Type} [DecidableEq κ] [DecidableEq ι] (label : π → ι) (same : π → π → Prop)
  [DecidableRel same]

/-! ## Changes -/

/-- What has become of a property. -/
inductive Change (π : Type) where
  | added (property : π)
  | removed (property : π)
  | changed (before after : π)

/-- A difference at a path. -/
inductive Difference (π : Type) where
  | nodeAdded
  | nodeRemoved
  | property (change : Change π)

/-- What has become of the property of a label. -/
def changeOf (before : Option π) (after : π) : Option (Change π) :=
  match before with
  | none => some (.added after)
  | some before => if same before after then none else some (.changed before after)

/-- The changes of the properties of a node: those of the newer node in order, and then what only
the older one has. -/
def changes (before after : List π) : List (Change π) :=
  after.filterMap (fun property =>
    changeOf same (before.find? fun other => decide (label other = label property)) property) ++
    (before.filter fun property => decide (label property ∉ after.map label)).map .removed

/-- Puts a key before the path of a difference. -/
def under (key : κ) (difference : List κ × Difference π) : List κ × Difference π :=
  (key :: difference.1, difference.2)

mutual

/-- The differences of two trees: those of the properties, those of the children of the newer node
in order, and then the children that only the older one has. -/
def differences (before : KeyedTree κ π) :
    KeyedTree κ π → List (List κ × Difference π)
  | .node properties children =>
    (changes label same before.properties properties).map (fun change => ([], .property change)) ++
      (differencesBelow before children ++
        (before.children.filter fun child => decide (child.1 ∉ children.map Prod.fst)).map
          fun child => ([child.1], .nodeRemoved))

def differencesBelow (before : KeyedTree κ π) :
    List (κ × KeyedTree κ π) → List (List κ × Difference π)
  | [] => []
  | (key, after) :: children =>
    (match before.child key with
      | none => [([key], .nodeAdded)]
      | some before => (differences before after).map (under key)) ++
      differencesBelow before children

end

/-- What has become of a property, without an order. -/
def Changes (before after : List π) : Change π → Prop
  | .added property => property ∈ after ∧ label property ∉ before.map label
  | .removed property => property ∈ before ∧ label property ∉ after.map label
  | .changed older newer =>
    older ∈ before ∧ newer ∈ after ∧ label older = label newer ∧ ¬ same older newer

/-- A path that only the second tree has, below a path that both have. -/
def Topmost (before after : KeyedTree κ π) (keys : List κ) : Prop :=
  before.at? keys = none ∧ after.at? keys ≠ none ∧
    ∃ above key, keys = above ++ [key] ∧ before.at? above ≠ none

/-- The differences of two trees, without an order. -/
def Differs (before after : KeyedTree κ π) (keys : List κ) : Difference π → Prop
  | .nodeAdded => Topmost before after keys
  | .nodeRemoved => Topmost after before keys
  | .property change => ∃ older newer, before.at? keys = some older ∧
      after.at? keys = some newer ∧ Changes label same older.properties newer.properties change

/-- Two trees have the same paths, and the same properties at each. -/
def Agree (before after : KeyedTree κ π) : Prop :=
  ∀ keys, Option.Rel (fun older newer =>
    (∀ property ∈ older.properties, ∃ other ∈ newer.properties,
      label property = label other ∧ same property other) ∧
    ∀ other ∈ newer.properties, ∃ property ∈ older.properties,
      label property = label other ∧ same property other) (before.at? keys) (after.at? keys)

/-- Whether a difference is below a key, by the differences of the two children. -/
def BelowKey (before after : KeyedTree κ π) (key : κ) (keys : List κ) (difference : Difference π)
    (P : KeyedTree κ π → KeyedTree κ π → Prop) : Prop :=
  match before.child key, after.child key with
  | none, none => False
  | none, some _ => keys = [] ∧ difference = .nodeAdded
  | some _, none => keys = [] ∧ difference = .nodeRemoved
  | some older, some newer => P older newer

variable {label same}

/-! ## What the differences are -/

omit [DecidableEq κ] in
theorem mem_changes {before after : List π} (hbefore : (before.map label).Nodup)
    {change : Change π} :
    change ∈ changes label same before after ↔ Changes label same before after change := by
  rw [changes, mem_append, List.mem_filterMap, mem_map]
  simp only [List.mem_filter, decide_eq_true_eq]
  constructor
  · rintro (⟨property, hproperty, hchange⟩ | ⟨property, hproperty, rfl⟩)
    · cases hfind : before.find? fun other => decide (label other = label property) with
      | none =>
        rw [hfind] at hchange
        cases hchange
        exact ⟨hproperty, find_label_none_iff.mp hfind⟩
      | some older =>
        obtain ⟨holder, hlabel⟩ := (find_label_iff hbefore).mp hfind
        rw [hfind, changeOf] at hchange
        split at hchange
        · cases hchange
        · rename_i hsame
          cases hchange
          exact ⟨holder, hproperty, hlabel, hsame⟩
    · exact hproperty
  · intro h
    cases change with
    | added property =>
      refine .inl ⟨property, h.1, ?_⟩
      rw [find_label_none_iff.mpr h.2]
      rfl
    | removed property => exact .inr ⟨property, h, rfl⟩
    | changed older newer =>
      obtain ⟨holder, hnewer, hlabel, hsame⟩ := h
      refine .inl ⟨newer, hnewer, ?_⟩
      rw [(find_label_iff hbefore).mpr ⟨holder, hlabel⟩, changeOf, if_neg hsame]

variable {before after : KeyedTree κ π} {key : κ} {keys : List κ} {difference : Difference π}

/-- The differences of one child are below its key. -/
theorem mem_differencesAt {newer : KeyedTree κ π} {first : κ} :
    ((key :: keys, difference) ∈ match before.child first with
      | none => [([first], Difference.nodeAdded)]
      | some older => (differences label same older newer).map (under first)) ↔
      key = first ∧ match before.child key with
        | none => keys = [] ∧ difference = .nodeAdded
        | some older => (keys, difference) ∈ differences label same older newer := by
  constructor
  · intro h
    cases hchild : before.child first with
    | none =>
      rw [hchild] at h
      cases List.mem_singleton.mp h
      rw [hchild]
      exact ⟨rfl, rfl, rfl⟩
    | some older =>
      rw [hchild] at h
      obtain ⟨below, hbelow, heq⟩ := mem_map.mp h
      cases heq
      rw [hchild]
      exact ⟨rfl, hbelow⟩
  · rintro ⟨rfl, h⟩
    cases hchild : before.child key with
    | none =>
      rw [hchild] at h
      obtain ⟨rfl, rfl⟩ := h
      exact List.mem_singleton_self _
    | some older =>
      rw [hchild] at h
      exact mem_map.mpr ⟨_, h, rfl⟩

theorem mem_differencesBelow {children : List (κ × KeyedTree κ π)} :
    (key :: keys, difference) ∈ differencesBelow label same before children ↔
      ∃ newer, (key, newer) ∈ children ∧
        match before.child key with
        | none => keys = [] ∧ difference = .nodeAdded
        | some older => (keys, difference) ∈ differences label same older newer := by
  induction children with
  | nil => simp [differencesBelow]
  | cons child children ih =>
    obtain ⟨first, newer⟩ := child
    rw [differencesBelow, mem_append, ih]
    refine (or_congr_left mem_differencesAt).trans ?_
    constructor
    · rintro (⟨rfl, h⟩ | ⟨newer, hmem, h⟩)
      · exact ⟨newer, List.mem_cons_self, h⟩
      · exact ⟨newer, List.mem_cons_of_mem _ hmem, h⟩
    · rintro ⟨other, hmem, h⟩
      rcases List.mem_cons.mp hmem with heq | hmem
      · cases heq
        exact .inl ⟨rfl, h⟩
      · exact .inr ⟨other, hmem, h⟩

theorem differencesBelow_ne_nil {children : List (κ × KeyedTree κ π)}
    {difference : List κ × Difference π}
    (h : difference ∈ differencesBelow label same before children) :
    ∃ key keys, difference.1 = key :: keys ∧ key ∈ children.map Prod.fst := by
  induction children with
  | nil =>
    rw [differencesBelow] at h
    cases h
  | cons child children ih =>
    obtain ⟨first, newer⟩ := child
    rw [differencesBelow, mem_append] at h
    rcases h with h | h
    · refine ⟨first, ?_⟩
      split at h
      · rw [List.mem_singleton.mp h]
        exact ⟨[], rfl, List.mem_cons_self⟩
      · obtain ⟨below, -, rfl⟩ := mem_map.mp h
        exact ⟨below.1, rfl, List.mem_cons_self⟩
    · obtain ⟨key, keys, hkeys, hkey⟩ := ih h
      exact ⟨key, keys, hkeys, List.mem_cons_of_mem _ hkey⟩

/-- The differences below a key are those of the two children. -/
theorem mem_differences_cons (hbefore : before.Distinct label) (hafter : after.Distinct label) :
    (key :: keys, difference) ∈ differences label same before after ↔
      BelowKey before after key keys difference fun older newer =>
        (keys, difference) ∈ differences label same older newer := by
  have hremoved : ((key :: keys, difference) ∈
      (before.children.filter fun child => decide (child.1 ∉ after.children.map Prod.fst)).map
        fun child => (([child.1], .nodeRemoved) : List κ × Difference π)) ↔
      (∃ older, before.child key = some older) ∧ after.child key = none ∧ keys = [] ∧
        difference = .nodeRemoved := by
    rw [mem_map]
    constructor
    · rintro ⟨⟨name, older⟩, hmem, heq⟩
      cases heq
      obtain ⟨hmem, hnone⟩ := List.mem_filter.mp hmem
      exact ⟨⟨older, hbefore.child_iff.mpr hmem⟩, child_none_iff.mpr (of_decide_eq_true hnone),
        rfl, rfl⟩
    · rintro ⟨⟨older, holder⟩, hnone, rfl, rfl⟩
      exact ⟨(key, older), List.mem_filter.mpr ⟨hbefore.child_iff.mp holder,
        decide_eq_true (child_none_iff.mp hnone)⟩, rfl⟩
  have hdifferences : (key :: keys, difference) ∈ differences label same before after ↔
      (∃ newer, after.child key = some newer ∧
        match before.child key with
        | none => keys = [] ∧ difference = .nodeAdded
        | some older => (keys, difference) ∈ differences label same older newer) ∨
      (∃ older, before.child key = some older) ∧ after.child key = none ∧ keys = [] ∧
        difference = .nodeRemoved := by
    rw [← hremoved]
    simp only [hafter.child_iff]
    rw [← mem_differencesBelow]
    obtain ⟨properties, children⟩ := after
    rw [differences, mem_append, mem_append]
    refine or_iff_right ?_
    rintro h
    obtain ⟨change, -, heq⟩ := mem_map.mp h
    cases heq
  rw [hdifferences, BelowKey]
  cases before.child key <;> cases after.child key <;> simp

theorem mem_differences_nil (hbefore : before.Distinct label) :
    ([], difference) ∈ differences label same before after ↔
      Differs label same before after [] difference := by
  obtain ⟨properties, children⟩ := after
  rw [differences, mem_append, mem_append]
  constructor
  · rintro (h | h | h)
    · obtain ⟨change, hchange, heq⟩ := mem_map.mp h
      cases heq
      exact ⟨_, _, rfl, rfl, (mem_changes (hbefore [] before rfl).1).mp hchange⟩
    · obtain ⟨key, keys, hkeys, -⟩ := differencesBelow_ne_nil h
      cases hkeys
    · obtain ⟨child, -, heq⟩ := mem_map.mp h
      cases heq
  · intro h
    cases difference with
    | nodeAdded => cases h.1
    | nodeRemoved => cases h.1
    | property change =>
      obtain ⟨older, newer, holder, hnewer, hchange⟩ := h
      cases holder
      cases hnewer
      exact .inl (mem_map.mpr
        ⟨change, (mem_changes (hbefore [] before rfl).1).mpr hchange, rfl⟩)

omit [DecidableEq ι] in
theorem topmost_cons :
    Topmost before after (key :: keys) ↔
      match before.child key, after.child key with
      | _, none => False
      | none, some _ => keys = []
      | some older, some newer => Topmost older newer keys := by
  rw [Topmost, at?_cons, at?_cons]
  cases hafter : after.child key with
  | none => cases before.child key <;> exact ⟨fun h => h.2.1 rfl, False.elim⟩
  | some newer =>
    cases hbefore : before.child key with
    | none =>
      constructor
      · rintro ⟨-, -, above, last, heq, habove⟩
        cases above with
        | nil =>
          rw [List.nil_append, List.cons.injEq] at heq
          exact heq.2
        | cons first above =>
          rw [List.cons_append, List.cons.injEq] at heq
          rw [at?_cons, ← heq.1, hbefore] at habove
          exact absurd rfl habove
      · rintro rfl
        exact ⟨rfl, nofun, [], key, rfl, nofun⟩
    | some older =>
      constructor
      · rintro ⟨hnone, hsome, above, last, heq, habove⟩
        refine ⟨hnone, hsome, ?_⟩
        cases above with
        | nil =>
          rw [List.nil_append, List.cons.injEq] at heq
          rw [heq.2] at hnone
          cases hnone
        | cons first above =>
          rw [List.cons_append, List.cons.injEq] at heq
          obtain ⟨rfl, rfl⟩ := heq
          rw [at?_cons, hbefore] at habove
          exact ⟨above, last, rfl, habove⟩
      · rintro ⟨hnone, hsome, above, last, rfl, habove⟩
        refine ⟨hnone, hsome, key :: above, last, rfl, ?_⟩
        rw [at?_cons, hbefore]
        exact habove

omit [DecidableEq ι] [DecidableRel same] in
theorem differs_cons :
    Differs label same before after (key :: keys) difference ↔
      BelowKey before after key keys difference fun older newer =>
        Differs label same older newer keys difference := by
  cases difference with
  | nodeAdded =>
    rw [Differs, topmost_cons, BelowKey]
    cases before.child key <;> cases after.child key <;> simp [Differs]
  | nodeRemoved =>
    rw [Differs, topmost_cons, BelowKey]
    cases before.child key <;> cases after.child key <;> simp [Differs]
  | property change =>
    rw [Differs, at?_cons, at?_cons, BelowKey]
    cases before.child key <;> cases after.child key <;> simp [Differs]

theorem mem_differences (hbefore : before.Distinct label) (hafter : after.Distinct label) :
    (keys, difference) ∈ differences label same before after ↔
      Differs label same before after keys difference := by
  induction keys generalizing before after with
  | nil => exact mem_differences_nil hbefore
  | cons key keys ih =>
    rw [mem_differences_cons hbefore hafter, differs_cons, BelowKey, BelowKey]
    cases holder : before.child key with
    | none => cases after.child key <;> rfl
    | some older =>
      cases hnewer : after.child key with
      | none => rfl
      | some newer => exact ih (hbefore.below holder) (hafter.below hnewer)

/-! ## Each once -/

omit [DecidableEq κ] [DecidableEq ι] in
theorem mem_changeOf {before : Option π} {after : π} {change : Change π}
    (h : change ∈ changeOf same before after) :
    change = .added after ∨ ∃ older, change = .changed older after := by
  cases before with
  | none =>
    cases h
    exact .inl rfl
  | some older =>
    rw [changeOf] at h
    split at h
    · cases h
    · cases h
      exact .inr ⟨older, rfl⟩

omit [DecidableEq κ] in
theorem nodup_changes {before after : List π} (hbefore : (before.map label).Nodup)
    (hafter : (after.map label).Nodup) : (changes label same before after).Nodup := by
  have hinjective : ∀ property other change,
      change ∈ changeOf same (before.find? fun older => decide (label older = label property))
        property →
      change ∈ changeOf same (before.find? fun older => decide (label older = label other)) other →
      property = other := by
    intro property other change hproperty hother
    rcases mem_changeOf hproperty with rfl | ⟨older, rfl⟩ <;>
      rcases mem_changeOf hother with heq | ⟨older', heq⟩ <;> cases heq <;> rfl
  have hremoved : Function.Injective (Change.removed : π → Change π) := fun _ _ h => by cases h; rfl
  refine List.Nodup.append (hafter.of_map.filterMap hinjective)
    ((hbefore.of_map.filter _).map hremoved) ?_
  intro change hnewer hremoved
  obtain ⟨property, -, rfl⟩ := mem_map.mp hremoved
  obtain ⟨other, -, h⟩ := List.mem_filterMap.mp hnewer
  rcases mem_changeOf h with heq | ⟨older, heq⟩ <;> cases heq

omit [DecidableEq κ] in
theorem under_injective (key : κ) : Function.Injective (@under κ π key) := by
  rintro ⟨keys, difference⟩ ⟨keys', difference'⟩ h
  cases h
  rfl

theorem nodup_differencesBelow {children : List (κ × KeyedTree κ π)}
    (hnodup : (children.map Prod.fst).Nodup)
    (hchildren : ∀ key older newer, before.child key = some older → (key, newer) ∈ children →
      (differences label same older newer).Nodup) :
    (differencesBelow label same before children).Nodup := by
  induction children with
  | nil =>
    rw [differencesBelow]
    exact List.nodup_nil
  | cons child children ih =>
    obtain ⟨key, newer⟩ := child
    obtain ⟨hkey, hnodup⟩ := List.nodup_cons.mp hnodup
    rw [differencesBelow]
    refine List.Nodup.append ?_ (ih hnodup fun key older newer holder hnewer =>
      hchildren key older newer holder (List.mem_cons_of_mem _ hnewer)) ?_
    · split
      · exact List.nodup_singleton _
      · rename_i older holder
        exact (hchildren key older newer holder List.mem_cons_self).map (under_injective key)
    · intro difference hfirst hlater
      obtain ⟨later, keys, hkeys, hlater⟩ := differencesBelow_ne_nil hlater
      refine hkey ?_
      split at hfirst
      · rw [List.mem_singleton.mp hfirst] at hkeys
        cases hkeys
        exact hlater
      · obtain ⟨below, -, rfl⟩ := mem_map.mp hfirst
        cases hkeys
        exact hlater

theorem nodup_differences (hbefore : before.Distinct label)
    (hafter : after.Distinct label) : (differences label same before after).Nodup := by
  induction after using induction_on generalizing before with
  | hnode after ih =>
    have hchildren : (differencesBelow label same before after.children).Nodup :=
      nodup_differencesBelow (hafter [] after rfl).2 fun key older newer holder hnewer =>
        ih key newer hnewer (hbefore.below holder) (hafter.below (hafter.child_iff.mpr hnewer))
    have hchanges : ((changes label same before.properties after.properties).map fun change =>
        (([], .property change) : List κ × Difference π)).Nodup := by
      refine (nodup_changes (hbefore [] before rfl).1 (hafter [] after rfl).1).map ?_
      intro change change' h
      cases h
      rfl
    have hremoved : ((before.children.filter fun child =>
        decide (child.1 ∉ after.children.map Prod.fst)).map
          fun child => (([child.1], .nodeRemoved) : List κ × Difference π)).Nodup := by
      have hkeys : ((before.children.filter fun child =>
          decide (child.1 ∉ after.children.map Prod.fst)).map Prod.fst).Nodup :=
        (hbefore [] before rfl).2.sublist (List.filter_sublist.map _)
      have hinjective : Function.Injective fun key : κ =>
          (([key], .nodeRemoved) : List κ × Difference π) := by
        intro key key' h
        cases h
        rfl
      have hmap := hkeys.map hinjective
      rw [List.map_map] at hmap
      exact hmap
    obtain ⟨properties, children⟩ := after
    rw [differences]
    refine hchanges.append (hchildren.append hremoved ?_) ?_
    · intro difference hbelow hremoved
      obtain ⟨key, keys, hkeys, hkey⟩ := differencesBelow_ne_nil hbelow
      obtain ⟨child, hchild, rfl⟩ := mem_map.mp hremoved
      cases hkeys
      exact of_decide_eq_true (List.mem_filter.mp hchild).2 hkey
    · intro difference hchange hbelow
      obtain ⟨change, -, rfl⟩ := mem_map.mp hchange
      rcases mem_append.mp hbelow with hbelow | hremoved
      · obtain ⟨key, keys, hkeys, -⟩ := differencesBelow_ne_nil hbelow
        cases hkeys
      · obtain ⟨child, -, heq⟩ := mem_map.mp hremoved
        cases heq

/-! ## No differences -/

omit [DecidableEq ι] in
/-- Where one tree has a path that the other does not have, there is a topmost such path. -/
theorem exists_topmost (hbefore : before.at? keys = none) (hafter : after.at? keys ≠ none) :
    ∃ keys, Topmost before after keys := by
  induction keys using List.reverseRecOn with
  | nil => cases hbefore
  | append_singleton above key ih =>
    by_cases habove : before.at? above = none
    · refine ih habove fun h => hafter ?_
      rw [at?_append, h]
      rfl
    · exact ⟨above ++ [key], hbefore, hafter, above, key, rfl, habove⟩

omit [DecidableEq κ] [DecidableEq ι] [DecidableRel same] in
/-- Properties in which nothing has changed agree. -/
theorem agree_of_unchanged {before after : List π}
    (h : ∀ change, ¬ Changes label same before after change) :
    (∀ property ∈ before, ∃ other ∈ after, label property = label other ∧ same property other) ∧
      ∀ other ∈ after, ∃ property ∈ before, label property = label other ∧ same property other := by
  have hsame : ∀ property ∈ before, ∀ other ∈ after, label property = label other →
      same property other := fun property hproperty other hother hlabel =>
    not_not.mp fun hsame => h (.changed property other) ⟨hproperty, hother, hlabel, hsame⟩
  constructor
  · intro property hproperty
    have hlabel : label property ∈ after.map label :=
      not_not.mp fun hlabel => h (.removed property) ⟨hproperty, hlabel⟩
    obtain ⟨other, hother, heq⟩ := mem_map.mp hlabel
    exact ⟨other, hother, heq.symm, hsame property hproperty other hother heq.symm⟩
  · intro other hother
    have hlabel : label other ∈ before.map label :=
      not_not.mp fun hlabel => h (.added other) ⟨hother, hlabel⟩
    obtain ⟨property, hproperty, heq⟩ := mem_map.mp hlabel
    exact ⟨property, hproperty, heq, hsame property hproperty other hother heq⟩

/-- Two trees have no differences exactly when they agree. -/
theorem differences_eq_nil_iff (hbefore : before.Distinct label) (hafter : after.Distinct label) :
    differences label same before after = [] ↔ Agree label same before after := by
  rw [List.eq_nil_iff_forall_not_mem]
  constructor
  · intro h keys
    have hdiffers : ∀ keys difference, ¬ Differs label same before after keys difference :=
      fun keys difference hdiffers => h _ ((mem_differences hbefore hafter).mpr hdiffers)
    cases holder : before.at? keys with
    | none =>
      cases hnewer : after.at? keys with
      | none => exact .none
      | some newer =>
        obtain ⟨keys, htopmost⟩ := exists_topmost holder (Option.ne_none_iff_exists'.mpr ⟨_, hnewer⟩)
        exact (hdiffers keys .nodeAdded htopmost).elim
    | some older =>
      cases hnewer : after.at? keys with
      | none =>
        obtain ⟨keys, htopmost⟩ := exists_topmost hnewer (Option.ne_none_iff_exists'.mpr ⟨_, holder⟩)
        exact (hdiffers keys .nodeRemoved htopmost).elim
      | some newer =>
        exact .some (agree_of_unchanged fun change hchange =>
          hdiffers keys (.property change) ⟨older, newer, holder, hnewer, hchange⟩)
  · rintro h ⟨keys, difference⟩ hmem
    have hdiffers := (mem_differences hbefore hafter).mp hmem
    have hagree := h keys
    cases difference with
    | nodeAdded =>
      obtain ⟨hnone, hsome, -⟩ := hdiffers
      rw [hnone] at hagree
      cases hnewer : after.at? keys with
      | none => exact hsome hnewer
      | some newer =>
        rw [hnewer] at hagree
        cases hagree
    | nodeRemoved =>
      obtain ⟨hnone, hsome, -⟩ := hdiffers
      rw [hnone] at hagree
      cases holder : before.at? keys with
      | none => exact hsome holder
      | some older =>
        rw [holder] at hagree
        cases hagree
    | property change =>
      obtain ⟨older, newer, holder, hnewer, hchange⟩ := hdiffers
      rw [holder, hnewer] at hagree
      cases hagree with
      | some hagree =>
        cases change with
        | added property =>
          obtain ⟨other, hother, hlabel, -⟩ := hagree.2 property hchange.1
          exact hchange.2 (hlabel ▸ List.mem_map_of_mem hother)
        | removed property =>
          obtain ⟨other, hother, hlabel, -⟩ := hagree.1 property hchange.1
          exact hchange.2 (hlabel ▸ List.mem_map_of_mem hother)
        | changed property other =>
          obtain ⟨hproperty, hother, hlabel, hsame⟩ := hchange
          obtain ⟨found, hfound, hfoundLabel, hfoundSame⟩ := hagree.1 property hproperty
          obtain rfl := List.inj_on_of_nodup_map (hafter keys newer hnewer).1 hfound hother
            (hfoundLabel.symm.trans hlabel)
          exact hsame hfoundSame

end

end KeyedTree
