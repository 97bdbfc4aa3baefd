import Froe.Content.PropertyTypes
import Froe.Lib.TreeDiff
import Froe.Tooling.Diff

/-!
# The walk agrees with a recursive comparison

`KeyedTree.differences` compares two decoded trees by recursion, without the records, the
stack and the pairs on the path.  The walk emits exactly these differences in their order,
unless the visits run out (`emits_pair`).  It finds no pair below itself, since the tree of
a record on the path is larger than the tree of a record below it.
-/

namespace Froe

open SegmentProvider (diffWork)

open List (append_nil map_append map_cons map_map)
open Except (bind_ok_iff)

open KeyedTree Classical

/-! ## Decoded trees -/

/-- A decoded tree.  Its children are in storage order. -/
abbrev DecodedTree (f : FloatingPoint) := KeyedTree String (PropertyState f)

section

variable {f : FloatingPoint} (toBits : f.Double → UInt64) (provider : SegmentProvider)

/-- A value whose content can be read. -/
def ReadableValue : PropertyValue f → Prop
  | .binary (.inline _ recordIdentifier) =>
    ∃ content, readBinaryContent provider recordIdentifier = .ok content
  | _ => True

/-- A record is the root of a decoded tree with a number of levels. -/
def Decodes : Nat → RecordIdentifier → DecodedTree f → Prop
  | 0, _, _ => False
  | levels + 1, record, .node properties children =>
    NodeState.properties f ⟨provider, record⟩ = .ok properties ∧
      (∀ property ∈ properties, ∀ value ∈ property.values.toList, ReadableValue provider value) ∧
      ∃ entries, NodeState.childNodeEntries ⟨provider, record⟩ = .ok entries ∧
        List.Forall₂ (fun entry child => child.1 = entry.1 ∧ Decodes levels entry.2 child.2)
          entries children

/-! ## Equal content -/

/-- Two values are equal: inline binaries by their bytes, doubles by their bits. -/
def SameValue : PropertyValue f → PropertyValue f → Prop
  | .binary (.inline length recordIdentifier), .binary (.inline length' recordIdentifier') =>
    length = length' ∧
      readBinaryContent provider recordIdentifier = readBinaryContent provider recordIdentifier'
  | .double value, .double value' =>
    doubleBitsForEquality toBits value = doubleBitsForEquality toBits value'
  | value, value' => value = value'

/-- Two groups of values are equal in arity and in each value. -/
def SameValues : PropertyValues f → PropertyValues f → Prop
  | .single value, .single value' => SameValue toBits provider value value'
  | .multiple values, .multiple values' => List.Forall₂ (SameValue toBits provider) values values'
  | _, _ => False

/-- Two properties are equal in type, arity and values. -/
def SameProperty (before after : PropertyState f) : Prop :=
  before.propertyType = after.propertyType ∧
    SameValues toBits provider before.values after.values

noncomputable instance : DecidableRel (SameProperty toBits provider (f := f)) :=
  Classical.decRel _

variable {toBits provider}

theorem SameValue.refl (value : PropertyValue f) : SameValue toBits provider value value := by
  cases value with
  | binary binary =>
    cases binary with
    | inline => exact ⟨rfl, rfl⟩
    | external => rfl
  | _ => rfl

theorem SameProperty.refl (property : PropertyState f) :
    SameProperty toBits provider property property := by
  obtain ⟨name, propertyType, values⟩ := property
  cases values with
  | single value => exact ⟨rfl, SameValue.refl value⟩
  | multiple values => exact ⟨rfl, List.forall₂_same.mpr fun value _ => SameValue.refl value⟩

/-- A value of a node: it can be read, and a binary was read from a value record. -/
def StoredValue (provider : SegmentProvider) (value : PropertyValue f) : Prop :=
  ReadableValue provider value ∧
    ∀ binary, value = .binary binary →
      ∃ identifier, readBinaryValue provider identifier = .ok binary

theorem propertyValueEqual_spec {before after : PropertyValue f}
    (hbefore : StoredValue provider before) (hafter : StoredValue provider after) :
    propertyValueEqual toBits provider before after =
      .ok (decide (SameValue toBits provider before after)) := by
  cases before with
  | binary binary =>
    cases after with
    | binary binary' =>
      cases binary with
      | inline length recordIdentifier =>
        cases binary' with
        | inline length' recordIdentifier' =>
          rw [propertyValueEqual]
          by_cases hlength : length = length'
          · obtain rfl := hlength
            obtain ⟨⟨content, hcontent⟩, hread⟩ := hbefore
            obtain ⟨⟨content', hcontent'⟩, hread'⟩ := hafter
            obtain ⟨identifier, hidentifier⟩ := hread _ rfl
            obtain ⟨identifier', hidentifier'⟩ := hread' _ rfl
            rw [if_neg (by simp), inlineBinaryContentsEqual_spec hidentifier hidentifier' hcontent
              hcontent']
            simp [SameValue, hcontent, hcontent']
          · rw [if_pos hlength, decide_eq_false fun h => hlength h.1]
        | external => simp [propertyValueEqual, SameValue]
      | external => simp [propertyValueEqual, SameValue]
    | _ => simp [propertyValueEqual, SameValue]
  | double value =>
    cases after with
    | double value' =>
      rw [propertyValueEqual]
      exact congrArg Except.ok (decide_eq_decide.mpr Iff.rfl)
    | _ => simp [propertyValueEqual, SameValue]
  | _ => cases after <;> simp [propertyValueEqual, SameValue]

theorem propertyValueListsEqual_spec {before after : List (PropertyValue f)}
    (hlength : before.length = after.length) (hbefore : ∀ value ∈ before, StoredValue provider value)
    (hafter : ∀ value ∈ after, StoredValue provider value) :
    propertyValueListsEqual toBits provider before after =
      .ok (decide (List.Forall₂ (SameValue toBits provider) before after)) := by
  induction before generalizing after with
  | nil =>
    cases after with
    | nil => simp [propertyValueListsEqual]
    | cons => cases hlength
  | cons first before ih =>
    cases after with
    | nil => cases hlength
    | cons second after =>
      rw [List.length_cons, List.length_cons, Nat.add_right_cancel_iff] at hlength
      rw [propertyValueListsEqual,
        propertyValueEqual_spec (hbefore _ List.mem_cons_self) (hafter _ List.mem_cons_self),
        Except.ok_bind_eq, ih hlength (fun value h => hbefore value (List.mem_cons_of_mem _ h))
          fun value h => hafter value (List.mem_cons_of_mem _ h)]
      by_cases hsame : SameValue toBits provider first second
      · simp [hsame]
      · simp only [hsame, decide_false, List.forall₂_cons, false_and]
        rfl

theorem propertyValuesEqual_spec {before after : PropertyValues f}
    (hbefore : ∀ value ∈ before.toList, StoredValue provider value)
    (hafter : ∀ value ∈ after.toList, StoredValue provider value) :
    propertyValuesEqual toBits provider before after =
      .ok (decide (SameValues toBits provider before after)) := by
  cases before with
  | single before =>
    cases after with
    | single after =>
      exact propertyValueEqual_spec (hbefore _ (List.mem_singleton_self _))
        (hafter _ (List.mem_singleton_self _))
    | multiple => exact congrArg Except.ok (decide_eq_false_iff_not.mpr not_false).symm
  | multiple befores =>
    cases after with
    | single => exact congrArg Except.ok (decide_eq_false_iff_not.mpr not_false).symm
    | multiple afters =>
      rw [propertyValuesEqual]
      by_cases hlength : befores.length = afters.length
      · rw [if_neg (not_not.mpr hlength)]
        exact (propertyValueListsEqual_spec hlength hbefore hafter).trans
          (congrArg Except.ok (decide_eq_decide.mpr Iff.rfl))
      · rw [if_pos hlength, decide_eq_false fun h => hlength h.length_eq]

/-! ## Properties -/

/-- A change as the walk emits it. -/
def toPropertyChange : Change (PropertyState f) → PropertyChange f
  | .added property => .added property
  | .removed property => .removed property
  | .changed before after => .changed before after

/-- A difference as the walk emits it below a path. -/
def toDifference (path : String) (difference : List String × Difference (PropertyState f)) :
    NodeDifference f :=
  let path := displayDiffPath (difference.1.foldl diffChildPath path)
  match difference.2 with
  | .nodeAdded => .nodeAdded path
  | .nodeRemoved => .nodeRemoved path
  | .property change => .propertyChanged path (toPropertyChange change)

/-- The values of a property can be compared. -/
def StoredProperty (provider : SegmentProvider) (property : PropertyState f) : Prop :=
  ∀ value ∈ property.values.toList, StoredValue provider value

theorem storedProperties_of_readable {record : RecordIdentifier}
    {properties : List (PropertyState f)}
    (hproperties : NodeState.properties f ⟨provider, record⟩ = .ok properties)
    (hreadable : ∀ property ∈ properties, ∀ value ∈ property.values.toList,
      ReadableValue provider value) :
    ∀ property ∈ properties, StoredProperty provider property :=
  fun property hproperty value hvalue => ⟨hreadable property hproperty value hvalue,
    fun _ hbinary => NodeState.properties_binary hproperties hproperty (hbinary ▸ hvalue)⟩

theorem propertyChange_spec {before : Option (PropertyState f)} {after : PropertyState f}
    (hbefore : ∀ property ∈ before, StoredProperty provider property)
    (hafter : StoredProperty provider after) :
    propertyChange toBits provider before after =
      .ok ((changeOf (SameProperty toBits provider) before after).map toPropertyChange) := by
  cases before with
  | none => rfl
  | some before =>
    rw [propertyChange, changeOf]
    by_cases htype : before.propertyType = after.propertyType
    · rw [if_neg (not_not.mpr htype),
        propertyValuesEqual_spec (hbefore before rfl) hafter, Except.ok_bind_eq]
      by_cases hsame : SameValues toBits provider before.values after.values
      · rw [if_pos (decide_eq_true hsame), if_pos ⟨htype, hsame⟩]
        rfl
      · rw [if_neg (by simpa using hsame), if_neg fun h => hsame h.2]
        rfl
    · rw [if_pos htype, if_neg fun h => htype h.1]
      rfl

section

variable (properties : List (PropertyState f)) (name : String)

/-- The first with a name, by the test of the walk. -/
theorem find_name :
    (properties.find? fun property => property.name == name) =
      properties.find? fun property => decide (property.name = name) := by
  refine congrArg (List.find? · properties) (funext fun property => ?_)
  exact beq_eq_decide _ _

theorem any_name :
    (!properties.any fun property => property.name == name) =
      decide (name ∉ properties.map PropertyState.name) := by
  rw [Bool.eq_iff_iff]
  simp

end

variable {before after : RecordIdentifier} {levels : Nat}
  {entries : List (String × RecordIdentifier)}
  {ancestors : Finset (RecordIdentifier × RecordIdentifier)} {path : String}

theorem diffProperties_spec {beforeProperties afterProperties : List (PropertyState f)}
    (hbefore : NodeState.properties f ⟨provider, before⟩ = .ok beforeProperties)
    (hafter : NodeState.properties f ⟨provider, after⟩ = .ok afterProperties)
    (hbeforeStored : ∀ property ∈ beforeProperties, StoredProperty provider property)
    (hafterStored : ∀ property ∈ afterProperties, StoredProperty provider property) :
    diffProperties toBits provider ⟨provider, before⟩ ⟨provider, after⟩ =
      .ok ((changes PropertyState.name (SameProperty toBits provider) beforeProperties
        afterProperties).map toPropertyChange) := by
  refine bind_ok_iff.mpr ⟨_, hbefore, bind_ok_iff.mpr ⟨_, hafter, ?_⟩⟩
  refine bind_ok_iff.mpr ⟨afterProperties.map fun property =>
    (changeOf (SameProperty toBits provider) (beforeProperties.find? fun other =>
      decide (other.name = property.name)) property).map toPropertyChange, ?_, ?_⟩
  · rw [Except.mapM_ok_iff, List.forall₂_map_right_iff, List.forall₂_same]
    intro property hproperty
    rw [find_name, propertyChange_spec (fun other hother =>
      hbeforeStored other (List.mem_of_find?_eq_some hother)) (hafterStored property hproperty)]
  · have hreduce : ∀ changes : List (Option (PropertyChange f)),
        changes.reduceOption = changes.filterMap id := fun _ => rfl
    refine congrArg Except.ok ?_
    rw [changes, map_append, map_map, List.map_filterMap, hreduce, List.filterMap_map]
    simp only [any_name]
    rfl

/-! ## Decoding -/

theorem Decodes.unique {levels levels' : Nat} {record : RecordIdentifier} {tree tree' : DecodedTree f}
    (h : Decodes provider levels record tree) (h' : Decodes provider levels' record tree') :
    tree = tree' := by
  induction levels generalizing levels' record tree tree' with
  | zero => exact h.elim
  | succ levels ih =>
    cases levels' with
    | zero => exact h'.elim
    | succ levels' =>
      obtain ⟨properties, children⟩ := tree
      obtain ⟨properties', children'⟩ := tree'
      obtain ⟨hproperties, -, entries, hentries, hchildren⟩ := h
      obtain ⟨hproperties', -, entries', hentries', hchildren'⟩ := h'
      cases hproperties.symm.trans hproperties'
      cases hentries.symm.trans hentries'
      have heq : children = children' := Related.unique (fun _ _ _ h h' =>
        Prod.ext (h.1.trans h'.1.symm) (ih h.2 h'.2)) hchildren hchildren'
      rw [heq]

variable {tree : DecodedTree f} {others : List (NodeDifference f)}

theorem find_entry (h : List.Forall₂ (fun entry child => child.1 = entry.1 ∧
      Decodes provider levels entry.2 child.2) entries tree.children)
    (hnodup : (tree.children.map Prod.fst).Nodup) (name : String) :
    Option.Rel (fun record below => Decodes provider levels record below)
      ((entries.reverse.find? fun entry => entry.1 == name).map Prod.snd) (tree.child name) := by
  have hentries : (entries.map Prod.fst).Nodup := by
    rw [Related.map_keys h]
    exact hnodup
  have hfind := Related.find_label_reverse hentries name
  simp only [beq_eq_decide]
  rw [hfind]
  exact Related.find_key h name

/-! ## The walk -/

variable (toBits provider)

/-- Work on top of a stack emits differences, and leaves the pairs on the path, unless the visits
run out. -/
def Emits (works : List DiffWork) (ancestors : Finset (RecordIdentifier × RecordIdentifier))
    (differences : List (NodeDifference f)) : Prop :=
  ∃ steps, ∀ stack visits emitted, visits ≤ maximumDiffVisits →
    diffWork toBits provider (works ++ stack) ancestors visits emitted =
      if visits + steps > maximumDiffVisits then some (.error visitsError)
      else diffWork toBits provider stack ancestors (visits + steps) (emitted ++ differences)

variable {toBits provider}

theorem Emits.nil :
    Emits toBits provider [] ancestors [] := by
  refine ⟨0, fun stack visits emitted hvisits => ?_⟩
  rw [List.nil_append, append_nil, Nat.add_zero, if_neg (Nat.not_lt.mpr hvisits)]

theorem Emits.append {works later : List DiffWork} {differences : List (NodeDifference f)}
    (h : Emits toBits provider works ancestors differences)
    (hlater : Emits toBits provider later ancestors others) :
    Emits toBits provider (works ++ later) ancestors (differences ++ others) := by
  obtain ⟨steps, hsteps⟩ := h
  obtain ⟨more, hmore⟩ := hlater
  refine ⟨steps + more, fun stack visits emitted hvisits => ?_⟩
  rw [List.append_assoc, hsteps _ _ _ hvisits]
  by_cases hfirst : visits + steps > maximumDiffVisits
  · rw [if_pos hfirst, if_pos (by omega)]
  · rw [if_neg hfirst, hmore _ _ _ (Nat.le_of_not_lt hfirst), List.append_assoc, Nat.add_assoc]

theorem Emits.visit {before after : Option NodeState} {path : String}
    {ancestors : Finset (RecordIdentifier × RecordIdentifier)}
    {differences : List (NodeDifference f)}
    (h : ∀ stack visits emitted, visits + 1 ≤ maximumDiffVisits →
      diffWork toBits provider (.visit before after path :: stack) ancestors visits emitted =
        diffWork toBits provider stack ancestors (visits + 1) (emitted ++ differences)) :
    Emits toBits provider [.visit before after path] ancestors differences := by
  refine ⟨1, fun stack visits emitted _ => ?_⟩
  by_cases hvisits : visits + 1 > maximumDiffVisits
  · rw [if_pos hvisits, List.singleton_append, SegmentProvider.diffWork.eq_def]
    exact if_pos hvisits
  · rw [if_neg hvisits]
    exact h stack visits emitted (Nat.le_of_not_lt hvisits)

theorem Emits.added {after : NodeState} :
    Emits toBits provider [.visit none (some after) path] ancestors
      [.nodeAdded (displayDiffPath path)] := by
  refine Emits.visit fun stack visits emitted hvisits => ?_
  rw [diffWork]
  exact if_neg (Nat.not_lt.mpr hvisits)

theorem Emits.removed {before : NodeState} :
    Emits toBits provider [.visit (some before) none path] ancestors
      [.nodeRemoved (displayDiffPath path)] := by
  refine Emits.visit fun stack visits emitted hvisits => ?_
  rw [diffWork]
  exact if_neg (Nat.not_lt.mpr hvisits)

/-- Nothing on the path is below itself: the first records of the pairs on the path are those of
larger trees. -/
def Above (provider : SegmentProvider)
    (ancestors : Finset (RecordIdentifier × RecordIdentifier)) (tree : DecodedTree f) : Prop :=
  ∀ pair ∈ ancestors, ∃ levels, ∃ above : DecodedTree f,
    Decodes provider levels pair.1 above ∧ Smaller tree above

theorem Above.below {below : DecodedTree f} {pair : RecordIdentifier × RecordIdentifier}
    (h : Above provider ancestors tree) (hpair : Decodes provider levels pair.1 tree)
    (hbelow : Smaller below tree) : Above provider (insert pair ancestors) below := by
  intro other hother
  rcases Finset.mem_insert.mp hother with rfl | hother
  · exact ⟨levels, tree, hpair, hbelow⟩
  · obtain ⟨levels', above, habove, hsize⟩ := h other hother
    exact ⟨levels', above, habove, hbelow.trans hsize⟩

theorem Above.not_mem {levels : Nat} {ancestors : Finset (RecordIdentifier × RecordIdentifier)}
    {tree : DecodedTree f} {pair : RecordIdentifier × RecordIdentifier}
    (h : Above provider ancestors tree) (hpair : Decodes provider levels pair.1 tree) :
    pair ∉ ancestors := by
  intro hmem
  obtain ⟨levels', above, habove, hsize⟩ := h pair hmem
  rw [hpair.unique habove] at hsize
  exact not_smaller_self _ hsize

/-- A pair emits the changes of its properties and what the pairs of its children emit. -/
theorem Emits.pair {differences : List (NodeDifference f)} {pairs : List DiffWork}
    (hne : before ≠ after) (hbefore : Decodes provider levels before tree)
    (habove : Above provider ancestors tree)
    (hvisit : visitPair toBits provider ⟨provider, before⟩ ⟨provider, after⟩ path =
      .ok (differences, pairs))
    (hpairs : Emits toBits provider pairs (insert (before, after) ancestors) others) :
    Emits toBits provider [.visit (some ⟨provider, before⟩) (some ⟨provider, after⟩) path] ancestors
      (differences ++ others) := by
  obtain ⟨steps, hsteps⟩ := hpairs
  refine ⟨1 + steps, fun stack visits emitted _ => ?_⟩
  by_cases hvisits : visits + 1 > maximumDiffVisits
  · rw [if_pos (by omega), List.singleton_append, diffWork]
    exact if_pos hvisits
  · have hmem : (before, after) ∉ ancestors := @Above.not_mem f provider levels ancestors tree (before, after) habove hbefore
    rw [List.singleton_append, diffWork]
    dsimp only
    rw [if_neg hvisits, if_neg hne, if_neg hmem, hvisit]
    dsimp only
    rw [hsteps _ _ _ (Nat.le_of_not_lt hvisits), Nat.add_assoc, List.append_assoc, diffWork,
      Finset.erase_insert hmem]

/-- The pairs of the children of the newer node emit the differences below it. -/
theorem Emits.children {levels' : Nat} {entries' : List (String × RecordIdentifier)}
    {children : List (String × DecodedTree f)}
    (hentries : List.Forall₂ (fun entry child => child.1 = entry.1 ∧
      Decodes provider levels entry.2 child.2) entries tree.children)
    (hnodup : (tree.children.map Prod.fst).Nodup)
    (hentries' : List.Forall₂ (fun entry child => child.1 = entry.1 ∧
      Decodes provider levels' entry.2 child.2) entries' children)
    (hpair : ∀ name older newer record record', tree.child name = some older →
      (name, newer) ∈ children → Decodes provider levels record older →
      Decodes provider levels' record' newer →
      Emits toBits provider [.visit (some ⟨provider, record⟩) (some ⟨provider, record'⟩)
        (diffChildPath path name)] ancestors
        ((differences PropertyState.name (SameProperty toBits provider) older newer).map
          (toDifference (diffChildPath path name)))) :
    Emits toBits provider
      (entries'.map fun child => DiffWork.visit
        (((entries.reverse.find? fun entry => entry.1 == child.1).map Prod.snd).map
          fun record => ⟨provider, record⟩)
        (some ⟨provider, child.2⟩) (diffChildPath path child.1))
      ancestors
      ((differencesBelow PropertyState.name (SameProperty toBits provider) tree children).map
        (toDifference path)) := by
  induction hentries' with
  | nil =>
    rw [differencesBelow]
    exact Emits.nil
  | @cons entry child entries' children hfirst _ ih =>
    obtain ⟨name, newer⟩ := child
    obtain ⟨rfl, hnewer⟩ := hfirst
    rw [differencesBelow, map_append, map_cons, ← List.singleton_append]
    refine Emits.append ?_ (ih fun name older newer record record' holder hmem =>
      hpair name older newer record record' holder (List.mem_cons_of_mem _ hmem))
    have hfind := find_entry hentries hnodup entry.1
    generalize (entries.reverse.find? fun other => other.1 == entry.1).map Prod.snd = found at hfind ⊢
    cases holder : tree.child entry.1 with
    | none =>
      rw [holder] at hfind
      cases hfind
      exact Emits.added
    | some older =>
      rw [holder] at hfind
      cases hfind with
      | @some record _ hdecodes =>
        dsimp only
        rw [map_map]
        exact hpair entry.1 older newer record entry.2 holder List.mem_cons_self hdecodes hnewer

/-- The children that only the older node has emit that they are gone. -/
theorem Emits.removedChildren {names : List String} {children : List (String × DecodedTree f)}
    (hentries : List.Forall₂ (fun entry child => child.1 = entry.1 ∧
      Decodes provider levels entry.2 child.2) entries children) :
    Emits toBits provider
      ((entries.filter fun child => child.1 ∉ names).map fun child =>
        DiffWork.visit (some ⟨provider, child.2⟩) none (diffChildPath path child.1))
      ancestors
      (((children.filter fun child => decide (child.1 ∉ names)).map fun child =>
        (([child.1], .nodeRemoved) : List String × Difference (PropertyState f))).map
          (toDifference path)) := by
  induction hentries with
  | nil => exact Emits.nil
  | @cons entry child entries children hfirst _ ih =>
    rw [List.filter_cons, List.filter_cons, hfirst.1]
    by_cases hname : entry.1 ∈ names
    · rw [if_neg (by simpa using hname), if_neg (by simpa using hname)]
      exact ih
    · rw [if_pos (by simpa using hname), if_pos (by simpa using hname), map_cons, map_cons,
        map_cons, hfirst.1]
      exact Emits.append Emits.removed ih

theorem agree_self :
    Agree PropertyState.name (SameProperty toBits provider) tree tree := by
  intro keys
  cases tree.at? keys with
  | none => exact .none
  | some node =>
    exact .some ⟨fun property hproperty => ⟨property, hproperty, rfl, .refl property⟩,
      fun property hproperty => ⟨property, hproperty, rfl, .refl property⟩⟩

/-- A pair emits the differences of its trees. -/
theorem emits_pair {levels levels' : Nat} {before after : RecordIdentifier}
    {older newer : DecodedTree f} (hbefore : Decodes provider levels before older)
    (hafter : Decodes provider levels' after newer) (holder : older.Distinct PropertyState.name)
    (hnewer : newer.Distinct PropertyState.name) {path : String}
    {ancestors : Finset (RecordIdentifier × RecordIdentifier)}
    (habove : Above provider ancestors older) :
    Emits toBits provider [.visit (some ⟨provider, before⟩) (some ⟨provider, after⟩) path] ancestors
      ((differences PropertyState.name (SameProperty toBits provider) older newer).map
        (toDifference path)) := by
  induction levels generalizing levels' before after older newer path ancestors with
  | zero => exact hbefore.elim
  | succ levels ih =>
    cases levels' with
    | zero => exact hafter.elim
    | succ levels' =>
      by_cases hne : before = after
      · -- an identical record decodes to one tree, which has no differences from itself
        obtain rfl := hne
        rw [← hbefore.unique hafter, (differences_eq_nil_iff holder holder).mpr agree_self]
        refine Emits.visit fun stack visits emitted hvisits => ?_
        rw [diffWork]
        dsimp only
        rw [if_neg (Nat.not_lt.mpr hvisits), if_pos rfl, List.map_nil, append_nil]
      · have hbelow : ∀ name below, older.child name = some below →
            Above provider (insert (before, after) ancestors) below := fun name below hchild =>
          Above.below habove hbefore (smaller_child hchild)
        have hdecodes := hbefore
        obtain ⟨properties, children⟩ := older
        obtain ⟨properties', children'⟩ := newer
        obtain ⟨hproperties, hreadable, entries, hentries, hchildren⟩ := hbefore
        obtain ⟨hproperties', hreadable', entries', hentries', hchildren'⟩ := hafter
        have hvisit : visitPair toBits provider ⟨provider, before⟩ ⟨provider, after⟩ path =
            .ok (((changes PropertyState.name (SameProperty toBits provider) properties
              properties').map toPropertyChange).map (.propertyChanged (displayDiffPath path)), _) :=
          bind_ok_iff.mpr ⟨_, diffProperties_spec hproperties hproperties'
            (storedProperties_of_readable hproperties hreadable)
            (storedProperties_of_readable hproperties' hreadable'),
            bind_ok_iff.mpr ⟨_, bind_ok_iff.mpr ⟨entries, hentries,
              bind_ok_iff.mpr ⟨entries', hentries', rfl⟩⟩, rfl⟩⟩
        have hchanges : ((changes PropertyState.name (SameProperty toBits provider) properties
            properties').map toPropertyChange).map (.propertyChanged (displayDiffPath path)) =
            ((changes PropertyState.name (SameProperty toBits provider) properties properties').map
              fun change => (([], .property change) : List String × Difference _)).map
              (toDifference path) := by
          rw [map_map, map_map]
          rfl
        rw [differences, map_append, map_append, KeyedTree.properties, ← hchanges,
          ← Related.map_keys hchildren']
        refine Emits.pair hne hdecodes habove hvisit
          (Emits.append (Emits.children hchildren (holder [] _ rfl).2 hchildren' ?_)
            (Emits.removedChildren hchildren))
        intro name older newer record record' hchild hmem holder' hnewer'
        exact ih holder' hnewer' (holder.below hchild) (hnewer.below (hnewer.child_iff.mpr hmem))
          (hbelow name older hchild)

/-- The outcome of a walk over two decoded trees: their differences, when the visits are within
the limit. -/
theorem diffNodes_outcome {levels levels' : Nat} {before after : RecordIdentifier}
    {older newer : DecodedTree f} (hbefore : Decodes provider levels before older)
    (hafter : Decodes provider levels' after newer) (holder : older.Distinct PropertyState.name)
    (hnewer : newer.Distinct PropertyState.name) (path : String) : ∃ steps, ∀ visits,
    diffNodes toBits provider (some ⟨provider, before⟩) (some ⟨provider, after⟩) path visits =
      some (if visits + steps ≤ maximumDiffVisits then
        .ok ((differences PropertyState.name (SameProperty toBits provider) older newer).map
          (toDifference path), visits + steps)
      else .error visitsError) := by
  have habove : Above provider ∅ older := fun pair hpair => absurd hpair (Finset.notMem_empty pair)
  obtain ⟨steps, hsteps⟩ := @emits_pair f toBits provider _ _ _ _ _ _ hbefore hafter holder hnewer
    path ∅ habove
  refine ⟨steps, fun visits => ?_⟩
  by_cases hvisits : visits ≤ maximumDiffVisits
  · have hrun := hsteps [] visits [] hvisits
    rw [append_nil, List.nil_append] at hrun
    rw [diffNodes, hrun]
    by_cases hend : visits + steps ≤ maximumDiffVisits
    · rw [if_neg (Nat.not_lt.mpr hend), if_pos hend, diffWork]
    · rw [if_pos (Nat.lt_of_not_le hend), if_neg hend]
  · rw [if_neg (by omega), diffNodes, diffWork]
    exact if_pos (by omega)

theorem visitsError_ne_cycleError (before after : RecordIdentifier) :
    visitsError ≠ cycleError before after := by
  intro h
  rw [visitsError, cycleError, Error.invalidFormat.injEq] at h
  have htext := congrArg (fun text => text.toList.head?) h
  have hvisits : (toString "diff exceeds ").toList.head? = some 'd' := by decide
  have hcycle : (toString "node records ").toList.head? = some 'n' := by decide
  simp [hvisits, hcycle] at htext

/-- A walk that ends well emits what a recursive comparison of the two decoded trees gives: each
once, what has become of the properties of the paths that both have, and the topmost paths that
only one has.  It emits nothing exactly when the trees agree, and it never takes a pair for one
below itself. -/
theorem diffNodes_exact {levels levels' : Nat} {before after : RecordIdentifier}
    {older newer : DecodedTree f} (hbefore : Decodes provider levels before older)
    (hafter : Decodes provider levels' after newer) (holder : older.Distinct PropertyState.name)
    (hnewer : newer.Distinct PropertyState.name) (path : String) :
    (∃ steps, ∀ visits, diffNodes toBits provider (some ⟨provider, before⟩)
        (some ⟨provider, after⟩) path visits =
      some (if visits + steps ≤ maximumDiffVisits then
        .ok ((differences PropertyState.name (SameProperty toBits provider) older newer).map
          (toDifference path), visits + steps)
      else .error visitsError)) ∧
    (∀ visits emitted visits', diffNodes toBits provider (some ⟨provider, before⟩)
        (some ⟨provider, after⟩) path visits = some (.ok (emitted, visits')) →
      emitted = (differences PropertyState.name (SameProperty toBits provider) older newer).map
        (toDifference path) ∧
      (emitted = [] ↔ Agree PropertyState.name (SameProperty toBits provider) older newer)) ∧
    (differences PropertyState.name (SameProperty toBits provider) older newer).Nodup ∧
    (∀ keys difference,
      (keys, difference) ∈ differences PropertyState.name (SameProperty toBits provider) older newer ↔
        Differs PropertyState.name (SameProperty toBits provider) older newer keys difference) ∧
    ∀ visits first second, diffNodes toBits provider (some ⟨provider, before⟩)
      (some ⟨provider, after⟩) path visits ≠ some (.error (cycleError first second)) := by
  have houtcome := @diffNodes_outcome f toBits provider _ _ _ _ _ _ hbefore hafter holder hnewer path
  refine ⟨houtcome, ?_, nodup_differences holder hnewer,
    fun keys difference => mem_differences holder hnewer, ?_⟩
  · obtain ⟨steps, hsteps⟩ := houtcome
    intro visits emitted visits' hemitted
    rw [hsteps] at hemitted
    split_ifs at hemitted
    · cases hemitted
      exact ⟨rfl, List.map_eq_nil_iff.trans (differences_eq_nil_iff holder hnewer)⟩
    · cases hemitted
  · obtain ⟨steps, hsteps⟩ := houtcome
    intro visits first second hcycle
    rw [hsteps] at hcycle
    split_ifs at hcycle
    · cases hcycle
    · exact visitsError_ne_cycleError first second (Except.error.inj (Option.some.inj hcycle))

end

/-- A data segment of the text `t`, a template without properties and one with that primary type,
and a node of each. -/
def twoNodesSegment : Bytes :=
  [0x30, 0x61, 0x4B, 12] ++ List.replicate 14 0 ++ [0, 0, 0, 5] ++ List.replicate 10 0 ++
    [0, 0, 0, 0, 4, 0, 3, 0xFF, 0xD4] ++ [0, 0, 0, 1, 6, 0, 3, 0xFF, 0xD8] ++
    [0, 0, 0, 2, 6, 0, 3, 0xFF, 0xDC] ++ [0, 0, 0, 3, 7, 0, 3, 0xFF, 0xE8] ++
    [0, 0, 0, 4, 7, 0, 3, 0xFF, 0xF4] ++
    [1, 116, 0, 0] ++ [0x20, 0, 0, 0] ++ [0xA0, 0, 0, 0, 0, 0, 0, 0, 0, 0, 0, 0] ++
    [0, 0, 0, 0, 0, 3] ++ [0, 0, 0, 0, 0, 1] ++ [0, 0, 0, 0, 0, 4] ++ [0, 0, 0, 0, 0, 2]

def twoNodes : SegmentProvider := fun identifier => do
  return ⟨← ParsedSegment.parse identifier twoNodesSegment, twoNodesSegment⟩

def twoNodesRecord (recordNumber : UInt32) : RecordIdentifier :=
  ⟨⟨0, 0xA000000000000000⟩, recordNumber⟩

def typeProperties (primaryType : Option String) : List (PropertyState oneDouble) :=
  primaryType.toList.map fun name => ⟨"jcr:primaryType", .name, .single (.name name)⟩

theorem decodes_leaf {provider : SegmentProvider} {record : RecordIdentifier}
    {primaryType : Option String}
    (htemplate : NodeState.template ⟨provider, record⟩ = .ok ⟨primaryType, [], .zero, []⟩)
    (hentries : NodeState.childNodeEntries ⟨provider, record⟩ = .ok []) :
    Decodes provider 1 record (.node (typeProperties primaryType) []) := by
  have hproperties : NodeState.properties oneDouble ⟨provider, record⟩ =
      .ok (typeProperties primaryType) := by
    refine bind_ok_iff.mpr ⟨_, htemplate, bind_ok_iff.mpr ⟨[], rfl, ?_⟩⟩
    refine congrArg Except.ok ?_
    rw [NodeState.synthesizedProperties, if_pos rfl, append_nil, append_nil]
    rfl
  refine ⟨hproperties, fun property hproperty value hvalue => ?_, [], hentries, .nil⟩
  obtain ⟨name, -, rfl⟩ := List.mem_map.mp hproperty
  rw [List.mem_singleton.mp hvalue]
  trivial

/-- Visiting two nodes without children leaves no pair to visit. -/
theorem visitPair_leaf {toBits : oneDouble.Double → UInt64} {provider : SegmentProvider}
    {before after : RecordIdentifier} {older newer : List (PropertyState oneDouble)}
    (hbefore : Decodes provider 1 before (.node older []))
    (hafter : Decodes provider 1 after (.node newer [])) (path : String) :
    ∃ emitted, visitPair toBits provider ⟨provider, before⟩ ⟨provider, after⟩ path =
      .ok (emitted, []) := by
  obtain ⟨hproperties, hreadable, entries, hentries, hchildren⟩ := hbefore
  obtain ⟨hproperties', hreadable', entries', hentries', hchildren'⟩ := hafter
  cases hchildren
  cases hchildren'
  exact ⟨_, bind_ok_iff.mpr ⟨_, diffProperties_spec hproperties hproperties'
    (storedProperties_of_readable hproperties hreadable)
    (storedProperties_of_readable hproperties' hreadable'),
    bind_ok_iff.mpr ⟨_, bind_ok_iff.mpr ⟨_, hentries, bind_ok_iff.mpr ⟨_, hentries', rfl⟩⟩, rfl⟩⟩⟩

theorem distinct_leaf (primaryType : Option String) :
    Distinct PropertyState.name (.node (typeProperties primaryType) [] : DecodedTree oneDouble) := by
  intro keys below hbelow
  cases keys with
  | nil =>
    cases hbelow
    cases primaryType with
    | none => exact ⟨List.nodup_nil, List.nodup_nil⟩
    | some name => exact ⟨List.nodup_singleton _, List.nodup_nil⟩
  | cons key keys => cases hbelow

/-- Two nodes that differ in a property. -/
theorem diffNodes_exact_twoNodes :
    @diffNodes oneDouble (fun _ => 0) twoNodes (some ⟨twoNodes, twoNodesRecord 3⟩)
        (some ⟨twoNodes, twoNodesRecord 4⟩) "" 0 =
      some (.ok ([.propertyChanged "/"
        (.added ⟨"jcr:primaryType", .name, .single (.name "t")⟩)], 1)) := by
  have hbefore : Decodes twoNodes 1 (twoNodesRecord 3) (.node (typeProperties none) []) :=
    decodes_leaf (by decide +kernel) (by decide +kernel)
  have hafter : Decodes twoNodes 1 (twoNodesRecord 4) (.node (typeProperties (some "t")) []) :=
    decodes_leaf (by decide +kernel) (by decide +kernel)
  obtain ⟨emitted, hvisit⟩ := @visitPair_leaf (fun _ => 0) _ _ _ _ _ hbefore hafter ""
  have hrun : @diffNodes oneDouble (fun _ => 0) twoNodes (some ⟨twoNodes, twoNodesRecord 3⟩)
      (some ⟨twoNodes, twoNodesRecord 4⟩) "" 0 = some (.ok (emitted, 1)) := by
    rw [diffNodes, diffWork]
    dsimp only
    rw [if_neg (by decide), if_neg (by decide), if_neg (Finset.notMem_empty _), hvisit]
    dsimp only
    rw [List.nil_append, diffWork, diffWork, List.nil_append]
  have hexact := (diffNodes_exact hbefore hafter (distinct_leaf none) (distinct_leaf (some "t"))
    "").2.1 0 emitted 1 hrun
  rw [hrun, hexact.1, differences, differencesBelow]
  rfl

end Froe
