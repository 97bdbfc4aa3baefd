import Froe.Content.ListEntries
import Froe.Tooling.DigestLines

/-!
# Digests of walks

A walk writes the lines of a tree, parents before children and children in the order of
their names (`walkExcluding_output`).  Read back, a digest has the properties of the last
node under each displayed path, and two digests do not differ exactly when these are
pairwise alike.
-/

namespace Froe

open Digesting (digestSteps)

open List (append_nil filter_nil mem_map)
open Except (bind_ok_iff)

open Separators

/-! ## Trees -/

inductive DigestTree where
  | node (properties : List DigestProperty) (children : List (String × DigestTree))

mutual

/-- The nodes of a tree with their paths, in the order of the lines. -/
def DigestTree.listing (path : String) : DigestTree → List (String × List DigestProperty)
  | .node properties children => (path, properties) :: listingOf path children

/-- The nodes of the trees below a path. -/
def listingOf (path : String) : List (String × DigestTree) → List (String × List DigestProperty)
  | [] => []
  | (name, tree) :: children => tree.listing (childPath path name) ++ listingOf path children

end

/-- The text of lines. -/
def digestText (nodes : List (String × List DigestProperty)) : String :=
  String.ofList (nodes.flatMap fun node => digestLine node.1 node.2 ++ ['\n'])

theorem digestText_append (nodes later : List (String × List DigestProperty)) :
    digestText (nodes ++ later) = digestText nodes ++ digestText later := by
  rw [← String.toList_inj, String.toList_append, digestText, digestText, digestText]
  simp only [String.toList_ofList, List.flatMap_append]

section

variable (f : FloatingPoint) (provider : SegmentProvider)
  (excludedPropertyPrefixes excludedPrefixes : List String)

/-- The children that a walk goes to. -/
def walkedEntries (path : String) (entries : List (String × RecordIdentifier)) :
    List (String × RecordIdentifier) :=
  (sortedEntries entries).filter fun entry => !excluded (childPath path entry.1) excludedPrefixes

/-- The tree below a node, without what is excluded and with a number of levels. -/
def Walks : Nat → NodeState → String → DigestTree → Prop
  | 0, _, _, _ => False
  | levels + 1, node, path, .node properties children =>
    DigestsNode f provider excludedPropertyPrefixes node properties ∧
      ∃ entries, node.childNodeEntries = .ok entries ∧
        List.Forall₂ (fun entry child => child.1 = entry.1 ∧
          Walks levels ⟨node.provider, entry.2⟩ (childPath path entry.1) child.2)
          (walkedEntries excludedPrefixes path entries) children

variable {f provider excludedPropertyPrefixes excludedPrefixes}

variable {node : NodeState} {path : String} {entries : List (String × RecordIdentifier)}
  {stack : List DigestStep} {state' : Digesting}

theorem Walks.mono {levels more : Nat} (hmore : levels ≤ more) {tree : DigestTree}
    (h : Walks f provider excludedPropertyPrefixes excludedPrefixes levels node path tree) :
    Walks f provider excludedPropertyPrefixes excludedPrefixes more node path tree := by
  induction levels generalizing more node path tree with
  | zero => exact h.elim
  | succ levels ih =>
    obtain ⟨more, rfl⟩ : ∃ later, more = later + 1 := ⟨more - 1, by omega⟩
    obtain ⟨properties, children⟩ := tree
    obtain ⟨hnode, entries, hentries, hchildren⟩ := h
    exact ⟨hnode, entries, hentries,
      hchildren.imp fun _ _ h => ⟨h.1, ih (by omega) h.2⟩⟩

variable (f provider excludedPropertyPrefixes excludedPrefixes)

/-- The lines of the visits on a stack. -/
inductive Pending : List DigestStep → List (String × List DigestProperty) → Prop
  | nil : Pending [] []
  | leave {stack nodes} (record : RecordIdentifier) (h : Pending stack nodes) :
      Pending (.leave record :: stack) nodes
  | visit {stack nodes levels node path tree}
      (walks : Walks f provider excludedPropertyPrefixes excludedPrefixes levels node path tree)
      (h : Pending stack nodes) :
      Pending (.visit node path :: stack) (tree.listing path ++ nodes)

variable {f provider excludedPropertyPrefixes excludedPrefixes}

/-- The lines of visits to children are those of the trees of the children. -/
theorem Pending.children {nodes : List (String × List DigestProperty)}
    (h : Pending f provider excludedPropertyPrefixes excludedPrefixes
      ((entries.map fun entry => DigestStep.visit ⟨node.provider, entry.2⟩ (childPath path entry.1)) ++
        stack) nodes) :
    ∃ levels children later, List.Forall₂ (fun entry child => child.1 = entry.1 ∧
        Walks f provider excludedPropertyPrefixes excludedPrefixes levels ⟨node.provider, entry.2⟩
          (childPath path entry.1) child.2) entries children ∧
      Pending f provider excludedPropertyPrefixes excludedPrefixes stack later ∧
      nodes = listingOf path children ++ later := by
  induction entries generalizing nodes with
  | nil => exact ⟨0, [], nodes, .nil, h, rfl⟩
  | cons entry entries ih =>
    cases h with
    | @visit _ nodes levels _ _ tree hwalks h =>
      obtain ⟨others, children, later, hchildren, hlater, rfl⟩ := ih h
      refine ⟨max levels others, (entry.1, tree) :: children, later,
        .cons ⟨rfl, hwalks.mono (le_max_left _ _)⟩
          (hchildren.imp fun _ _ h => ⟨h.1, h.2.mono (le_max_right _ _)⟩), hlater, ?_⟩
      rw [listingOf, List.append_assoc]

variable {equalValues : PropertyValues f → PropertyValues f → Bool}

/-- A visit writes the line of the node and returns the children in order. -/
theorem visitNode_spec {state : Digesting}
    (h : (visitNode f provider equalValues excludedPropertyPrefixes node path).run state =
      .ok (entries, state')) :
    ∃ digested stored, DigestsNode f provider excludedPropertyPrefixes node digested ∧
      node.childNodeEntries = .ok stored ∧ entries = sortedEntries stored ∧
      state'.output = state.output ++ digestText [(path, digested)] := by
  obtain ⟨⟨⟩, state₁, hemit, h⟩ := StateT.bind_ok_iff.mp h
  obtain ⟨stored, state₂, hstored, h⟩ := StateT.bind_ok_iff.mp h
  obtain ⟨hentries, rfl⟩ := StateT.lift_ok_iff.mp hstored
  obtain ⟨⟨⟩, state₃, hprobe, h⟩ := StateT.bind_ok_iff.mp h
  obtain ⟨rfl, rfl⟩ := StateT.pure_ok_iff.mp h
  obtain ⟨digested, hdigested, houtput⟩ := emitNode_output hemit
  refine ⟨digested, stored, hdigested, hentries, rfl, ?_⟩
  rw [forM_output (fun _ _ _ h => probeChild_output h) hprobe, houtput, digestText,
    List.flatMap_cons, List.flatMap_nil, append_nil]

/-- What steps write is the lines of the visits on the stack. -/
theorem digestSteps_output {ancestors : Finset RecordIdentifier} {state : Digesting}
    (h : digestSteps f provider equalValues excludedPropertyPrefixes excludedPrefixes stack ancestors
      state = some (.ok state')) :
    ∃ nodes, Pending f provider excludedPropertyPrefixes excludedPrefixes stack nodes ∧
      state'.output = state.output ++ digestText nodes := by
  refine Digesting.digestSteps.partial_correctness f provider equalValues excludedPropertyPrefixes
    excludedPrefixes (fun stack _ state result => ∀ state', result = .ok state' →
      ∃ nodes, Pending f provider excludedPropertyPrefixes excludedPrefixes stack nodes ∧
        state'.output = state.output ++ digestText nodes) ?_ stack ancestors state _ h state' rfl
  clear h
  intro steps ih stack ancestors state result h state' hresult
  subst hresult
  cases stack with
  | nil =>
    cases h
    refine ⟨[], .nil, ?_⟩
    exact (String.append_empty).symm
  | cons step stack =>
    cases step with
    | leave record =>
      obtain ⟨nodes, hpending, houtput⟩ := ih _ _ _ _ h state' rfl
      exact ⟨nodes, .leave record hpending, houtput⟩
    | visit node path =>
      dsimp only at h
      split at h
      · cases h
      · split at h
        · cases h
        · rename_i entries visited hvisit
          obtain ⟨nodes, hpending, houtput⟩ := ih _ _ _ _ h state' rfl
          obtain ⟨digested, stored, hdigested, hstored, rfl, hvisited⟩ := visitNode_spec hvisit
          obtain ⟨levels, children, later, hchildren, hlater, rfl⟩ := hpending.children
          cases hlater with
          | leave _ hlater =>
            have hwalks : Walks f provider excludedPropertyPrefixes excludedPrefixes (levels + 1) node
                path (.node digested children) := ⟨hdigested, stored, hstored, hchildren⟩
            refine ⟨_, .visit hwalks hlater, ?_⟩
            rw [houtput, hvisited, DigestTree.listing, List.cons_append, String.append_assoc,
              ← digestText_append]
            rfl

/-- A walk that ends has written the lines of a tree below the root. -/
theorem walkExcluding_output {root : NodeState} {rootPath : String} {state : Digesting}
    (h : walkExcluding f provider equalValues excludedPropertyPrefixes root rootPath
      excludedPrefixes state = some (.ok state')) :
    ∃ levels tree,
      Walks f provider excludedPropertyPrefixes excludedPrefixes levels root rootPath tree ∧
      state'.output = state.output ++ digestText (tree.listing rootPath) := by
  obtain ⟨nodes, hpending, houtput⟩ := digestSteps_output h
  cases hpending with
  | visit hwalks hrest =>
    cases hrest with
    | nil =>
      rw [append_nil] at houtput
      exact ⟨_, _, hwalks, houtput⟩

end

/-! ## Reading a digest -/

/-- The paths of the lines are those of a walk. -/
def CleanPaths (nodes : List (String × List DigestProperty)) : Prop :=
  ∀ node ∈ nodes, CleanPath node.1

mutual

theorem DigestTree.cleanPaths_listing {path : String} (hpath : CleanPath path) :
    ∀ tree : DigestTree, CleanPaths (tree.listing path)
  | .node properties children => by
    rw [DigestTree.listing]
    intro node hnode
    rcases List.mem_cons.mp hnode with rfl | hnode
    · exact hpath
    · exact cleanPaths_listingOf hpath children node hnode

theorem cleanPaths_listingOf {path : String} (hpath : CleanPath path) :
    ∀ children : List (String × DigestTree), CleanPaths (listingOf path children)
  | [] => by
    rw [listingOf]
    exact nofun
  | (name, tree) :: children => by
    rw [listingOf]
    intro node hnode
    rcases List.mem_append.mp hnode with hnode | hnode
    · exact DigestTree.cleanPaths_listing (hpath.child name) tree node hnode
    · exact cleanPaths_listingOf hpath children node hnode

end

theorem digestLine_clean {path : String} (hpath : CleanPath path)
    (properties : List DigestProperty) :
    ∀ c ∈ digestLine path properties, c ≠ '\n' ∧ c ≠ '\r' := by
  intro c hc
  have hnot : ¬ (c = '\n' ∨ c = '\r') := by
    intro hend
    have hreserved : IsReserved c := .inr (hend.imp_right .inl)
    rw [digestLine, List.mem_append] at hc
    rcases hc with hc | hc
    · exact hpath.display c hc hreserved
    · obtain ⟨piece, hpiece, hc⟩ := List.mem_flatMap.mp hc
      obtain ⟨p, -, rfl⟩ := mem_map.mp hpiece
      rcases List.mem_cons.mp hc with rfl | hc
      · revert hend
        decide
      · rw [segment_not_reserved hc hreserved] at hend
        revert hend
        decide
  exact not_or.mp hnot

theorem displayPath_ne_empty (path : String) : (displayPath path).toList ≠ [] := by
  rw [displayPath]
  split
  · decide
  · rename_i hpath
    intro hnil
    exact hpath (String.toList_eq_nil_iff.mp hnil)

variable {nodes : List (String × List DigestProperty)}

theorem textLines_digestText (hnodes : CleanPaths nodes) :
    textLines (digestText nodes).toList = nodes.map fun node => digestLine node.1 node.2 := by
  have hsplit : (digestText nodes).toList.splitOnP (· == '\n') =
      (nodes.map fun node => digestLine node.1 node.2) ++ [[]] := by
    rw [digestText, String.toList_ofList]
    induction nodes with
    | nil => rfl
    | cons node nodes ih =>
      have hclean : ∀ c ∈ digestLine node.1 node.2, (c == '\n') = false := fun c hc =>
        beq_eq_false_iff_ne.mpr (digestLine_clean (hnodes node List.mem_cons_self) node.2 c hc).1
      rw [List.flatMap_cons, List.append_assoc, List.singleton_append,
        List.splitOnP_append_cons_of_forall_mem hclean '\n' rfl,
        ih fun other hother => hnodes other (List.mem_cons_of_mem _ hother)]
      rfl
  rw [textLines, hsplit]
  simp only [List.getLast?_concat, Option.getD_some, if_pos, List.dropLast_concat, append_nil]
  rw [List.map_map]
  refine List.map_congr_left fun node hnode => ?_
  rw [Function.comp_apply, if_neg]
  intro hlast
  exact (digestLine_clean (hnodes node hnode) node.2 '\r' (List.mem_of_getLast? hlast)).2 rfl

/-- What a digest has behind the path of a line. -/
def propertiesText : List DigestProperty → List Char
  | [] => []
  | p :: ps => segment p ++ separated '\t' (ps.map segment)

theorem propertiesText_inj {ps qs : List DigestProperty} :
    propertiesText ps = propertiesText qs ↔ List.Forall₂ Alike ps qs := by
  have hsegments : ∀ ps : List DigestProperty, ∀ piece ∈ ps.map segment, '\t' ∉ piece := by
    intro ps piece hpiece
    obtain ⟨p, -, rfl⟩ := mem_map.mp hpiece
    exact tab_not_mem_segment p
  have hne : ∀ (p : DigestProperty) (ps : List DigestProperty), propertiesText (p :: ps) ≠ [] := by
    intro p ps hnil
    rw [propertiesText, List.append_eq_nil_iff, segment, List.append_eq_nil_iff] at hnil
    cases hnil.1.2
  cases ps with
  | nil =>
    cases qs with
    | nil => exact iff_of_true rfl .nil
    | cons q qs => exact iff_of_false (hne q qs).symm (by rintro ⟨⟩)
  | cons p ps =>
    cases qs with
    | nil => exact iff_of_false (hne p ps) (by rintro ⟨⟩)
    | cons q qs =>
      rw [propertiesText, propertiesText, append_separated_inj (tab_not_mem_segment p)
        (tab_not_mem_segment q) (hsegments ps) (hsegments qs), segment_eq_iff,
        map_segment_eq_iff, List.forall₂_cons]

theorem digestEntry_digestLine {path : String} (hpath : CleanPath path)
    (properties : List DigestProperty) :
    digestEntry (digestLine path properties) =
      ((displayPath path).toList, propertiesText properties) := by
  have htab : '\t' ∉ (displayPath path).toList := fun hc => hpath.display '\t' hc (.inl rfl)
  cases properties with
  | nil =>
    rw [digestLine, segments, List.map_nil, separated_nil, append_nil, digestEntry, splitOnce,
      if_neg (by simpa using htab)]
    rfl
  | cons p ps =>
    have hall : ∀ c ∈ (displayPath path).toList, decide (c ≠ '\t') = true := by
      intro c hc
      rw [decide_eq_true_eq]
      rintro rfl
      exact htab hc
    rw [digestLine, segments, List.map_cons, separated_cons, digestEntry, splitOnce,
      if_pos (by simp), List.takeWhile_append_of_pos hall, List.dropWhile_append_of_pos hall]
    simp [propertiesText]

/-- After some insertions a key stands for the last thing inserted under it. -/
theorem lookup_foldl_insert {α β : Type} [DecidableEq α] (entries : List (α × β)) (key : α) :
    (entries.foldl (fun map entry => map.insert entry.1 entry.2)
        (∅ : Finmap fun _ : α => β)).lookup key =
      ((entries.filter fun entry => entry.1 = key).getLast?).map Prod.snd := by
  induction entries using List.reverseRecOn with
  | nil => rfl
  | append_singleton entries entry ih =>
    rw [List.foldl_concat, List.filter_append]
    by_cases hkey : entry.1 = key
    · rw [← hkey, Finmap.lookup_insert, List.filter_cons_of_pos (by simp), filter_nil,
        List.getLast?_concat]
      rfl
    · rw [Finmap.lookup_insert_of_ne _ fun h => hkey h.symm, ih,
        List.filter_cons_of_neg (by simpa using hkey), filter_nil, append_nil]

/-- The last node under a displayed path. -/
def nodeAt (nodes : List (String × List DigestProperty)) (displayed : List Char) :
    Option (List DigestProperty) :=
  ((nodes.filter fun node => (displayPath node.1).toList = displayed).getLast?).map Prod.snd

/-- A digest read back has the last node under each path. -/
theorem lookup_parseDigest (hnodes : CleanPaths nodes) (displayed : List Char) :
    (parseDigest (digestText nodes)).lookup displayed =
      (nodeAt nodes displayed).map propertiesText := by
  have hfilter : (nodes.map fun node => digestLine node.1 node.2).filter (· ≠ []) =
      nodes.map fun node => digestLine node.1 node.2 := by
    refine List.filter_eq_self.mpr fun line hline => ?_
    obtain ⟨node, -, rfl⟩ := mem_map.mp hline
    rw [decide_eq_true_eq, digestLine]
    exact fun hnil => displayPath_ne_empty node.1 (List.append_eq_nil_iff.mp hnil).1
  have hentries : (nodes.map fun node => digestLine node.1 node.2).map digestEntry =
      nodes.map fun node => ((displayPath node.1).toList, propertiesText node.2) := by
    rw [List.map_map]
    exact List.map_congr_left fun node hnode => digestEntry_digestLine (hnodes node hnode) node.2
  rw [parseDigest, textLines_digestText hnodes, hfilter, hentries, lookup_foldl_insert,
    List.filter_map, List.getLast?_map, nodeAt, Option.map_map, Option.map_map]
  rfl

/-! ## Comparing digests -/

theorem sortedPaths_isEmpty {paths : Finset (List Char)} :
    (sortedPaths paths).isEmpty = true ↔ paths = ∅ := by
  rw [sortedPaths, List.isEmpty_iff, ← List.length_eq_zero_iff, Finset.length_sort,
    Finset.card_eq_zero, Finset.image_eq_empty]

/-- No difference is reported exactly when each path has the same properties. -/
theorem compareDigests_isEmpty {baseline current : String} :
    (compareDigests baseline current).isEmpty = true ↔
      ∀ path, (parseDigest baseline).lookup path = (parseDigest current).lookup path := by
  have hparts : (compareDigests baseline current).isEmpty = true ↔
      (parseDigest baseline).keys.filter (· ∉ parseDigest current) = ∅ ∧
        (parseDigest current).keys.filter (· ∉ parseDigest baseline) = ∅ ∧
        (parseDigest baseline).keys.filter (fun path => path ∈ parseDigest current ∧
          (parseDigest current).lookup path ≠ (parseDigest baseline).lookup path) = ∅ := by
    rw [DigestDifference.isEmpty, Bool.and_eq_true, Bool.and_eq_true, and_assoc]
    simp only [compareDigests]
    rw [sortedPaths_isEmpty, sortedPaths_isEmpty, sortedPaths_isEmpty]
  rw [hparts]
  simp only [Finset.filter_eq_empty_iff, Finmap.mem_keys]
  constructor
  · rintro ⟨hremoved, hadded, hchanged⟩ path
    by_cases hpath : path ∈ parseDigest baseline
    · have hcurrent := not_not.mp (hremoved hpath)
      by_contra hne
      exact hchanged hpath ⟨hcurrent, fun h => hne h.symm⟩
    · have hcurrent : path ∉ parseDigest current := fun h => hadded h hpath
      rw [Finmap.lookup_eq_none.mpr hpath, Finmap.lookup_eq_none.mpr hcurrent]
  · intro hsame
    have hmem : ∀ path, path ∈ parseDigest baseline ↔ path ∈ parseDigest current := by
      intro path
      rw [← Finmap.lookup_isSome, ← Finmap.lookup_isSome, hsame path]
    refine ⟨?_, ?_, ?_⟩
    · exact fun path hpath hnot => hnot ((hmem path).mp hpath)
    · exact fun path hpath hnot => hnot ((hmem path).mpr hpath)
    · exact fun path _ hchanged => hchanged.2 (hsame path).symm

/-- Under each displayed path both trees have a node or none has, and the properties of the last
nodes there are pairwise alike. -/
def AlikeListings (nodes nodes' : List (String × List DigestProperty)) : Prop :=
  ∀ displayed, Option.Rel (List.Forall₂ Alike) (nodeAt nodes displayed) (nodeAt nodes' displayed)

theorem compareDigests_digestText {nodes' : List (String × List DigestProperty)}
    (hnodes : CleanPaths nodes) (hnodes' : CleanPaths nodes') :
    (compareDigests (digestText nodes) (digestText nodes')).isEmpty = true ↔
      AlikeListings nodes nodes' := by
  rw [compareDigests_isEmpty, AlikeListings]
  refine forall_congr' fun displayed => ?_
  rw [lookup_parseDigest hnodes, lookup_parseDigest hnodes']
  cases nodeAt nodes displayed with
  | none =>
    cases nodeAt nodes' displayed with
    | none => exact iff_of_true rfl .none
    | some qs => exact iff_of_false nofun nofun
  | some ps =>
    cases nodeAt nodes' displayed with
    | none => exact iff_of_false nofun nofun
    | some qs =>
      rw [Option.map_some, Option.map_some, Option.some.injEq, propertiesText_inj]
      exact Option.rel_some_some.symm

/-! ## What digests tell apart -/

section

variable {f : FloatingPoint} {provider : SegmentProvider} {excludedPropertyPrefixes : List String}

theorem DigestsValue.unique {value : PropertyValue f} {a b : DigestValue}
    (ha : DigestsValue f provider value a) (hb : DigestsValue f provider value b) : a = b := by
  cases value with
  | binary binary =>
    cases binary with
    | inline length recordIdentifier =>
      obtain ⟨readBytes, checksum, hread, rfl⟩ := ha
      obtain ⟨readBytes', checksum', hread', rfl⟩ := hb
      cases hread.symm.trans hread'
      rfl
    | external blobIdentifier => exact Eq.trans ha hb.symm
  | _ => exact Eq.trans ha hb.symm

theorem DigestsProperty.unique {property : PropertyState f} {p q : DigestProperty}
    (hp : DigestsProperty f provider property p) (hq : DigestsProperty f provider property q) :
    p = q :=
  DigestProperty.ext (hp.name.trans hq.name.symm) (hp.propertyType.trans hq.propertyType.symm)
    (hp.multiple.trans hq.multiple.symm)
    (@Related.unique _ _ (DigestsValue f provider) (DigestsValue f provider)
      (fun _ _ _ h h' => h.unique h') _ _ _ hp.values hq.values)

theorem DigestsNode.unique {node : NodeState} {ps qs : List DigestProperty}
    (hp : DigestsNode f provider excludedPropertyPrefixes node ps)
    (hq : DigestsNode f provider excludedPropertyPrefixes node qs) : ps = qs := by
  obtain ⟨properties, hread, hps⟩ := hp
  obtain ⟨properties', hread', hqs⟩ := hq
  cases hread.symm.trans hread'
  exact Related.unique (fun _ _ _ h h' => h.unique h') hps hqs

/-- A walk has one tree. -/
theorem Walks.unique {excludedPrefixes : List String} {levels levels' : Nat} {node : NodeState}
    {path : String} {tree tree' : DigestTree}
    (h : Walks f provider excludedPropertyPrefixes excludedPrefixes levels node path tree)
    (h' : Walks f provider excludedPropertyPrefixes excludedPrefixes levels' node path tree') :
    tree = tree' := by
  induction levels generalizing levels' node path tree tree' with
  | zero => exact h.elim
  | succ levels ih =>
    cases levels' with
    | zero => exact h'.elim
    | succ levels' =>
      obtain ⟨properties, children⟩ := tree
      obtain ⟨properties', children'⟩ := tree'
      obtain ⟨hnode, entries, hentries, hchildren⟩ := h
      obtain ⟨hnode', entries', hentries', hchildren'⟩ := h'
      cases hentries.symm.trans hentries'
      rw [hnode.unique hnode']
      have hsame : children = children' := by
        refine Related.unique (fun entry child child' h h' => ?_) hchildren hchildren'
        exact Prod.ext (h.1.trans h'.1.symm) (ih h.2 h'.2)
      rw [hsame]

/-- Two nodes have one line and are not the same.  Their paths are equal or both displayed as a
slash, their properties are pairwise alike, and something differs. -/
def Confused (path : String) (ps : List DigestProperty) (path' : String)
    (qs : List DigestProperty) : Prop :=
  (path = path' ∨ path = "" ∧ path' = "/" ∨ path = "/" ∧ path' = "") ∧
    List.Forall₂ Alike ps qs ∧ ¬ (path = path' ∧ ps = qs)

theorem escape_eq_iff {text plain : String} (hplain : escaped plain = plain.toList) :
    escape text = plain ↔ text = plain := by
  rw [← String.toList_inj, toList_escape, ← hplain, escaped_inj]

/-- Which paths are displayed in the same way. -/
theorem displayPath_escape_inj {path path' : String} :
    displayPath (escape path) = displayPath (escape path') ↔
      path = path' ∨ path = "" ∧ path' = "/" ∨ path = "/" ∧ path' = "" := by
  have hempty : ∀ path, escape path = "" ↔ path = "" := fun _ => escape_eq_iff rfl
  have hslash : ∀ path, escape path = "/" ↔ path = "/" := fun _ => escape_eq_iff (by decide)
  have hinj : escape path = escape path' ↔ path = path' := by
    rw [← String.toList_inj, toList_escape, toList_escape, escaped_inj]
  rw [displayPath, displayPath]
  simp only [hempty]
  split
  · rename_i h
    split
    · rename_i h'
      simp [h, h']
    · rename_i h'
      rw [eq_comm, hslash]
      subst h
      simp [Ne.symm h']
  · rename_i h
    split
    · rename_i h'
      rw [hslash]
      subst h'
      simp [h]
    · rename_i h'
      rw [hinj]
      simp [h, h']

theorem Alike.refl (p : DigestProperty) : Alike p p := .inl rfl

theorem alikeListings_refl (nodes : List (String × List DigestProperty)) :
    AlikeListings nodes nodes := by
  intro displayed
  cases nodeAt nodes displayed with
  | none => exact .none
  | some ps => exact .some (List.forall₂_same.mpr fun p _ => Alike.refl p)

variable {provider' : SegmentProvider} {equalValues : PropertyValues f → PropertyValues f → Bool}
  {excludedPrefixes : List String}

theorem iff_iff_not {P Q : Prop} (h : Q → P) : (P ↔ Q) ↔ ¬ (P ∧ ¬ Q) := by
  constructor
  · rintro hiff ⟨hP, hQ⟩
    exact hQ (hiff.mp hP)
  · exact fun hnot => ⟨fun hP => not_not.mp fun hQ => hnot ⟨hP, hQ⟩, h⟩

/-- The lines of two nodes tell them apart unless the nodes are confused, and two digests tell the
walked trees apart unless the trees differ and have alike nodes under each displayed path. -/
theorem digests_tell_apart_iff :
    (∀ (node node' : NodeState) (path path' : String) (ps qs : List DigestProperty)
      (state state' after after' : Digesting),
      (emitNode f provider equalValues excludedPropertyPrefixes node (escape path)).run state =
        .ok ((), after) →
      (emitNode f provider' equalValues excludedPropertyPrefixes node' (escape path')).run state' =
        .ok ((), after') →
      DigestsNode f provider excludedPropertyPrefixes node ps →
      DigestsNode f provider' excludedPropertyPrefixes node' qs →
      ∃ line line', after.output = state.output ++ line ∧ after'.output = state'.output ++ line' ∧
        ((line = line' ↔ path = path' ∧ ps = qs) ↔ ¬ Confused path ps path' qs)) ∧
    ∀ (root root' : NodeState) (rootPath : String) (levels levels' : Nat)
      (tree tree' : DigestTree) (digest digest' : Digesting),
      walkExcluding f provider equalValues excludedPropertyPrefixes root (escape rootPath)
        excludedPrefixes ⟨"", .empty⟩ = some (.ok digest) →
      walkExcluding f provider' equalValues excludedPropertyPrefixes root' (escape rootPath)
        excludedPrefixes ⟨"", .empty⟩ = some (.ok digest') →
      Walks f provider excludedPropertyPrefixes excludedPrefixes levels root (escape rootPath)
        tree →
      Walks f provider' excludedPropertyPrefixes excludedPrefixes levels' root' (escape rootPath)
        tree' →
      (((compareDigests digest.output digest'.output).isEmpty = true ↔ tree = tree') ↔
        ¬ (tree ≠ tree' ∧
          AlikeListings (tree.listing (escape rootPath)) (tree'.listing (escape rootPath)))) := by
  constructor
  · intro node node' path path' ps qs state state' after after' hafter hafter' hps hqs
    obtain ⟨digested, hdigested, houtput⟩ := emitNode_output hafter
    obtain ⟨digested', hdigested', houtput'⟩ := emitNode_output hafter'
    obtain rfl := hdigested.unique hps
    obtain rfl := hdigested'.unique hqs
    refine ⟨_, _, houtput, houtput', ?_⟩
    have hline : String.ofList (digestLine (escape path) digested ++ ['\n']) =
        String.ofList (digestLine (escape path') digested' ++ ['\n']) ↔
        (path = path' ∨ path = "" ∧ path' = "/" ∨ path = "/" ∧ path' = "") ∧
          List.Forall₂ Alike digested digested' := by
      rw [← String.toList_inj, String.toList_ofList, String.toList_ofList, List.append_left_inj,
        digestLine_inj (cleanPath_escape path) (cleanPath_escape path'), displayPath_escape_inj]
    have hsame : path = path' ∧ digested = digested' →
        (path = path' ∨ path = "" ∧ path' = "/" ∨ path = "/" ∧ path' = "") ∧
          List.Forall₂ Alike digested digested' := by
      rintro ⟨rfl, rfl⟩
      exact ⟨.inl rfl, List.forall₂_same.mpr fun p _ => Alike.refl p⟩
    rw [hline, Confused, ← and_assoc]
    exact iff_iff_not hsame
  · intro root root' rootPath levels levels' tree tree' digest digest' hdigest hdigest' htree htree'
    obtain ⟨levels₁, walked, hwalked, houtput⟩ := walkExcluding_output hdigest
    obtain ⟨levels₂, walked', hwalked', houtput'⟩ := walkExcluding_output hdigest'
    obtain rfl := hwalked.unique htree
    obtain rfl := hwalked'.unique htree'
    have hclean : CleanPath (escape rootPath) := cleanPath_escape rootPath
    rw [String.empty_append] at houtput houtput'
    rw [houtput, houtput', compareDigests_digestText (walked.cleanPaths_listing hclean)
      (walked'.cleanPaths_listing hclean)]
    have hsame : walked = walked' → AlikeListings (walked.listing (escape rootPath))
        (walked'.listing (escape rootPath)) := by
      rintro rfl
      exact alikeListings_refl _
    rw [and_comm]
    exact iff_iff_not hsame

end

/-! ## An empty array and an array of an empty text -/

/-- A data segment of the name `t`, a template of one array of texts of that name, an array
without values, and a node with the array. -/
def emptyArraySegment : Bytes :=
  [0x30, 0x61, 0x4B, 12] ++ List.replicate 14 0 ++ [0, 0, 0, 4] ++ List.replicate 10 0 ++
    [0, 0, 0, 0, 4, 0, 3, 0xFF, 0xD8] ++ [0, 0, 0, 1, 6, 0, 3, 0xFF, 0xDC] ++
    [0, 0, 0, 2, 3, 0, 3, 0xFF, 0xE8] ++ [0, 0, 0, 3, 7, 0, 3, 0xFF, 0xEC] ++
    [1, 116, 0, 0] ++ [0x20, 0, 0, 1] ++ [0, 0, 0, 0, 0, 0] ++ [0xFF, 0] ++ [0, 0, 0, 0] ++
    [0, 0, 0, 0, 0, 3] ++ [0, 0, 0, 0, 0, 1] ++ [0, 0, 0, 0, 0, 2] ++ [0, 0]

def emptyTextSegment : Bytes :=
  [0x30, 0x61, 0x4B, 12] ++ List.replicate 14 0 ++ [0, 0, 0, 5] ++ List.replicate 10 0 ++
    [0, 0, 0, 0, 4, 0, 3, 0xFF, 0xCC] ++ [0, 0, 0, 1, 6, 0, 3, 0xFF, 0xD0] ++
    [0, 0, 0, 2, 3, 0, 3, 0xFF, 0xDC] ++ [0, 0, 0, 3, 7, 0, 3, 0xFF, 0xE8] ++
    [0, 0, 0, 4, 4, 0, 3, 0xFF, 0xFC] ++
    [1, 116, 0, 0] ++ [0x20, 0, 0, 1] ++ [0, 0, 0, 0, 0, 0] ++ [0xFF, 0] ++
    [0, 0, 0, 1] ++ [0, 0, 0, 0, 0, 4] ++ [0, 0] ++
    [0, 0, 0, 0, 0, 3] ++ [0, 0, 0, 0, 0, 1] ++ [0, 0, 0, 0, 0, 2] ++ [0, 0] ++ [0, 0, 0, 0]

/-- The node of a segment that has the property `t`. -/
def arrayNode (segment : Bytes) : NodeState where
  provider identifier := do return ⟨← ParsedSegment.parse identifier segment, segment⟩
  recordIdentifier := ⟨⟨0, 0xA000000000000000⟩, 3⟩

theorem emptyArray_properties :
    (arrayNode emptyArraySegment).properties oneDouble =
      .ok [⟨"t", .string, .multiple []⟩] := by
  have htemplate : (arrayNode emptyArraySegment).template =
      .ok ⟨none, [], .zero, [⟨"t", .string, true⟩]⟩ := by decide +kernel
  have hlist : (arrayNode emptyArraySegment).propertyListIdentifier
      ⟨none, [], .zero, [⟨"t", .string, true⟩]⟩ = .ok ⟨⟨0, 0xA000000000000000⟩, 2⟩ := by
    decide +kernel
  have hcounted : readCountedList (arrayNode emptyArraySegment).provider
      ⟨⟨0, 0xA000000000000000⟩, 2⟩ = .ok ⟨0, none⟩ := by decide +kernel
  have hproperty : (arrayNode emptyArraySegment).propertyFromValue oneDouble ⟨"t", .string, true⟩
      ⟨⟨0, 0xA000000000000000⟩, 2⟩ = .ok ⟨"t", .string, .multiple []⟩ :=
    bind_ok_iff.mpr ⟨_, hcounted, rfl⟩
  have hstored : (arrayNode emptyArraySegment).storedPropertyStates oneDouble
      ⟨none, [], .zero, [⟨"t", .string, true⟩]⟩ = .ok [⟨"t", .string, .multiple []⟩] := by
    refine bind_ok_iff.mpr ⟨_, hlist, bind_ok_iff.mpr ⟨_, collectEntries_one, ?_⟩⟩
    exact Except.mapM_cons_ok_iff.mpr ⟨_, [], hproperty, rfl, rfl⟩
  exact bind_ok_iff.mpr ⟨_, htemplate, bind_ok_iff.mpr ⟨_, hstored, rfl⟩⟩

theorem emptyText_properties :
    (arrayNode emptyTextSegment).properties oneDouble =
      .ok [⟨"t", .string, .multiple [.string ""]⟩] := by
  have htemplate : (arrayNode emptyTextSegment).template =
      .ok ⟨none, [], .zero, [⟨"t", .string, true⟩]⟩ := by decide +kernel
  have hlist : (arrayNode emptyTextSegment).propertyListIdentifier
      ⟨none, [], .zero, [⟨"t", .string, true⟩]⟩ = .ok ⟨⟨0, 0xA000000000000000⟩, 2⟩ := by
    decide +kernel
  have hcounted : readCountedList (arrayNode emptyTextSegment).provider
      ⟨⟨0, 0xA000000000000000⟩, 2⟩ = .ok ⟨1, some ⟨⟨0, 0xA000000000000000⟩, 4⟩⟩ := by
    decide +kernel
  have htext : readString (arrayNode emptyTextSegment).provider
      ⟨⟨0, 0xA000000000000000⟩, 4⟩ = .ok "" := by decide +kernel
  have hvalue : readPropertyValue oneDouble (arrayNode emptyTextSegment).provider
      ⟨⟨0, 0xA000000000000000⟩, 4⟩ .string = .ok (.string "") :=
    bind_ok_iff.mpr ⟨_, htext, rfl⟩
  have hproperty : (arrayNode emptyTextSegment).propertyFromValue oneDouble ⟨"t", .string, true⟩
      ⟨⟨0, 0xA000000000000000⟩, 2⟩ = .ok ⟨"t", .string, .multiple [.string ""]⟩ := by
    refine bind_ok_iff.mpr ⟨_, hcounted, bind_ok_iff.mpr ⟨_, collectEntries_one, ?_⟩⟩
    exact bind_ok_iff.mpr
      ⟨[.string ""], Except.mapM_cons_ok_iff.mpr ⟨_, [], hvalue, rfl, rfl⟩, rfl⟩
  have hstored : (arrayNode emptyTextSegment).storedPropertyStates oneDouble
      ⟨none, [], .zero, [⟨"t", .string, true⟩]⟩ = .ok [⟨"t", .string, .multiple [.string ""]⟩] := by
    refine bind_ok_iff.mpr ⟨_, hlist, bind_ok_iff.mpr ⟨_, collectEntries_one, ?_⟩⟩
    exact Except.mapM_cons_ok_iff.mpr ⟨_, [], hproperty, rfl, rfl⟩
  exact bind_ok_iff.mpr ⟨_, htemplate, bind_ok_iff.mpr ⟨_, hstored, rfl⟩⟩

/-- The array `t` of a node as a digest compares it. -/
def arrayProperty (texts : List String) : DigestProperty where
  name := "t"
  propertyType := .string
  multiple := true
  values := texts.map .text
  typed := by
    intro value hvalue
    obtain ⟨text, -, rfl⟩ := List.mem_map.mp hvalue
    exact nofun

theorem digestsNode_emptyArray :
    DigestsNode oneDouble (arrayNode emptyArraySegment).provider [] (arrayNode emptyArraySegment)
      [arrayProperty []] := by
  refine ⟨_, emptyArray_properties, ?_⟩
  rw [digestedProperties, List.filter_cons_of_pos (by rfl), filter_nil,
    List.mergeSort_singleton]
  exact .cons ⟨rfl, rfl, rfl, .nil⟩ .nil

theorem digestsNode_emptyText :
    DigestsNode oneDouble (arrayNode emptyTextSegment).provider [] (arrayNode emptyTextSegment)
      [arrayProperty [""]] := by
  refine ⟨_, emptyText_properties, ?_⟩
  rw [digestedProperties, List.filter_cons_of_pos (by rfl), filter_nil,
    List.mergeSort_singleton]
  exact .cons ⟨rfl, rfl, rfl, .cons rfl .nil⟩ .nil

/-- What is written of the node of a segment. -/
theorem emitNode_array {segment : Bytes} {text : String}
    (h : (((emitNode oneDouble (arrayNode segment).provider (fun _ _ => true) [] (arrayNode segment)
      (escape "/a")).run ⟨"", .empty⟩).toOption.map fun after => after.2.output) = some text) :
    ∃ after, (emitNode oneDouble (arrayNode segment).provider (fun _ _ => true) []
      (arrayNode segment) (escape "/a")).run ⟨"", .empty⟩ = .ok ((), after) ∧
        after.output = text := by
  revert h
  cases (emitNode oneDouble (arrayNode segment).provider (fun _ _ => true) [] (arrayNode segment)
    (escape "/a")).run ⟨"", .empty⟩ with
  | error error => exact nofun
  | ok result => exact fun h => ⟨result.2, rfl, Option.some.inj h⟩

theorem emitNode_emptyArray :
    ∃ after, (emitNode oneDouble (arrayNode emptyArraySegment).provider (fun _ _ => true) []
      (arrayNode emptyArraySegment) (escape "/a")).run ⟨"", .empty⟩ = .ok ((), after) ∧
        after.output = "/a\tt=String[]:\n" :=
  emitNode_array (by decide +kernel)

theorem emitNode_emptyText :
    ∃ after, (emitNode oneDouble (arrayNode emptyTextSegment).provider (fun _ _ => true) []
      (arrayNode emptyTextSegment) (escape "/a")).run ⟨"", .empty⟩ = .ok ((), after) ∧
        after.output = "/a\tt=String[]:\n" :=
  emitNode_array (by decide +kernel)

/-- An array without values and an array of an empty text are written in the same way. -/
theorem lines_not_injective :
    ¬ ∀ (f : FloatingPoint) (provider provider' : SegmentProvider)
      (equalValues : PropertyValues f → PropertyValues f → Bool)
      (excludedPropertyPrefixes : List String) (node node' : NodeState) (path path' : String)
      (ps qs : List DigestProperty) (after after' : Digesting),
      (emitNode f provider equalValues excludedPropertyPrefixes node (escape path)).run
        ⟨"", .empty⟩ = .ok ((), after) →
      (emitNode f provider' equalValues excludedPropertyPrefixes node' (escape path')).run
        ⟨"", .empty⟩ = .ok ((), after') →
      DigestsNode f provider excludedPropertyPrefixes node ps →
      DigestsNode f provider' excludedPropertyPrefixes node' qs →
      (after.output = after'.output ↔ path = path' ∧ ps = qs) := by
  intro h
  obtain ⟨after, hafter, houtput⟩ := emitNode_emptyArray
  obtain ⟨after', hafter', houtput'⟩ := emitNode_emptyText
  have hsame := (h _ _ _ _ _ _ _ _ _ _ _ _ _ hafter hafter' digestsNode_emptyArray
    digestsNode_emptyText).mp (houtput.trans houtput'.symm)
  have htexts := congrArg (List.map fun p => p.values.length) hsame.2
  revert htexts
  decide

section

variable {segment : Bytes} (hentries : (arrayNode segment).childNodeEntries = .ok [])
include hentries

/-- A walk from a node without children writes its line. -/
theorem walkExcluding_array {after : Digesting}
    (hafter : (emitNode oneDouble (arrayNode segment).provider (fun _ _ => true) []
      (arrayNode segment) (escape "/a")).run ⟨"", .empty⟩ = .ok ((), after)) :
    walkExcluding oneDouble (arrayNode segment).provider (fun _ _ => true) [] (arrayNode segment)
      (escape "/a") [] ⟨"", .empty⟩ = some (.ok after) := by
  have hlift : (liftM (arrayNode segment).childNodeEntries :
      DigestM (List (String × RecordIdentifier))).run after = .ok ([], after) :=
    StateT.lift_ok_iff.mpr ⟨hentries, rfl⟩
  have hsorted : sortedEntries [] = [] := List.mergeSort_nil
  have hvisit : (visitNode oneDouble (arrayNode segment).provider (fun _ _ => true) []
      (arrayNode segment) (escape "/a")).run ⟨"", .empty⟩ = .ok ([], after) := by
    refine StateT.bind_ok_iff.mpr ⟨(), after, hafter, StateT.bind_ok_iff.mpr ⟨[], after, hlift, ?_⟩⟩
    rw [hsorted]
    rfl
  rw [walkExcluding, digestSteps]
  simp only [Finset.notMem_empty, if_false, hvisit]
  change digestSteps oneDouble (arrayNode segment).provider (fun _ _ => true) [] []
    [.leave (arrayNode segment).recordIdentifier] _ after = _
  rw [digestSteps, digestSteps]

theorem walks_array {properties : List DigestProperty}
    (hproperties : DigestsNode oneDouble (arrayNode segment).provider [] (arrayNode segment)
      properties) :
    Walks oneDouble (arrayNode segment).provider [] [] 1 (arrayNode segment) (escape "/a")
      (.node properties []) := by
  refine ⟨hproperties, [], hentries, ?_⟩
  rw [walkedEntries, sortedEntries, List.mergeSort_nil]
  exact .nil

end

/-- The two nodes and the walks from them. -/
theorem digests_tell_apart_iff_arrays :
    ∃ (after after' : Digesting) (line line' : String), after.output = "" ++ line ∧ after'.output = "" ++ line' ∧
      ((line = line' ↔ "/a" = "/a" ∧ [arrayProperty []] = [arrayProperty [""]]) ↔
        ¬ Confused "/a" [arrayProperty []] "/a" [arrayProperty [""]]) ∧
      (((compareDigests after.output after'.output).isEmpty = true ↔
          DigestTree.node [arrayProperty []] [] = .node [arrayProperty [""]] []) ↔
        ¬ (DigestTree.node [arrayProperty []] [] ≠ .node [arrayProperty [""]] [] ∧
          AlikeListings ((DigestTree.node [arrayProperty []] []).listing (escape "/a"))
            ((DigestTree.node [arrayProperty [""]] []).listing (escape "/a")))) := by
  obtain ⟨after, hafter, -⟩ := emitNode_emptyArray
  obtain ⟨after', hafter', -⟩ := emitNode_emptyText
  have hentries : (arrayNode emptyArraySegment).childNodeEntries = .ok [] := by decide +kernel
  have hentries' : (arrayNode emptyTextSegment).childNodeEntries = .ok [] := by decide +kernel
  have happart := @digests_tell_apart_iff oneDouble (arrayNode emptyArraySegment).provider []
    (arrayNode emptyTextSegment).provider (fun _ _ => true) []
  obtain ⟨line, line', hline, hline', hlines⟩ := happart.1 _ _ _ _ _ _ _ _ _ _
    hafter hafter' digestsNode_emptyArray digestsNode_emptyText
  refine ⟨after, after', line, line', hline, hline', hlines, ?_⟩
  exact happart.2 _ _ "/a" 1 1 _ _ _ _ (walkExcluding_array hentries hafter)
    (walkExcluding_array hentries' hafter')
    (walks_array hentries digestsNode_emptyArray) (walks_array hentries' digestsNode_emptyText)

end Froe
