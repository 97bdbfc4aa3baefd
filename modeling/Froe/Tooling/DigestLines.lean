import Froe.Content.PropertyTypes
import Froe.Lib.Related
import Froe.Tooling.DigestGrammar

/-!
# Lines of digests

A line is the displayed path of a node and its properties, and two nodes have one line
exactly when their displayed paths agree and their properties are pairwise alike
(`digestLine_inj`).  `emitNode_output` says that this is the line that is written.
-/

namespace Froe

open List (mem_append mem_cons)
open StateT (bind_ok_iff lift_ok_iff pure_ok_iff)

open Separators

/-! ## One line -/

/-- The properties of a line, each behind a tab. -/
def segments (properties : List DigestProperty) : List Char :=
  separated '\t' (properties.map segment)

/-- The line of a node, without its end. -/
def digestLine (path : String) (properties : List DigestProperty) : List Char :=
  (displayPath path).toList ++ segments properties

/-- A path as the walk builds it has no reserved characters. -/
def CleanPath (path : String) : Prop := ∀ c ∈ path.toList, ¬ IsReserved c

theorem cleanPath_escape (text : String) : CleanPath (escape text) := by
  intro c hc
  rw [toList_escape] at hc
  exact escaped_not_reserved hc

theorem CleanPath.child {path : String} (h : CleanPath path) (name : String) :
    CleanPath (childPath path name) := by
  intro c hc
  rw [childPath, String.toList_append, String.toList_append, mem_append, mem_append] at hc
  rcases hc with (hc | hc) | hc
  · exact h c hc
  · have hslash : ∀ c ∈ "/".toList, ¬ IsReserved c :=
      List.all_iff_forall_prop.mp (by decide)
    exact hslash c hc
  · exact cleanPath_escape name c hc

theorem CleanPath.display {path : String} (h : CleanPath path) : CleanPath (displayPath path) := by
  rw [displayPath]
  split
  · have hslash : ∀ c ∈ "/".toList, ¬ IsReserved c :=
      List.all_iff_forall_prop.mp (by decide)
    exact hslash
  · exact h

/-- A segment has the separator of values, and no other reserved character. -/
theorem segment_not_reserved {p : DigestProperty} {c : Char} (hc : c ∈ segment p)
    (hreserved : IsReserved c) : c = valueSeparator := by
  have hmarker : ¬ IsReserved c → False := fun h => h hreserved
  rw [segment, mem_append, mem_cons, mem_append, mem_cons] at hc
  rcases hc with hc | rfl | hc | rfl | hc
  · exact absurd hreserved (escaped_not_reserved hc)
  · exact absurd hreserved (by decide)
  · rw [DigestProperty.mark, ← escaped_marker] at hc
    exact absurd hreserved (escaped_not_reserved hc)
  · exact absurd hreserved (by decide)
  · cases htexts : p.texts with
    | nil =>
      rw [htexts] at hc
      cases hc
    | cons text texts =>
      rw [htexts, joined_cons, mem_append] at hc
      rcases hc with hc | hc
      · exact absurd hreserved (escaped_not_reserved hc)
      · obtain ⟨piece, hpiece, hc⟩ := List.mem_flatMap.mp hc
        rcases mem_cons.mp hc with rfl | hc
        · rfl
        · obtain ⟨other, -, rfl⟩ := List.mem_map.mp hpiece
          exact absurd hreserved (escaped_not_reserved hc)

theorem tab_not_mem_segment (p : DigestProperty) : '\t' ∉ segment p :=
  fun h => absurd (segment_not_reserved h (.inl rfl)) (by decide)

variable {ps qs : List DigestProperty}

theorem map_segment_eq_iff :
    ps.map segment = qs.map segment ↔ List.Forall₂ Alike ps qs := by
  induction ps generalizing qs with
  | nil => simp [eq_comm]
  | cons p ps ih =>
    cases qs with
    | nil => simp
    | cons q qs =>
      rw [List.map_cons, List.map_cons, List.cons.injEq, segment_eq_iff, ih, List.forall₂_cons]

/-- Which nodes have one line. -/
theorem digestLine_inj {path path' : String} (hpath : CleanPath path) (hpath' : CleanPath path') :
    digestLine path ps = digestLine path' qs ↔
      displayPath path = displayPath path' ∧ List.Forall₂ Alike ps qs := by
  have htab : ∀ path, CleanPath path → '\t' ∉ (displayPath path).toList :=
    fun path h hc => h.display '\t' hc (.inl rfl)
  have hsegments : ∀ ps : List DigestProperty, ∀ piece ∈ ps.map segment, '\t' ∉ piece := by
    intro ps piece hpiece
    obtain ⟨p, -, rfl⟩ := List.mem_map.mp hpiece
    exact tab_not_mem_segment p
  rw [digestLine, digestLine, segments, segments, append_separated_inj (htab path hpath)
    (htab path' hpath') (hsegments ps) (hsegments qs), String.toList_inj, map_segment_eq_iff]

/-! ## Texts of numbers -/

/-- The sign and the digits determine an integer. -/
theorem decimalBytes_inj {n m : Int} (h : decimalBytes n = decimalBytes m) : n = m := by
  have hminus : ∀ n, (45 : UInt8) ∉ Digits.padded 10 1 n := fun n =>
    Digits.not_mem_padded (by decide) (by decide) (by decide)
  rw [decimalBytes, decimalBytes] at h
  split at h
  · split at h
    · have := Digits.padded_inj (by decide) (by decide) (List.cons.inj h).2
      omega
    · exact absurd (h ▸ List.mem_cons_self) (hminus _)
  · split at h
    · exact absurd (h ▸ List.mem_cons_self) (hminus _)
    · have := Digits.padded_inj (by decide) (by decide) h
      omega

theorem decimalBytes_ascii (n : Int) : ∀ x ∈ decimalBytes n, x.toNat < 128 := by
  intro x hx
  rw [decimalBytes] at hx
  split at hx
  · rcases mem_cons.mp hx with rfl | hx
    · decide
    · exact Digits.fixed_ascii (by decide) (by decide) hx
  · exact Digits.fixed_ascii (by decide) (by decide) hx

/-- The text of a long is that of no other one. -/
theorem longToText_inj {a b : Int64} (h : longToText a = longToText b) : a = b := by
  have hbytes := congrArg String.utf8 h
  rw [longToText, longToText, Utf8.utf8_ascii (decimalBytes_ascii _),
    Utf8.utf8_ascii (decimalBytes_ascii _)] at hbytes
  exact Int64.toInt_inj.mp (decimalBytes_inj hbytes)

/-! ## What is written -/

section

variable (f : FloatingPoint) (provider : SegmentProvider)

def DigestsValue : PropertyValue f → DigestValue → Prop
  | .binary (.inline length recordIdentifier), value =>
    ∃ readBytes checksum, foldInlineBinary provider recordIdentifier = .ok (readBytes, checksum) ∧
      value = .inline length readBytes checksum
  | .binary (.external blobIdentifier), value => value = .external blobIdentifier
  | other, value => value = .text (other.asText.getD "")

/-- The text of a truth value is that of no other one. -/
theorem asText_boolean_inj {a b : Bool}
    (h : (PropertyValue.boolean a : PropertyValue f).asText = (.boolean b : PropertyValue f).asText) :
    a = b := by
  cases a
  all_goals cases b
  all_goals first | rfl | exact absurd (Option.some.inj h) (by decide)

structure DigestsProperty (property : PropertyState f) (digested : DigestProperty) : Prop where
  name : digested.name = property.name
  propertyType : digested.propertyType = property.propertyType
  multiple : digested.multiple = match property.values with
    | .single _ => false
    | .multiple _ => true
  values : List.Forall₂ (DigestsValue f provider) property.values.toList digested.values

/-- What a digest has of a node: its properties but for the excluded ones, in the order of their
names. -/
def DigestsNode (excludedPropertyPrefixes : List String) (node : NodeState)
    (digested : List DigestProperty) : Prop :=
  ∃ properties, node.properties f = .ok properties ∧
    List.Forall₂ (DigestsProperty f provider)
      (digestedProperties f excludedPropertyPrefixes properties) digested

variable {f provider}

variable {state state' : Digesting} {text : String}

theorem observe_output {change : DigestSummary → DigestSummary}
    (h : (observe change).run state = .ok ((), state')) : state'.output = state.output := by
  cases h
  rfl

theorem writeOutput_output (h : (writeOutput text).run state = .ok ((), state')) :
    state'.output = state.output ++ text := by
  cases h
  rfl

theorem escaped_inlineText (length readBytes : Nat) (checksum : UInt32) :
    escaped (inlineText length readBytes checksum) =
      (inlineText length readBytes checksum).toList := by
  have hplain : ∀ c : Char, c.isAlphanum = true → escapeChar c = [c] := by
    intro c hc
    rw [escapeChar, if_neg, if_neg, if_neg, if_neg, if_neg]
    all_goals
      rintro rfl
      exact absurd hc (by decide)
  have hchar : ∀ c ∈ (inlineText length readBytes checksum).toList, escapeChar c = [c] := by
    intro c hc
    rw [toList_inlineText, mem_append, mem_cons, mem_append, mem_cons] at hc
    rcases hc with hc | rfl | hc | rfl | hc
    · exact hplain c (ascii_padded_chars (by decide) (by decide) c hc)
    · rfl
    · exact hplain c (ascii_padded_chars (by decide) (by decide) c hc)
    · rfl
    · exact hplain c (ascii_padded_chars (by decide) (by decide) c hc)
  rw [escaped, List.flatMap_congr hchar, List.flatMap_singleton']

/-- A value is written as what a digest has of it, escaped. -/
theorem renderValue_spec {value : PropertyValue f}
    (h : (renderValue f provider value).run state = .ok (text, state')) :
    state'.output = state.output ∧ ∃ digested, (DigestsValue f provider value digested ∧
      digested.HasType value.propertyType) ∧ text.toList = escaped digested.shown := by
  cases value with
  | binary binary =>
    cases binary with
    | inline length recordIdentifier =>
      obtain ⟨⟨readBytes, checksum⟩, state₁, hfold, h⟩ := bind_ok_iff.mp h
      obtain ⟨hread, rfl⟩ := lift_ok_iff.mp hfold
      obtain ⟨⟨⟩, state₂, hobserve, h⟩ := bind_ok_iff.mp h
      obtain ⟨rfl, rfl⟩ := pure_ok_iff.mp h
      exact ⟨observe_output hobserve, .inline length readBytes checksum,
        ⟨⟨readBytes, checksum, hread, rfl⟩, rfl⟩, (escaped_inlineText _ _ _).symm⟩
    | external blobIdentifier =>
      obtain ⟨rfl, rfl⟩ := pure_ok_iff.mp h
      refine ⟨rfl, .external blobIdentifier, ⟨rfl, rfl⟩, ?_⟩
      rw [DigestValue.shown, escaped_append, String.toList_append, toList_escape]
      rfl
  | _ =>
    obtain ⟨rfl, rfl⟩ := pure_ok_iff.mp h
    exact ⟨rfl, .text _, ⟨rfl, (by rintro ⟨⟩)⟩, toList_escape _⟩

/-- A property is written as what a digest has of it. -/
theorem renderProperty_spec {property : PropertyState f} (htyped : property.Typed)
    (h : (renderProperty f provider property).run state = .ok (text, state')) :
    state'.output = state.output ∧ ∃ digested, DigestsProperty f provider property digested ∧
      text.toList = '\t' :: segment digested := by
  obtain ⟨⟨⟩, state₁, hobserve, h⟩ := bind_ok_iff.mp h
  obtain ⟨texts, state₂, htexts, h⟩ := bind_ok_iff.mp h
  obtain ⟨rfl, rfl⟩ := pure_ok_iff.mp h
  obtain ⟨houtput, hvalues⟩ := StateT.mapM_spec
    (R := fun s t : Digesting => t.output = s.output)
    (Q := fun (value : PropertyValue f) (text : String) _ => ∃ digested : DigestValue,
      (digested.HasType property.propertyType ∧ DigestsValue f provider value digested) ∧
        text.toList = escaped digested.shown)
    (fun _ => rfl) (fun _ _ _ hst htu => htu.trans hst) (fun _ _ _ _ h _ => h)
    (fun value hvalue _ _ _ _ h => by
      obtain ⟨hsame, digested, ⟨hdigests, htype⟩, htext⟩ := renderValue_spec h
      rw [htyped value hvalue] at htype
      exact ⟨hsame, digested, ⟨htype, hdigests⟩, htext⟩) htexts
  obtain ⟨digested, hdigested, hmap⟩ := Related.exists_middle hvalues
  have htype : ∀ value ∈ digested, value.HasType property.propertyType :=
    ((List.forall₂_and_left _ _).mp hdigested.flip).1
  refine ⟨houtput.trans (observe_output hobserve),
    ⟨property.name, property.propertyType, _, digested, htype⟩,
    ⟨rfl, rfl, rfl, hdigested.imp fun _ _ h => h.2⟩, ?_⟩
  have hjoined : joined (digested.map DigestValue.shown) =
      [valueSeparator].intercalate (texts.map String.toList) := by
    rw [joined, List.map_map, hmap]
    rfl
  rw [segment, DigestProperty.texts, hjoined, DigestProperty.mark, marker]
  simp only [String.toList_append, toList_escape, String.toList_ofList, List.append_assoc]
  cases property.values with
  | single value => rfl
  | multiple values => rfl

/-- Looking up what was enumerated writes nothing. -/
theorem forM_output {α : Type} {probe : α → DigestM Unit}
    (hprobe : ∀ a s s', (probe a).run s = .ok ((), s') → s'.output = s.output) {values : List α} (h : (values.forM probe).run state = .ok ((), state')) :
    state'.output = state.output := by
  induction values generalizing state with
  | nil =>
    cases h
    rfl
  | cons value values ih =>
    obtain ⟨⟨⟩, state₁, hvalue, h⟩ := bind_ok_iff.mp h
    exact (ih h).trans (hprobe value state state₁ hvalue)

variable {equalValues : PropertyValues f → PropertyValues f → Bool}
  {excludedPropertyPrefixes : List String} {node : NodeState} {path : String}

theorem probeProperty_output {property : PropertyState f}
    (h : (probeProperty f equalValues node path property).run state = .ok ((), state')) :
    state'.output = state.output := by
  obtain ⟨found, state₁, hfound, h⟩ := bind_ok_iff.mp h
  obtain ⟨-, rfl⟩ := lift_ok_iff.mp hfound
  dsimp only at h
  split at h
  · obtain ⟨-, rfl⟩ := pure_ok_iff.mp h
    rfl
  · exact observe_output h

theorem probeChild_output {entry : String × RecordIdentifier}
    (h : (probeChild node path entry).run state = .ok ((), state')) :
    state'.output = state.output := by
  obtain ⟨found, state₁, hfound, h⟩ := bind_ok_iff.mp h
  obtain ⟨-, rfl⟩ := lift_ok_iff.mp hfound
  split at h
  · obtain ⟨-, rfl⟩ := pure_ok_iff.mp h
    rfl
  · exact observe_output h

/-- The line that is written of a node. -/
theorem emitNode_output
    (h : (emitNode f provider equalValues excludedPropertyPrefixes node path).run state =
      .ok ((), state')) :
    ∃ digested, DigestsNode f provider excludedPropertyPrefixes node digested ∧
      state'.output = state.output ++ String.ofList (digestLine path digested ++ ['\n']) := by
  obtain ⟨⟨⟩, state₁, hnodes, h⟩ := bind_ok_iff.mp h
  obtain ⟨properties, state₂, hproperties, h⟩ := bind_ok_iff.mp h
  obtain ⟨hread, rfl⟩ := lift_ok_iff.mp hproperties
  obtain ⟨⟨⟩, state₃, hexcluded, h⟩ := bind_ok_iff.mp h
  obtain ⟨rendered, state₄, hrendered, h⟩ := bind_ok_iff.mp h
  obtain ⟨⟨⟩, state₅, hwrite, h⟩ := bind_ok_iff.mp h
  have htyped : ∀ property ∈ digestedProperties f excludedPropertyPrefixes properties,
      property.Typed := by
    intro property hproperty
    rw [digestedProperties, List.mem_mergeSort, List.mem_filter] at hproperty
    exact NodeState.properties_typed hread hproperty.1
  obtain ⟨houtput, hlines⟩ := StateT.mapM_spec
    (R := fun s t : Digesting => t.output = s.output)
    (Q := fun (property : PropertyState f) (text : String) _ => ∃ digested,
      DigestsProperty f provider property digested ∧ text.toList = '\t' :: segment digested)
    (fun _ => rfl) (fun _ _ _ hst htu => htu.trans hst) (fun _ _ _ _ h _ => h)
    (fun property hproperty _ _ _ _ h => renderProperty_spec (htyped property hproperty) h)
    hrendered
  obtain ⟨digested, hdigested, hmap⟩ := Related.exists_middle hlines
  refine ⟨digested, ⟨properties, hread, hdigested⟩, ?_⟩
  have hbefore : state₄.output = state.output :=
    houtput.trans ((observe_output hexcluded).trans (observe_output hnodes))
  rw [forM_output (fun _ _ _ h => probeProperty_output h) h, writeOutput_output hwrite, hbefore,
    ← String.toList_inj]
  have hsegments : rendered.flatMap String.toList = segments digested := by
    rw [List.flatMap_def, hmap, ← List.flatMap_def, segments, separated, List.flatMap_map]
  simp only [String.toList_append, String.toList_ofList, String.toList_join, hsegments, digestLine,
    List.append_assoc]
  rfl

end

end Froe
