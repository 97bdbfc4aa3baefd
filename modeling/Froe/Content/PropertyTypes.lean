import Froe.Content.Node

/-!
# Types of decoded values

The values of a property are decoded by the type of the property, so that every value of a
property that a node has is of the type of the property.
-/

namespace Froe

open Except (bind_ok_iff)

def PropertyValue.propertyType {f : FloatingPoint} : PropertyValue f → PropertyType
  | .string _ => .string
  | .binary _ => .binary
  | .long _ => .long
  | .double _ => .double
  | .date _ => .date
  | .boolean _ => .boolean
  | .name _ => .name
  | .path _ => .path
  | .reference _ => .reference
  | .weakReference _ => .weakReference
  | .uri _ => .uri
  | .decimal _ => .decimal

section

variable {f : FloatingPoint}

variable {propertyType : PropertyType} {identifier : RecordIdentifier} {node : NodeState}

variable {value : PropertyValue f} {properties : List (PropertyState f)}
  {property : PropertyState f}

theorem decodeText_propertyType {text : String}
    (h : decodeText f propertyType identifier text = .ok value) :
    value.propertyType = propertyType := by
  cases propertyType with
  | long =>
    rw [decodeText] at h
    split at h
    · cases h
      rfl
    · cases h
  | double =>
    rw [decodeText] at h
    split at h
    · cases h
      rfl
    · cases h
  | binary => cases h
  | _ =>
    cases h
    rfl

theorem readPropertyValue_propertyType {source : SegmentProvider}
    (h : readPropertyValue f source identifier propertyType = .ok value) :
    value.propertyType = propertyType := by
  rw [readPropertyValue] at h
  split at h
  · rename_i hbinary
    obtain ⟨binary, -, h⟩ := bind_ok_iff.mp h
    cases h
    exact hbinary.symm
  · obtain ⟨text, -, h⟩ := bind_ok_iff.mp h
    exact decodeText_propertyType h

def PropertyState.Typed (property : PropertyState f) : Prop :=
  ∀ value ∈ property.values.toList, value.propertyType = property.propertyType

/-- What holds of every value that is read, and of the types of a node, holds of every value of a
node. -/
theorem NodeState.properties_values {P : PropertyType → PropertyValue f → Prop}
    (hname : ∀ text, P .name (.name text)) (hread : ∀ identifier propertyType value,
      readPropertyValue f node.provider identifier propertyType = .ok value → P propertyType value) (h : node.properties f = .ok properties) (hproperty : property ∈ properties) :
    ∀ value ∈ property.values.toList, P property.propertyType value := by
  obtain ⟨template, -, h⟩ := bind_ok_iff.mp h
  obtain ⟨stored, hstored, h⟩ := bind_ok_iff.mp h
  cases h
  rcases List.mem_append.mp hproperty with hproperty | hproperty
  · rw [synthesizedProperties, List.mem_append] at hproperty
    rcases hproperty with hproperty | hproperty
    · obtain ⟨primaryType, -, rfl⟩ := List.mem_map.mp hproperty
      intro value hvalue
      rw [PropertyValues.toList, List.mem_singleton] at hvalue
      rw [hvalue]
      exact hname primaryType
    · split at hproperty
      · cases hproperty
      · rw [List.mem_singleton.mp hproperty]
        intro value hvalue
        obtain ⟨mixin, -, rfl⟩ := List.mem_map.mp hvalue
        exact hname mixin
  · rw [storedPropertyStates] at hstored
    split at hstored
    · cases hstored
      cases hproperty
    · obtain ⟨list, -, hstored⟩ := bind_ok_iff.mp hstored
      obtain ⟨identifiers, -, hstored⟩ := bind_ok_iff.mp hstored
      obtain ⟨slot, -, hslot⟩ := Except.mapM_ok_mem hstored hproperty
      rw [propertyFromValue] at hslot
      split at hslot
      · obtain ⟨counted, -, hslot⟩ := bind_ok_iff.mp hslot
        split at hslot
        · cases hslot
          exact nofun
        · obtain ⟨elements, -, hslot⟩ := bind_ok_iff.mp hslot
          obtain ⟨values, hvalues, hslot⟩ := bind_ok_iff.mp hslot
          cases hslot
          intro value hvalue
          obtain ⟨element, -, helement⟩ := Except.mapM_ok_mem hvalues hvalue
          exact hread _ _ _ helement
      · obtain ⟨value, hvalue, hslot⟩ := bind_ok_iff.mp hslot
        cases hslot
        intro other hother
        rw [PropertyValues.toList, List.mem_singleton] at hother
        rw [hother]
        exact hread _ _ _ hvalue

section

variable (h : node.properties f = .ok properties) (hproperty : property ∈ properties)
include h hproperty

theorem NodeState.properties_typed : property.Typed :=
  properties_values (P := fun propertyType value => value.propertyType = propertyType)
    (fun _ => rfl) (fun _ _ _ hread => readPropertyValue_propertyType hread) h hproperty

/-- Every binary that a node has is read from a value record. -/
theorem NodeState.properties_binary {binary : BinaryValue}
    (hvalue : .binary binary ∈ property.values.toList) :
    ∃ identifier, readBinaryValue node.provider identifier = .ok binary := by
  refine properties_values (P := fun _ value => ∀ binary, value = .binary binary →
    ∃ identifier, readBinaryValue node.provider identifier = .ok binary) (fun _ => nofun) ?_ h
    hproperty _ hvalue binary rfl
  rintro identifier propertyType value hread binary rfl
  rw [readPropertyValue] at hread
  split at hread
  · obtain ⟨read, hbinary, hread⟩ := bind_ok_iff.mp hread
    cases hread
    exact ⟨identifier, hbinary⟩
  · rename_i hnot
    obtain ⟨text, -, hread⟩ := bind_ok_iff.mp hread
    exact absurd (decodeText_propertyType hread).symm hnot

end

end

def oneDouble : FloatingPoint where
  Double := Unit
  isNan _ := false
  isInfinite _ := false
  isZero _ := false
  isSignNegative _ := false
  scientific _ := "1e0"
  display _ := "1"
  parse text := if text = "1.0" then some () else none

end Froe
