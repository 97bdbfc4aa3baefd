import Froe.Content.Node
import Froe.Writer.Values

/-!
# Writing templates

A template is the shape of a node: its types, whether it has no, one or many
children, and the names and types of its properties.  Two nodes of one shape
share one record, which the writer finds by the key of the shape.  What is
written for a key reads back as that shape (`writeTemplate_spec`), so a shared
record is right for every node that shares it.
-/

namespace Froe

open Except (ok_bind_eq)
open StateT (bind_ok_iff pure_ok_iff)

/-! ## What is to be written -/

/-- The records of the values of a property. -/
inductive PropertyValuesToWrite where
  | single (value : RecordIdentifier)
  | multiple (values : List RecordIdentifier)
  /-- A slot of an existing node: a value, or a counted list of values. -/
  | preservedSlot (valueSlot : RecordIdentifier) (isMultiple : Bool)
deriving DecidableEq

/-- A property to be written. -/
structure PropertyToWrite where
  name : String
  propertyType : PropertyType
  values : PropertyValuesToWrite
deriving DecidableEq

/-- The children of a node to be written. -/
inductive ChildNodesToWrite where
  | zero
  | one (name : String) (node : RecordIdentifier)
  | many (entries : List (String × RecordIdentifier))
  | manyExistingMap (map : RecordIdentifier)
deriving DecidableEq

/-- Whether the values are a list. -/
def PropertyValuesToWrite.isMultiple : PropertyValuesToWrite → Bool
  | .single _ => false
  | .multiple _ => true
  | .preservedSlot _ isMultiple => isMultiple

/-- The type byte of a property. -/
def propertySlotTag (propertyType : PropertyType) (values : PropertyValuesToWrite) : UInt8 :=
  slotTag propertyType values.isMultiple

/-- The type byte of a property. -/
def PropertyToWrite.slotTag (property : PropertyToWrite) : UInt8 :=
  propertySlotTag property.propertyType property.values

/-- The key of a shape.  Only the name of a single child is part of it. -/
def TemplateKey.of (primaryType : Option String) (mixinTypes : List String)
    (childNodes : ChildNodesToWrite) (properties : List PropertyToWrite) : TemplateKey where
  primaryType := primaryType
  mixinTypes := mixinTypes
  childArity :=
    match childNodes with
    | .zero => 0
    | .one _ _ => 1
    | .many _ => 2
    | .manyExistingMap _ => 2
  singleChildName :=
    match childNodes with
    | .one name _ => some name
    | _ => none
  properties := properties.map fun property => (property.name, property.slotTag)

/-- The arity of the children. -/
def ChildNodesToWrite.arity : ChildNodesToWrite → ChildNodeArity
  | .zero => .zero
  | .one name _ => .one name
  | .many _ => .many
  | .manyExistingMap _ => .many

/-- The flags of the children in the head word. -/
def ChildNodesToWrite.flags : ChildNodesToWrite → UInt32
  | .zero => (1 : UInt32) <<< 29
  | .one _ _ => 0
  | .many _ => (1 : UInt32) <<< 28
  | .manyExistingMap _ => (1 : UInt32) <<< 28

/-- Packs the head of a template. -/
def packTemplateHead (hasPrimaryType : Bool) (mixinCount : Nat) (childNodes : ChildNodesToWrite)
    (propertyCount : Nat) : UInt32 :=
  (if hasPrimaryType then (1 : UInt32) <<< 31 else 0) |||
    (if mixinCount = 0 then (0 : UInt32) else (1 : UInt32) <<< 30 ||| UInt32.ofNat mixinCount <<< 18) |||
    childNodes.flags ||| UInt32.ofNat propertyCount

namespace RecordWriter

variable (env : Environment)

/-- Writes a text that may be absent. -/
def writeOptionalString : Option String → Writing (Option RecordIdentifier)
  | none => return none
  | some text => do return some (← writeString env text)

/-- Writes the name of an only child. -/
def writeSingleChildName : ChildNodesToWrite → Writing (Option RecordIdentifier)
  | .one name _ => do return some (← writeString env name)
  | _ => return none

/-- Writes the names of the properties, when there are any. -/
def writePropertyNames (properties : List PropertyToWrite) : Writing (Option RecordIdentifier) := do
  let nameIdentifiers ← properties.mapM fun property => writeString env property.name
  writeListBody env nameIdentifiers

/-- Writes a template record. -/
def writeTemplateRecord (primaryType : Option String) (mixinTypes : List String)
    (childNodes : ChildNodesToWrite) (properties : List PropertyToWrite) :
    Writing RecordIdentifier := do
  if mixinTypes.length ≥ 2 ^ 10 then
    throw (.invalidFormat
      s!"{mixinTypes.length} mixin types exceed the template limit of 1023")
  else if properties.length ≥ 2 ^ 18 then
    throw (.invalidFormat
      s!"{properties.length} properties exceed the template limit of 262143")
  else
    let primaryTypeIdentifier ← writeOptionalString env primaryType
    let mixinIdentifiers ← mixinTypes.mapM (writeString env)
    let singleChildNameIdentifier ← writeSingleChildName env childNodes
    let propertyNamesIdentifier ← writePropertyNames env properties
    let trailingIdentifiers := primaryTypeIdentifier.toList ++ mixinIdentifiers ++
      singleChildNameIdentifier.toList ++ propertyNamesIdentifier.toList
    writeRecord env .template (4 + trailingIdentifiers.length * 6 + properties.length)
      trailingIdentifiers fun _ =>
        .raw (Bytes.be32 (packTemplateHead primaryType.isSome mixinTypes.length childNodes
          properties.length)) ::
        (trailingIdentifiers.map .identifier ++
          properties.map fun property => .raw [property.slotTag])

/-- Writes a template, or finds one of the same shape that this writer has written. -/
def writeTemplate (primaryType : Option String) (mixinTypes : List String)
    (childNodes : ChildNodesToWrite) (properties : List PropertyToWrite) :
    Writing RecordIdentifier := do
  let key := TemplateKey.of primaryType mixinTypes childNodes properties
  match (← get).templateCache.get key with
  | some existing => return existing
  | none =>
    let written ← writeTemplateRecord env primaryType mixinTypes childNodes properties
    let w ← get
    set { w with templateCache := w.templateCache.insert key written }
    return written

end RecordWriter

open RecordWriter

/-! ## Head words -/

theorem splitTypeByte_slotTag (propertyType : PropertyType) (isMultiple : Bool) :
    splitTypeByte (slotTag propertyType isMultiple) = (propertyType.tag, isMultiple) := by
  cases isMultiple <;> cases propertyType <;> decide

theorem fromTag_tag (propertyType : PropertyType) :
    PropertyType.fromTag propertyType.tag = some propertyType := by
  cases propertyType <;> rfl

theorem toNat_flags (childNodes : ChildNodesToWrite) : childNodes.flags.toNat =
    (if childNodes.arity = .zero then 1 else 0) * 2 ^ 29 +
      (if childNodes.arity = .many then 1 else 0) * 2 ^ 28 := by
  cases childNodes with
  | zero => decide
  | one name node => simp [ChildNodesToWrite.flags, ChildNodesToWrite.arity]
  | many entries => simp [ChildNodesToWrite.flags, ChildNodesToWrite.arity]
  | manyExistingMap map => simp [ChildNodesToWrite.flags, ChildNodesToWrite.arity]

theorem toNat_or_of_lt {x y : UInt32} {k q : Nat} (hx : x.toNat = 2 ^ k * q)
    (hy : y.toNat < 2 ^ k) : (x ||| y).toNat = x.toNat + y.toNat := by
  rw [UInt32.toNat_or, hx, Nat.two_pow_add_eq_or_of_lt hy]

theorem or_regroup (a b c d e : UInt32) :
    a ||| (b ||| c) ||| d ||| e = a ||| (b ||| (d ||| (c ||| e))) := by
  ac_rfl

/-- The parts of a head word do not overlap. -/
theorem toNat_packTemplateHead {hasPrimaryType : Bool} {mixinCount propertyCount : Nat}
    {childNodes : ChildNodesToWrite} (hmixins : mixinCount < 2 ^ 10)
    (hproperties : propertyCount < 2 ^ 18) :
    (packTemplateHead hasPrimaryType mixinCount childNodes propertyCount).toNat =
      (if hasPrimaryType then 1 else 0) * 2 ^ 31 + ((if ¬ mixinCount = 0 then 1 else 0) * 2 ^ 30 +
        (childNodes.flags.toNat + (mixinCount * 2 ^ 18 + propertyCount))) := by
  have hcount : (UInt32.ofNat propertyCount).toNat = propertyCount := by
    rw [UInt32.toNat_ofNat']
    omega
  have hshift : (UInt32.ofNat mixinCount <<< 18).toNat = 2 ^ 18 * mixinCount := by
    rw [UInt32.toNat_shiftLeft, UInt32.toNat_ofNat', show (18 : UInt32).toNat % 32 = 18 from rfl,
      Nat.shiftLeft_eq]
    omega
  have hlow : (UInt32.ofNat mixinCount <<< 18 ||| UInt32.ofNat propertyCount).toNat =
      mixinCount * 2 ^ 18 + propertyCount := by
    rw [toNat_or_of_lt hshift (by omega), hshift, hcount, Nat.mul_comm]
  have hflags := toNat_flags childNodes
  have hmiddle : (childNodes.flags ||| (UInt32.ofNat mixinCount <<< 18 |||
      UInt32.ofNat propertyCount)).toNat =
      childNodes.flags.toNat + (mixinCount * 2 ^ 18 + propertyCount) := by
    have hfactor : childNodes.flags.toNat = 2 ^ 28 * ((if childNodes.arity = .zero then 1 else 0) *
        2 + (if childNodes.arity = .many then 1 else 0)) := by
      rw [hflags]
      omega
    rw [toNat_or_of_lt hfactor (by rw [hlow]; omega), hlow]
  have hbound : childNodes.flags.toNat < 2 ^ 30 - 2 ^ 28 := by
    rw [hflags]
    cases childNodes.arity <;> simp
  have hregroup : packTemplateHead hasPrimaryType mixinCount childNodes propertyCount =
      (if hasPrimaryType then (1 : UInt32) <<< 31 else (0 : UInt32)) |||
        ((if mixinCount = 0 then (0 : UInt32) else (1 : UInt32) <<< 30) ||| (childNodes.flags |||
          (UInt32.ofNat mixinCount <<< 18 ||| UInt32.ofNat propertyCount))) := by
    have hjoin : (if mixinCount = 0 then (0 : UInt32)
        else (1 : UInt32) <<< 30 ||| UInt32.ofNat mixinCount <<< 18) =
        (if mixinCount = 0 then (0 : UInt32) else (1 : UInt32) <<< 30) |||
          UInt32.ofNat mixinCount <<< 18 := by
      by_cases hzero : mixinCount = 0
      · rw [if_pos hzero, if_pos hzero, hzero]
        rfl
      · rw [if_neg hzero, if_neg hzero]
    rw [packTemplateHead, hjoin, or_regroup]
  have hmixin : (if mixinCount = 0 then (0 : UInt32) else (1 : UInt32) <<< 30).toNat =
      2 ^ 30 * (if ¬ mixinCount = 0 then 1 else 0) := by
    rw [ite_not]
    split <;> rfl
  have hprimary : (if hasPrimaryType then (1 : UInt32) <<< 31 else (0 : UInt32)).toNat =
      2 ^ 31 * (if hasPrimaryType then 1 else 0) := by
    split <;> rfl
  have hhigh : ((if mixinCount = 0 then (0 : UInt32) else (1 : UInt32) <<< 30) |||
      (childNodes.flags ||| (UInt32.ofNat mixinCount <<< 18 |||
        UInt32.ofNat propertyCount))).toNat = (if ¬ mixinCount = 0 then 1 else 0) * 2 ^ 30 +
      (childNodes.flags.toNat + (mixinCount * 2 ^ 18 + propertyCount)) := by
    rw [toNat_or_of_lt hmixin (by rw [hmiddle]; omega), hmixin, hmiddle, Nat.mul_comm]
  rw [hregroup, toNat_or_of_lt hprimary (by rw [hhigh]; split <;> omega), hprimary, hhigh,
    Nat.mul_comm]

theorem ofWord_packTemplateHead {hasPrimaryType : Bool} {mixinCount propertyCount : Nat}
    {childNodes : ChildNodesToWrite} (hmixins : mixinCount < 2 ^ 10)
    (hproperties : propertyCount < 2 ^ 18) :
    TemplateHead.ofWord (packTemplateHead hasPrimaryType mixinCount childNodes propertyCount) =
      ⟨hasPrimaryType, decide (mixinCount ≠ 0), decide (childNodes.arity = .zero),
        decide (childNodes.arity = .many), mixinCount, propertyCount⟩ := by
  have hword := @toNat_packTemplateHead hasPrimaryType mixinCount propertyCount childNodes hmixins
    hproperties
  rw [toNat_flags] at hword
  have hbit : ∀ (P : Prop) [Decidable P], (if P then 1 else 0 : Nat) ≤ 1 := by
    intro P _
    split <;> decide
  have hprimary := hbit (hasPrimaryType = true)
  have hmixin := hbit (¬ mixinCount = 0)
  have hzero := hbit (childNodes.arity = .zero)
  have hmany := hbit (childNodes.arity = .many)
  have hexclusive : (if childNodes.arity = .zero then 1 else 0 : Nat) +
      (if childNodes.arity = .many then 1 else 0) ≤ 1 := by
    cases childNodes.arity <;> simp
  have hset : ∀ (P : Prop) [Decidable P] (n : Nat), n = (if P then 1 else 0 : Nat) →
      decide (n = 1) = decide P := by
    intro P _ n hn
    rw [hn, decide_eq_decide]
    split <;> simp_all
  rw [TemplateHead.ofWord, TemplateHead.mk.injEq]
  simp only [Nat.testBit_eq_decide_div_mod_eq, hword]
  refine ⟨?_, ?_, ?_, ?_, ?_, ?_⟩
  · rw [hset (hasPrimaryType = true) _ (by omega), Bool.decide_eq_true]
  · exact hset (¬ mixinCount = 0) _ (by omega)
  · exact hset (childNodes.arity = .zero) _ (by omega)
  · exact hset (childNodes.arity = .many) _ (by omega)
  · omega
  · omega

/-! ## Reading the parts -/

/-- What a template says of a property. -/
def PropertyToWrite.slot (property : PropertyToWrite) : PropertyTemplate :=
  ⟨property.name, property.propertyType, property.values.isMultiple⟩

section

variable {provider : SegmentProvider} {view : SegmentView} {record : RecordIdentifier}
  {cursor : Nat} {rest : List Field}

/-- A text reads back from a record. -/
def TextAt (provider : SegmentProvider) (record : RecordIdentifier) (text : String) : Prop :=
  readString provider record = .ok text

theorem readTemplateName_eq {name : RecordIdentifier} {text : String}
    (h : view.Holds record.recordNumber cursor (.identifier name :: rest))
    (htext : TextAt provider name text) :
    readTemplateName provider record view cursor = .ok text := by
  rw [readTemplateName, h.1, ok_bind_eq]
  exact htext

variable {name : Option RecordIdentifier} {names : List RecordIdentifier} {texts : List String}

theorem readPrimaryType_eq {text : Option String}
    (h : view.Holds record.recordNumber cursor (name.toList.map .identifier ++ rest))
    (htext : Option.Rel (TextAt provider) name text) :
    readPrimaryType provider record view text.isSome cursor =
        .ok (text, cursor + 6 * name.toList.length) ∧
      view.Holds record.recordNumber (cursor + 6 * name.toList.length) rest := by
  cases htext with
  | none => exact ⟨rfl, h⟩
  | some htext =>
    refine ⟨?_, h.2⟩
    rw [readPrimaryType, Option.isSome_some, if_pos rfl, readTemplateName_eq h htext]
    rfl

section

variable (h : view.Holds record.recordNumber cursor (names.map .identifier ++ rest))
include h

theorem readTemplateNames_eq (htexts : List.Forall₂ (TextAt provider) names texts) :
    readTemplateNames provider record view texts.length cursor = .ok texts ∧
      view.Holds record.recordNumber (cursor + 6 * names.length) rest := by
  induction htexts generalizing cursor with
  | nil => exact ⟨rfl, h⟩
  | cons htext _ ih =>
    obtain ⟨hnames, hrest⟩ := ih h.2
    refine ⟨?_, ?_⟩
    · rw [List.length_cons, readTemplateNames, readTemplateName_eq h htext, ok_bind_eq,
        hnames]
      rfl
    · rw [List.length_cons, Nat.mul_add, Nat.add_comm (6 * _), ← Nat.add_assoc]
      exact hrest

theorem readMixinTypes_eq (htexts : List.Forall₂ (TextAt provider) names texts) :
    readMixinTypes provider record view (decide (texts.length ≠ 0)) texts.length cursor =
        .ok (texts, cursor + 6 * names.length) ∧
      view.Holds record.recordNumber (cursor + 6 * names.length) rest := by
  obtain ⟨hnames, hrest⟩ := readTemplateNames_eq h htexts
  refine ⟨?_, hrest⟩
  cases htexts with
  | nil => rfl
  | cons htext htexts =>
    rw [readMixinTypes, if_pos (by simp), hnames, ok_bind_eq, List.length_cons,
      List.length_cons, htexts.length_eq]
    rfl

end

/-- The name of an only child. -/
def ChildNodesToWrite.singleChildName : ChildNodesToWrite → Option String
  | .one name _ => some name
  | _ => none

theorem readChildArity_eq {childNodes : ChildNodesToWrite}
    (h : view.Holds record.recordNumber cursor (name.toList.map .identifier ++ rest))
    (htext : Option.Rel (TextAt provider) name childNodes.singleChildName) :
    readChildArity provider record view (decide (childNodes.arity = .many))
        (decide (childNodes.arity = .zero)) cursor =
        .ok (childNodes.arity, cursor + 6 * name.toList.length) ∧
      view.Holds record.recordNumber (cursor + 6 * name.toList.length) rest := by
  cases childNodes with
  | zero =>
    cases htext
    exact ⟨rfl, h⟩
  | one text node =>
    cases htext with
    | some htext =>
      refine ⟨?_, h.2⟩
      rw [readChildArity, if_neg (by simp [ChildNodesToWrite.arity]),
        if_neg (by simp [ChildNodesToWrite.arity]), readTemplateName_eq h htext]
      rfl
  | many entries =>
    cases htext
    exact ⟨rfl, h⟩
  | manyExistingMap map =>
    cases htext
    exact ⟨rfl, h⟩

theorem readPropertyTemplates_eq {properties : List PropertyToWrite}
    (h : view.Holds record.recordNumber cursor
      (properties.map fun property => .raw [property.slotTag]))
    (hnames : List.Forall₂ (fun name (property : PropertyToWrite) =>
      TextAt provider name property.name) names properties) :
    readPropertyTemplates provider record view names cursor =
      .ok (properties.map PropertyToWrite.slot) := by
  induction hnames generalizing cursor with
  | nil => rfl
  | cons hname _ ih =>
    have hbyte := SegmentView.Holds.readU8 h
    have hrest := ih h.2
    rw [List.length_singleton] at hrest
    rw [readPropertyTemplates, hbyte, ok_bind_eq, PropertyToWrite.slotTag, propertySlotTag,
      splitTypeByte_slotTag]
    dsimp only
    rw [fromTag_tag]
    dsimp only
    rw [hname, ok_bind_eq, hrest]
    rfl

theorem readProperties_eq {list : Option RecordIdentifier}
    {properties : List PropertyToWrite} (hsize : properties.length < 2 ^ 18)
    (h : view.Holds record.recordNumber cursor (list.toList.map .identifier ++
      properties.map fun property => .raw [property.slotTag]))
    (hlist : (names = [] ∧ list = none) ∨ ∃ body, list = some body ∧ ListAt provider body names)
    (hnames : List.Forall₂ (fun name (property : PropertyToWrite) =>
      TextAt provider name property.name) names properties) :
    readProperties provider record view properties.length cursor =
      .ok (properties.map PropertyToWrite.slot) := by
  rcases hlist with ⟨rfl, rfl⟩ | ⟨body, rfl, hbody⟩
  · cases hnames
    rfl
  · have hlength := hnames.length_eq
    have hpos : 0 < properties.length := by
      rw [← hlength]
      exact List.length_pos_iff.mpr hbody.1
    have hentries := hbody.entries (show names.length ≤ maximumListSize by
      have : 2 ^ 18 ≤ maximumListSize := by decide
      omega)
    rw [hlength] at hentries
    rw [readProperties, if_pos hpos, h.1, ok_bind_eq, hentries, ok_bind_eq]
    exact readPropertyTemplates_eq h.2 hnames

end

/-! ## Shapes -/

variable {c : Session} {w w' : RecordWriter} {primaryType : Option String}
  {mixinTypes : List String} {childNodes : ChildNodesToWrite} {properties : List PropertyToWrite}

theorem TemplateKey.arity_of :
    (TemplateKey.of primaryType mixinTypes childNodes properties).arity = childNodes.arity := by
  cases childNodes <;> rfl

theorem TemplateKey.texts_of {text : String} :
    text ∈ (TemplateKey.of primaryType mixinTypes childNodes properties).texts ↔
      primaryType = some text ∨ text ∈ mixinTypes ∨ childNodes.singleChildName = some text ∨
        ∃ property ∈ properties, property.name = text := by
  have hsingle : (TemplateKey.of primaryType mixinTypes childNodes properties).singleChildName =
      childNodes.singleChildName := by
    cases childNodes <;> rfl
  rw [TemplateKey.texts, hsingle]
  simp [TemplateKey.of, eq_comm]

/-- A template of the slots is what a key stands for. -/
theorem TemplateKey.describes_of :
    (TemplateKey.of primaryType mixinTypes childNodes properties).Describes
      ⟨primaryType, mixinTypes, childNodes.arity, properties.map PropertyToWrite.slot⟩ := by
  refine ⟨rfl, rfl, TemplateKey.arity_of.symm, ?_⟩
  rw [List.map_map]
  rfl

/-- The identifiers that a template record is made of, and what they stand for. -/
structure TemplateParts (provider : SegmentProvider) (primaryType : Option String)
    (mixinTypes : List String) (childNodes : ChildNodesToWrite) (properties : List PropertyToWrite)
    (primary : Option RecordIdentifier) (mixins : List RecordIdentifier)
    (child list : Option RecordIdentifier) : Prop where
  primary : Option.Rel (TextAt provider) primary primaryType
  mixins : List.Forall₂ (TextAt provider) mixins mixinTypes
  child : Option.Rel (TextAt provider) child childNodes.singleChildName
  names : ∃ names, ((names = [] ∧ list = none) ∨
      ∃ body, list = some body ∧ ListAt provider body names) ∧
    List.Forall₂ (fun name (property : PropertyToWrite) => TextAt provider name property.name) names
      properties

variable {list name : Option RecordIdentifier} {own : RecordIdentifier}

theorem readTemplate_eq {provider : SegmentProvider} {record : RecordIdentifier}
    {primary child : Option RecordIdentifier} {mixins : List RecordIdentifier}
    (hmixins : mixinTypes.length < 2 ^ 10) (hproperties : properties.length < 2 ^ 18)
    (hrecord : RecordAt provider record
      (.raw (Bytes.be32 (packTemplateHead primaryType.isSome mixinTypes.length childNodes
          properties.length)) ::
        ((primary.toList ++ mixins ++ child.toList ++ list.toList).map .identifier ++
          properties.map fun property => .raw [property.slotTag])))
    (hparts : TemplateParts provider primaryType mixinTypes childNodes properties primary mixins
      child list) :
    readTemplate provider record =
      .ok ⟨primaryType, mixinTypes, childNodes.arity, properties.map PropertyToWrite.slot⟩ := by
  obtain ⟨view, hview, hholds⟩ := hrecord
  have hword := hholds.readU32
  have hrest := hholds.2
  rw [Bytes.length_be32, Nat.zero_add, List.map_append, List.map_append, List.map_append,
    List.append_assoc, List.append_assoc, List.append_assoc] at hrest
  obtain ⟨hprimary, hrest⟩ := readPrimaryType_eq hrest hparts.primary
  obtain ⟨hmixin, hrest⟩ := readMixinTypes_eq hrest hparts.mixins
  obtain ⟨hchild, hrest⟩ := readChildArity_eq hrest hparts.child
  obtain ⟨names, hlist, hnames⟩ := hparts.names
  have hslots := readProperties_eq hproperties hrest hlist hnames
  rw [readTemplate, hview, ok_bind_eq, hword, ok_bind_eq]
  dsimp only
  rw [ofWord_packTemplateHead hmixins hproperties]
  dsimp only
  rw [hprimary, ok_bind_eq]
  dsimp only
  rw [hmixin, ok_bind_eq]
  dsimp only
  rw [hchild, ok_bind_eq]
  dsimp only
  rw [hslots]
  rfl

/-! ## Writing the parts -/

theorem fieldsLength_slotTags (properties : List PropertyToWrite) :
    fieldsLength (properties.map fun property => .raw [property.slotTag]) = properties.length := by
  induction properties with
  | nil => rfl
  | cons property properties ih =>
    rw [List.map_cons, fieldsLength_cons, ih, Field.length, List.length_singleton,
      List.length_cons, Nat.add_comm]

/-- A text is written where it is read. -/
theorem writeString_text {text : String} {record : RecordIdentifier} (hw : Valid c w)
    (h : (writeString c.environment text).run w = .ok (record, w')) :
    Steps c w w' ∧ Allowed c w' record.segment ∧
      Assured c w' fun provider => Readable text → TextAt provider record text := by
  obtain ⟨hsteps, hallowed, hvalue⟩ := writeString_spec hw h
  refine ⟨hsteps, hallowed, fun provider hserves hreadable => ?_⟩
  rw [TextAt, (hvalue hreadable provider hserves).readString hreadable, Utf8.decodeLossy_utf8]

theorem writeOptionalString_spec {text : Option String}
    (hw : Valid c w) (h : (writeOptionalString c.environment text).run w = .ok (name, w')) :
    Steps c w w' ∧ (∀ record ∈ name.toList, Allowed c w' record.segment) ∧
      Assured c w' fun provider => (∀ t, text = some t → Readable t) →
        Option.Rel (TextAt provider) name text := by
  cases text with
  | none =>
    obtain ⟨rfl, rfl⟩ := pure_ok_iff.mp h
    exact ⟨Steps.refl _, nofun, fun _ _ _ => .none⟩
  | some text =>
    obtain ⟨record, _, hwrite, h⟩ := bind_ok_iff.mp h
    obtain ⟨rfl, rfl⟩ := pure_ok_iff.mp h
    obtain ⟨hsteps, hallowed, htext⟩ := writeString_text hw hwrite
    refine ⟨hsteps, fun other hmem => ?_, fun provider hserves hreadable =>
      .some (htext provider hserves (hreadable text rfl))⟩
    rw [List.mem_singleton.mp hmem]
    exact hallowed

theorem writeSingleChildName_spec (hw : Valid c w)
    (h : (writeSingleChildName c.environment childNodes).run w = .ok (name, w')) :
    Steps c w w' ∧ (∀ record ∈ name.toList, Allowed c w' record.segment) ∧
      Assured c w' fun provider => (∀ t, childNodes.singleChildName = some t → Readable t) →
        Option.Rel (TextAt provider) name childNodes.singleChildName := by
  have hoptional : writeSingleChildName c.environment childNodes =
      writeOptionalString c.environment childNodes.singleChildName := by
    cases childNodes <;> rfl
  rw [hoptional] at h
  exact writeOptionalString_spec hw h

theorem writeStrings_spec {α : Type} {text : α → String} {as : List α}
    {names : List RecordIdentifier} (hw : Valid c w)
    (h : (as.mapM fun a => writeString c.environment (text a)).run w = .ok (names, w')) :
    Steps c w w' ∧ (∀ record ∈ names, Allowed c w' record.segment) ∧
      Assured c w' fun provider => (∀ a ∈ as, Readable (text a)) →
        List.Forall₂ (fun name a => TextAt provider name (text a)) names as := by
  obtain ⟨hsteps, hallowed, hall⟩ := mapM_assured
    (P := fun a name provider => Readable (text a) → TextAt provider name (text a)) hw
    (fun a _ t b t' ht _ hrun => writeString_text ht hrun) h
  refine ⟨hsteps, hallowed, fun provider hserves hreadable => ?_⟩
  obtain ⟨hlength, hget⟩ := List.forall₂_iff_get.mp (hall provider hserves)
  exact List.forall₂_iff_get.mpr ⟨hlength.symm, fun i hi hi' =>
    hget i hi' hi (hreadable _ (List.get_mem ..))⟩

theorem writePropertyNames_spec (hw : Valid c w)
    (h : (writePropertyNames c.environment properties).run w = .ok (list, w')) :
    Steps c w w' ∧ (∀ record ∈ list.toList, Allowed c w' record.segment) ∧
      Assured c w' fun provider => (∀ property ∈ properties, Readable property.name) →
        ∃ names, ((names = [] ∧ list = none) ∨
          ∃ body, list = some body ∧ ListAt provider body names) ∧
        List.Forall₂ (fun name (property : PropertyToWrite) =>
          TextAt provider name property.name) names properties := by
  obtain ⟨names, w₁, hnames, h⟩ := bind_ok_iff.mp h
  obtain ⟨hsteps, hallowed, htexts⟩ := writeStrings_spec hw hnames
  have hw₁ := hsteps.valid hw
  obtain ⟨hsteps', hcases⟩ := writeListBody_spec hw₁ h hallowed
  refine ⟨hsteps.trans hsteps', fun record hmem => ?_, fun provider hserves hreadable =>
    ⟨names, ?_, hsteps'.assured hw₁ htexts provider hserves hreadable⟩⟩
  · rcases hcases with ⟨-, rfl⟩ | ⟨body, rfl, hbody, -⟩
    · cases hmem
    · rw [List.mem_singleton.mp hmem]
      exact hbody
  · rcases hcases with hempty | ⟨body, hbody, -, hlist⟩
    · exact .inl hempty
    · exact .inr ⟨body, hbody, hlist provider hserves⟩

/-! ## Templates -/

/-- A template is written as the shape that its key stands for. -/
theorem writeTemplateRecord_spec (hw : Valid c w)
    (h : (writeTemplateRecord c.environment primaryType mixinTypes childNodes properties).run w =
      .ok (own, w')) :
    Steps c w w' ∧ Allowed c w' own.segment ∧
      ((∀ text ∈ (TemplateKey.of primaryType mixinTypes childNodes properties).texts,
          Readable text) →
        Assured c w'
          (TemplateAt · own (TemplateKey.of primaryType mixinTypes childNodes properties))) := by
  rw [writeTemplateRecord] at h
  split at h
  · exact absurd h StateT.throw_ok
  split at h
  · exact absurd h StateT.throw_ok
  rename_i hmixins hproperties
  obtain ⟨primary, w₁, hprimary, h⟩ := bind_ok_iff.mp h
  obtain ⟨mixins, w₂, hmixin, h⟩ := bind_ok_iff.mp h
  obtain ⟨child, w₃, hchild, h⟩ := bind_ok_iff.mp h
  obtain ⟨list, w₄, hlist, h⟩ := bind_ok_iff.mp h
  obtain ⟨hsteps₁, hallowed₁, htext₁⟩ := writeOptionalString_spec hw hprimary
  have hw₁ := hsteps₁.valid hw
  obtain ⟨hsteps₂, hallowed₂, htext₂⟩ := @writeStrings_spec _ _ _ _ id _ _ hw₁ hmixin
  have hw₂ := hsteps₂.valid hw₁
  obtain ⟨hsteps₃, hallowed₃, htext₃⟩ := writeSingleChildName_spec hw₂ hchild
  have hw₃ := hsteps₃.valid hw₂
  obtain ⟨hsteps₄, hallowed₄, hnames⟩ := writePropertyNames_spec hw₃ hlist
  have hw₄ := hsteps₄.valid hw₃
  obtain ⟨hsteps₅, hrecorded, hsegment, -⟩ := writeRecord_spec hw₄ h nofun (by
      intro own
      rw [fieldsLength_cons, fieldsLength_append, SegmentView.fieldsLength_identifiers,
        fieldsLength_slotTags, Field.length, Bytes.length_be32, Nat.mul_comm, Nat.add_assoc])
    (by omega)
    (fun _ record hmem => .inr (by simpa using hmem)) (by
      intro record hmem
      rcases List.mem_append.mp hmem with hmem | hmem
      · rcases List.mem_append.mp hmem with hmem | hmem
        · rcases List.mem_append.mp hmem with hmem | hmem
          · exact (hsteps₂.trans (hsteps₃.trans hsteps₄)).allowed (hallowed₁ record hmem)
          · exact (hsteps₃.trans hsteps₄).allowed (hallowed₂ record hmem)
        · exact hsteps₄.allowed (hallowed₃ record hmem)
      · exact hallowed₄ record hmem)
  have hall := hsteps₁.trans (hsteps₂.trans (hsteps₃.trans (hsteps₄.trans hsteps₅)))
  refine ⟨hall, .inr (.inl hsegment), fun hreadable provider hserves => ?_⟩
  have hserves₄ := hsteps₅.serves hw₄ hserves
  have hserves₃ := hsteps₄.serves hw₃ hserves₄
  have hserves₂ := hsteps₃.serves hw₂ hserves₃
  have hserves₁ := hsteps₂.serves hw₁ hserves₂
  refine ⟨_, readTemplate_eq (not_le.mp hmixins) (not_le.mp hproperties)
    (hrecorded.assured provider hserves) ⟨?_, ?_, ?_, ?_⟩, TemplateKey.describes_of⟩
  · exact htext₁ provider hserves₁ fun text htext =>
      hreadable text (TemplateKey.texts_of.mpr (.inl htext))
  · exact htext₂ provider hserves₂ fun text hmem =>
      hreadable text (TemplateKey.texts_of.mpr (.inr (.inl hmem)))
  · exact htext₃ provider hserves₃ fun text htext =>
      hreadable text (TemplateKey.texts_of.mpr (.inr (.inr (.inl htext))))
  · exact hnames provider hserves₄ fun property hmem =>
      hreadable _ (TemplateKey.texts_of.mpr (.inr (.inr (.inr ⟨property, hmem, rfl⟩))))

/-- A template is served as the shape of its key, also when it was found in the cache. -/
theorem writeTemplate_spec (hw : Valid c w)
    (h : (writeTemplate c.environment primaryType mixinTypes childNodes properties).run w =
      .ok (own, w')) :
    Steps c w w' ∧ Allowed c w' own.segment ∧
      ((∀ text ∈ (TemplateKey.of primaryType mixinTypes childNodes properties).texts,
          Readable text) →
        Assured c w'
          (TemplateAt · own (TemplateKey.of primaryType mixinTypes childNodes properties))) := by
  replace h := StateT.get_bind_ok_iff.mp h
  split at h
  · rename_i existing hfound
    obtain ⟨rfl, rfl⟩ := pure_ok_iff.mp h
    obtain ⟨htemplate, hallowed⟩ := hw.templates _ _ hfound
    exact ⟨Steps.refl _, hallowed, htemplate⟩
  · obtain ⟨written, w₁, hwritten, h⟩ := bind_ok_iff.mp h
    replace h := StateT.get_bind_ok_iff.mp h
    replace h := StateT.set_bind_ok_iff.mp h
    obtain ⟨rfl, rfl⟩ := pure_ok_iff.mp h
    obtain ⟨hsteps, hallowed, htemplate⟩ := writeTemplateRecord_spec hw hwritten
    have hstep := Step.cacheTemplate htemplate hallowed
    exact ⟨hsteps.trans hstep.steps, hstep.allowed hallowed,
      fun hreadable => hstep.assured (hsteps.valid hw) (htemplate hreadable)⟩

end Froe
