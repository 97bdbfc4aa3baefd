import Froe.Java.Properties
import Froe.Journal.GcJournal

/-!
# The manifest

The manifest is a properties file.  Its `store.version` is a Java `int`, the last of
several counts, and a missing or unreadable one stands for the newest version.

An older store is upgraded by appending a comment and `store.version=2` to the file.
An empty line goes in between, so that a continuation at the end of the old text does
not swallow what is appended.  It protects a property that is open there, unless that
property is still empty: the empty line makes the reader drop it, which the end of the
file did not.
-/

namespace Froe

open String (ofList)

/-! ## The store version -/

/-- The version that is written. -/
def maximumStoreVersion : Int := 2

/-- The loop over the digits, which goes down so that the least number fits. -/
def accumulateJavaI32 (limit result : Int) : List UInt16 → Option Int
  | [] => some result
  | unit :: units => do
    let digit ← javaDecimalDigit unit
    if result < limit.tdiv 10 then none
    else if result * 10 < limit + digit.toNat then none
    else accumulateJavaI32 limit (result * 10 - digit.toNat) units

/-- `Integer.parseInt`. -/
def parseJavaI32 : List UInt16 → Option Int
  | [] => none
  | first :: rest => do
    let (negative, digits, limit) : Bool × List UInt16 × Int :=
      if first = 45 then (true, rest, -2 ^ 31)
      else if first = 43 then (false, rest, -(2 ^ 31 - 1))
      else (false, first :: rest, -(2 ^ 31 - 1))
    if digits = [] then none
    else
      let result ← accumulateJavaI32 limit 0 digits
      return if negative then result else -result

/-- The key of the version. -/
def storeVersionKey : List UInt16 := javaPropertyAscii "store.version"

/-- The version in a manifest. -/
def parseManifestStoreVersion (content : String) : Result Int := do
  let properties ← parseJavaProperties content
  return properties.foldl (fun version property =>
    if property.1 = storeVersionKey then (parseJavaI32 property.2).getD maximumStoreVersion
    else version) maximumStoreVersion

/-- The text of a file. -/
def readToString (content : Bytes) : Result String :=
  if Utf8.isValid content then .ok (Utf8.decodeLossy content)
  else .error (.inputOutput "stream did not contain valid UTF-8")

def readManifestStoreVersion (content : Bytes) : Result Int := do
  let content ← readToString content
  parseManifestStoreVersion content

/-- The properties of a file. -/
def readJavaProperties (content : Bytes) : Result (List (List UInt16 × List UInt16)) := do
  let content ← readToString content
  parseJavaProperties content

/-! ## The upgrade -/

/-- What an upgrade appends. -/
def upgradeLines : String := "# upgraded atomically by froe cleanup\nstore.version=2\n"

/-- A manifest behind its upgrade. -/
def manifestUpgradeBytes (source : Bytes) : Bytes :=
  (match source.getLast? with
    | none => source
    | some byte => if byte = 10 then source ++ [10] else source ++ [10, 10]) ++ upgradeLines.utf8

/-- The text behind an upgrade. -/
def upgradedText (text : List Char) : List Char :=
  (if text = [] then [] else closed text ++ ['\n']) ++ upgradeLines.toList

theorem readToString_utf8 (s : String) : readToString s.utf8 = .ok s := by
  rw [readToString, if_pos (Utf8.isValid_utf8 s), Utf8.decodeLossy_utf8]

/-- Only a line feed ends in the byte of a line feed. -/
theorem getLast?_utf8EncodeChar {c : Char} :
    (String.utf8EncodeChar c).getLast? = some 10 ↔ c = '\n' := by
  constructor
  · intro h
    by_cases hc : c.val.toNat < 128
    · rw [← Utf8.char_ofNat c, Utf8.utf8EncodeChar_ascii hc, List.getLast?_singleton] at h
      have hbyte := congrArg UInt8.toNat (Option.some.inj h)
      rw [UInt8.toNat_ofNat', Nat.mod_eq_of_lt (by omega)] at hbyte
      rw [← Utf8.char_ofNat c, hbyte]
      rfl
    · have hhigh := Utf8.utf8EncodeChar_high (Nat.le_of_not_lt hc) 10 (List.mem_of_getLast? h)
      exact absurd hhigh (by decide)
  · rintro rfl
    rfl

theorem manifestUpgradeBytes_utf8 (text : List Char) :
    manifestUpgradeBytes (ofList text).utf8 = (ofList (upgradedText text)).utf8 := by
  rcases List.eq_nil_or_concat text with rfl | ⟨before, last, rfl⟩
  · rfl
  · rw [List.concat_eq_append]
    have hne : before ++ [last] ≠ [] := List.append_ne_nil_of_right_ne_nil _ (List.cons_ne_nil _ _)
    have hsuffix : ∀ text : List Char, (ofList (text ++ upgradeLines.toList)).utf8 =
        (ofList text).utf8 ++ upgradeLines.utf8 := by
      intro text
      rw [String.ofList_append, String.ofList_toList, Utf8.utf8_append]
    have hclosed : ∀ text : List Char, (ofList (text ++ ['\n'])).utf8 =
        (ofList text).utf8 ++ [10] := by
      intro text
      rw [String.ofList_append, Utf8.utf8_append]
      rfl
    obtain ⟨byte, hbyte⟩ : ∃ byte, (String.utf8EncodeChar last).getLast? = some byte :=
      ⟨_, List.getLast?_eq_some_getLast String.utf8EncodeChar_ne_nil⟩
    have hlast : (ofList (before ++ [last])).utf8.getLast? = some byte := by
      rw [Utf8.utf8_ofList, List.flatMap_append, List.flatMap_singleton, List.getLast?_append,
        hbyte]
      rfl
    have hfeed : byte = 10 ↔ last = '\n' := by
      rw [← getLast?_utf8EncodeChar, hbyte, Option.some.injEq]
    rw [manifestUpgradeBytes, hlast, upgradedText, if_neg hne, closed, List.getLast?_concat,
      hsuffix, hclosed]
    dsimp only
    by_cases hnewline : last = '\n'
    · rw [if_pos (hfeed.mpr hnewline), if_pos (congrArg some hnewline)]
    · rw [if_neg fun heq => hnewline (hfeed.mp heq),
        if_neg fun heq => hnewline (Option.some.inj heq), hclosed, List.append_assoc _ [10] [10]]
      rfl

/-- The logical lines of an upgraded text: one more, and one less where the text ends in an open
line with nothing in it. -/
theorem logicalLines_upgradedText (content : String) :
    ∃ lines,
      javaPropertyLogicalLines (ofList (upgradedText content.toList)) =
        lines ++ ["store.version=2".toList] ∧
      javaPropertyLogicalLines content = lines ++ if EndsBare content then [[]] else [] := by
  have hversion : ∀ lines, (LogicalLines.run ⟨lines, [], false⟩
      (physicalLines upgradeLines.toList)).finish = lines ++ ["store.version=2".toList] :=
    fun lines => rfl
  rw [javaPropertyLogicalLines, String.toList_ofList, upgradedText]
  by_cases hnil : content.toList = []
  · refine ⟨[], ?_, ?_⟩
    · rw [if_pos hnil, List.nil_append]
      exact hversion []
    · have hcontent : content = "" := String.toList_inj.mp hnil
      rw [hcontent]
      rfl
  · obtain ⟨lines, hlines, hcontent⟩ := logicalLines_closed hnil upgradeLines.toList
    refine ⟨lines, ?_, hcontent⟩
    rw [if_neg hnil, List.append_assoc, List.singleton_append, hlines, hversion]

/-! ## What an upgrade does to the properties -/

def upgradeProperty : List UInt16 × List UInt16 := (storeVersionKey, javaPropertyAscii "2")

theorem decodeJavaProperty_upgrade :
    decodeJavaProperty "store.version=2".toList = .ok upgradeProperty := by
  decide +kernel

variable {properties : List (List UInt16 × List UInt16)}

theorem parseManifestStoreVersion_of_upgraded {content : String}
    (h : parseJavaProperties content = .ok (properties ++ [upgradeProperty])) :
    parseManifestStoreVersion content = .ok 2 := by
  have hversion : parseJavaI32 upgradeProperty.2 = some 2 := by decide +kernel
  rw [parseManifestStoreVersion, h, Except.ok_bind_eq, List.foldl_append, List.foldl_cons,
    List.foldl_nil, hversion]
  rfl

/-- What an upgraded file should be read as: it is refused exactly when the old file is, and
otherwise has the old properties and one more. -/
def UpgradeAddsOneProperty (content : String) : Prop :=
  ((∃ error, readJavaProperties (manifestUpgradeBytes content.utf8) = .error error) ↔
      ∃ error, parseJavaProperties content = .error error) ∧
    ∀ properties, parseJavaProperties content = .ok properties →
      readJavaProperties (manifestUpgradeBytes content.utf8) =
          .ok (properties ++ [upgradeProperty]) ∧
        readManifestStoreVersion (manifestUpgradeBytes content.utf8) = .ok 2

theorem readJavaProperties_upgraded (content : String) :
    ∃ lines,
      javaPropertyLogicalLines content = lines ++ (if EndsBare content then [[]] else []) ∧
      readJavaProperties (manifestUpgradeBytes content.utf8) = do
        let properties ← lines.mapM decodeJavaProperty
        return properties ++ [upgradeProperty] := by
  obtain ⟨lines, hupgraded, hcontent⟩ := logicalLines_upgradedText content
  refine ⟨lines, hcontent, ?_⟩
  have hbytes := manifestUpgradeBytes_utf8 content.toList
  rw [String.ofList_toList] at hbytes
  rw [hbytes, readJavaProperties, readToString_utf8, Except.ok_bind_eq, parseJavaProperties,
    hupgraded, List.mapM_append, List.mapM_cons, decodeJavaProperty_upgrade]
  rfl

theorem readManifestStoreVersion_of_upgraded {content : Bytes}
    (h : readJavaProperties content = .ok (properties ++ [upgradeProperty])) :
    readManifestStoreVersion content = .ok 2 := by
  obtain ⟨text, htext, hproperties⟩ := Except.bind_ok_iff.mp h
  rw [readManifestStoreVersion, htext]
  exact parseManifestStoreVersion_of_upgraded hproperties

/-- An upgrade adds one property unless the text ends in an open property that is still empty,
which is lost.  A text with a malformed escape is refused before and after. -/
theorem upgrade_adds_one_property_iff (content : String) :
    UpgradeAddsOneProperty content ↔
      (EndsBare content → ∃ line ∈ javaPropertyLogicalLines content, Malformed line) := by
  obtain ⟨lines, hcontent, hread⟩ := readJavaProperties_upgraded content
  have hparse : parseJavaProperties content = do
      let properties ← lines.mapM decodeJavaProperty
      let last ← (if EndsBare content then [[]] else []).mapM decodeJavaProperty
      return properties ++ last := by
    rw [parseJavaProperties, hcontent, List.mapM_append]
  cases hlines : lines.mapM decodeJavaProperty with
  | error error =>
    rw [hlines] at hread hparse
    constructor
    · intro _ hbare
      by_contra hnone
      have hwell : ∀ line ∈ javaPropertyLogicalLines content, ¬ Malformed line :=
        fun line hline hmalformed => hnone ⟨line, hline, hmalformed⟩
      obtain ⟨properties, hproperties⟩ := parseJavaProperties_ok_iff.mpr hwell
      rw [hparse] at hproperties
      cases hproperties
    · intro _
      refine ⟨⟨fun _ => ⟨error, hparse⟩, fun _ => ⟨error, hread⟩⟩, fun properties hproperties => ?_⟩
      rw [hparse] at hproperties
      cases hproperties
  | ok properties =>
    rw [hlines] at hread hparse
    by_cases hbare : EndsBare content
    · have hempty : parseJavaProperties content = .ok (properties ++ [([], [])]) := by
        rw [hparse, if_pos hbare]
        rfl
      constructor
      · rintro ⟨-, hsame⟩
        have hlonger := (hsame _ hempty).1
        rw [hread] at hlonger
        have hlength := congrArg List.length (Except.ok.inj hlonger)
        simp only [List.length_append, List.length_singleton] at hlength
        omega
      · intro hmalformed
        obtain ⟨line, hline, hline'⟩ := hmalformed hbare
        exact absurd hline' (parseJavaProperties_ok_iff.mp ⟨_, hempty⟩ line hline)
    · have hsame : parseJavaProperties content = .ok properties := by
        rw [hparse, if_neg hbare]
        exact congrArg Except.ok (List.append_nil properties)
      refine ⟨fun _ hyes => absurd hyes hbare, fun _ => ⟨?_, ?_⟩⟩
      · constructor
        · rintro ⟨error, herror⟩
          rw [hread] at herror
          cases herror
        · rintro ⟨error, herror⟩
          rw [hsame] at herror
          cases herror
      · intro properties' hproperties'
        rw [hsame] at hproperties'
        obtain rfl := Except.ok.inj hproperties'
        exact ⟨hread, readManifestStoreVersion_of_upgraded hread⟩

/-- A lone continuation at the end of an old manifest is an empty property, and the upgrade
loses it. -/
theorem upgrade_loses_empty_property : ¬ UpgradeAddsOneProperty "store.version=1\n\\\n" := by
  intro h
  obtain ⟨old, hold⟩ : ∃ old, old = (storeVersionKey, javaPropertyAscii "1") := ⟨_, rfl⟩
  have hparse : parseJavaProperties "store.version=1\n\\\n" = .ok [old, ([], [])] := by
    rw [hold]
    decide +kernel
  have hread : readJavaProperties (manifestUpgradeBytes "store.version=1\n\\\n".utf8) =
      .ok [old, upgradeProperty] := by
    rw [hold]
    decide +kernel
  have hlonger := (h.2 _ hparse).1
  rw [hread] at hlonger
  cases hlonger

end Froe
