import Froe.Lib.Related
import Froe.Lucene.DataInput

/-!
# Compound files

A `.cfs` is a header and the files of a segment one after another, and a `.cfe` is the
table of them.  The table has the names without the name of the segment.  What is written
for files reads back, unless a name without its segment begins with an underscore, which
the reader takes for one with a segment (`readsBack_iff`).
-/

namespace Froe

open List (append_assoc length_append map_cons)
open Except (bind_ok_iff)

namespace CompoundFile

open Reading LuceneReader

/-- `IndexFileNames.stripSegmentName`: what begins with the first dot or underscore after a leading
underscore. -/
def stripSegmentName (name : String) : String :=
  match name.toList with
  | '_' :: rest =>
    match rest.dropWhile fun c => c ≠ '.' ∧ c ≠ '_' with
    | [] => name
    | stripped => String.ofList stripped
  | _ => name

/-! ## Writing -/

def dataCodec : String := "CompoundFileWriterData"

def entryCodec : String := "CompoundFileWriterEntries"

def version : Int := 0

/-- Where one file is put. -/
structure PlacedFile where
  /-- The name without the name of the segment. -/
  name : String
  offset : Nat
  length : Nat

/-- Concatenates files, and notes where each is. -/
structure Writer where
  data : Bytes
  entries : List PlacedFile

namespace Writer

/-- Opens a `.cfs` and writes its header. -/
def new : Except Error Writer := do
  return ⟨← CodecOutput.writeHeader dataCodec version, []⟩

/-- Copies one file in. -/
def add (writer : Writer) (name : String) (source : Bytes) : Writer where
  data := writer.data ++ source
  entries := writer.entries ++ [⟨stripSegmentName name, writer.data.length, source.length⟩]

end Writer

/-- Writes a `.cfs` of files. -/
def writeCompoundFile (files : List (String × Bytes)) : Except Error Writer := do
  let writer ← Writer.new
  return files.foldl (fun writer file => writer.add file.1 file.2) writer

/-- The row of one file. -/
def writeEntry (entry : PlacedFile) : Except Error Bytes := do
  let name ← CodecOutput.writeString entry.name
  return name ++ (CodecOutput.writeLong entry.offset ++ CodecOutput.writeLong entry.length)

/-- Writes a `.cfe`: a count, and the row of each file. -/
def writeEntryTable (entries : List PlacedFile) : Except Error Bytes := do
  let header ← CodecOutput.writeHeader entryCodec version
  let written ← entries.mapM writeEntry
  return header ++ (CodecOutput.writeVint entries.length ++ written.flatten)

/-! ## Reading -/

def nameBound : Nat := 4096

/-- One file inside a `.cfs`. -/
structure Entry where
  /-- The name without the name of the segment. -/
  name : String
  offset : Int64
  length : Int64

/-- A parsed `.cfe`. -/
structure TableOfContents where
  entries : List Entry

/-- Looks a file up by a name that may carry the name of the segment. -/
def TableOfContents.entry (contents : TableOfContents) (name : String) :
    Option Entry :=
  contents.entries.find? fun entry => decide (entry.name = stripSegmentName name)

/-- A sum of longs, saturated. -/
def saturatingAdd (a b : Int64) : Int := max (-2 ^ 63) (min (2 ^ 63 - 1) (a.toInt + b.toInt))

/-- Reads one row, after the rows before it, and checks it against the length of the `.cfs`. -/
def readEntry (dataLength : Int64) (entries : List Entry) : LuceneReader Entry := do
  let nameOffset ← position
  let name ← readString nameBound
  if name.toList.head? = some '_' then
    throw (.malformed (← fileName) nameOffset (s!"entry name {repr name} carries a segment prefix; " ++
      "Lucene's own writer strips it, and two names for one file is not a namespace froe reads"))
  else if name ∈ entries.map Entry.name then
    throw (.malformed (← fileName) nameOffset s!"duplicate entry {repr name}")
  else
    let boundsOffset ← position
    let offset ← readLong
    let length ← readLong
    if offset < 0 ∨ length < 0 ∨ dataLength.toInt < saturatingAdd offset length then
      throw (.malformed (← fileName) boundsOffset
        (s!"entry {repr name} spans {offset}..{saturatingAdd offset length} of a compound file " ++
          s!"{dataLength} bytes long"))
    else return ⟨name, offset, length⟩

/-- Reads a number of rows. -/
def readEntries (dataLength : Int64) :
    Nat → List Entry → LuceneReader (List Entry)
  | 0, entries => return entries
  | count + 1, entries => do
    let entry ← readEntry dataLength entries
    readEntries dataLength count (entries ++ [entry])

/-- Reads a `.cfe`, given the length of the `.cfs`. -/
def readTableOfContents (dataLength : Int64) : LuceneReader TableOfContents := do
  let _ ← readCodecHeader entryCodec (Int32.ofInt version)
    (Int32.ofInt version)
  let countOffset ← position
  let count ← readVariableInt
  if count < 0 then
    throw (.malformed (← fileName) countOffset s!"entry count {count} is negative")
  else
    let remaining ← remaining
    let count := count.toInt.toNat
    if remaining < count * 17 then
      throw (.implausibleLength (← fileName) countOffset count (remaining / 17))
    else return ⟨← readEntries dataLength count []⟩

/-- The pair of files that is written gives each file back, by its full name and by the name without
the segment. -/
def ReadsBack (fileName : String) (files : List (String × Bytes)) : Prop :=
  ∃ writer table contents, ∃ (dataLength : Int64) (cursor : Cursor),
    writeCompoundFile files = .ok writer ∧ writeEntryTable writer.entries = .ok table ∧
    dataLength.toInt = writer.data.length ∧
    (readTableOfContents dataLength).run (.start fileName table) = .ok (contents, cursor) ∧
    ∀ file ∈ files, ∃ entry, contents.entry file.1 = some entry ∧
      contents.entry (stripSegmentName file.1) = some entry ∧
      writer.data.slice entry.offset.toInt.toNat entry.length.toInt.toNat = file.2

/-- No name without its segment begins with an underscore, and the sizes are within the bounds of
the format. -/
def Fits (files : List (String × Bytes)) : Prop :=
  (∀ file ∈ files, (stripSegmentName file.1).toList.head? ≠ some '_' ∧
    (stripSegmentName file.1).utf8.length ≤ nameBound) ∧
  files.length < 2 ^ 31 ∧ 31 + (files.map fun file => file.2.length).sum < 2 ^ 63

/-! ## Where files are put -/

def placed (offset : Nat) : List (String × Bytes) → List PlacedFile
  | [] => []
  | file :: files =>
    ⟨stripSegmentName file.1, offset, file.2.length⟩ :: placed (offset + file.2.length) files

theorem foldl_add (files : List (String × Bytes)) (writer : Writer) :
    files.foldl (fun writer file => writer.add file.1 file.2) writer =
      ⟨writer.data ++ (files.map Prod.snd).flatten,
        writer.entries ++ placed writer.data.length files⟩ := by
  induction files generalizing writer with
  | nil =>
    rw [List.foldl_nil, List.map_nil, List.flatten_nil, List.append_nil, placed, List.append_nil]
  | cons file files ih =>
    rw [List.foldl_cons, ih, Writer.add, placed, map_cons, List.flatten_cons,
      append_assoc, append_assoc, length_append]
    rfl

theorem length_placed (offset : Nat) (files : List (String × Bytes)) :
    (placed offset files).length = files.length := by
  induction files generalizing offset with
  | nil => rfl
  | cons file files ih => rw [placed, List.length_cons, List.length_cons, ih]

theorem map_name_placed (offset : Nat) (files : List (String × Bytes)) :
    (placed offset files).map PlacedFile.name = files.map fun file => stripSegmentName file.1 := by
  induction files generalizing offset with
  | nil => rfl
  | cons file files ih => rw [placed, map_cons, map_cons, ih]

/-- Each file is at its place, inside the data. -/
theorem placed_spec (before : Bytes) (files : List (String × Bytes)) :
    List.Forall₂ (fun entry file => entry.name = stripSegmentName file.1 ∧
      entry.offset + entry.length ≤ (before ++ (files.map Prod.snd).flatten).length ∧
      (before ++ (files.map Prod.snd).flatten).slice entry.offset entry.length = file.2)
      (placed before.length files) files := by
  induction files generalizing before with
  | nil => exact .nil
  | cons file files ih =>
    have hlater := ih (before ++ file.2)
    rw [placed, map_cons, List.flatten_cons, ← append_assoc, ← length_append]
    refine .cons ⟨rfl, ?_, ?_⟩ hlater
    · rw [length_append, length_append]
      exact Nat.le_add_right _ _
    · exact Bytes.slice_middle rfl rfl

/-! ## Reading the rows back -/

/-- A row as it is read. -/
def PlacedFile.toEntry (entry : PlacedFile) : Entry :=
  ⟨entry.name, Int64.ofInt entry.offset, Int64.ofInt entry.length⟩

/-- What the reader asks of a name. -/
def PlainName (name : String) : Prop := name.toList.head? ≠ some '_' ∧ name.utf8.length ≤ nameBound

theorem toInt_ofInt_long {n : Nat} (h : n < 2 ^ 63) : (Int64.ofInt n).toInt = n :=
  Int64.toInt_ofInt_of_le (by omega) (by omega)

variable {entry : PlacedFile} {dataLength : Int64} {entries : List Entry}
  {placedFiles : List PlacedFile} {written : List Bytes}

/-- A row is read back when its name is plain. -/
theorem readsIff_entry {bytes : Bytes} (h : writeEntry entry = .ok bytes) (hbounds : ((entry.offset + entry.length : Nat) : Int) ≤ dataLength.toInt) (hnew : entry.name ∉ entries.map Entry.name) :
    ReadsIff (readEntry dataLength entries) bytes entry.toEntry (PlainName entry.name) := by
  obtain ⟨name, hname, h⟩ := bind_ok_iff.mp h
  cases h
  have hlong := dataLength.toInt_lt
  have hoffset : (Int64.ofInt entry.offset).toInt = entry.offset := toInt_ofInt_long (by omega)
  have hlength : (Int64.ofInt entry.length).toInt = entry.length := toInt_ofInt_long (by omega)
  refine reads_position fun nameOffset => ?_
  refine ((readsIff_string hname nameBound).bind fun _ => ?_).congr and_comm
  by_cases hhead : entry.name.toList.head? = some '_'
  · rw [if_pos hhead]
    exact ⟨fun hplain => absurd hhead hplain, fun _ => refuses_fileName _ _⟩
  · rw [if_neg hhead, if_neg hnew]
    refine Reads.iff ?_ |>.congr (iff_of_true trivial hhead)
    refine (reads_position fun boundsOffset => Reads.iff ?_).1 trivial
    refine (reads_long _).bind ?_
    have hinside : ¬ (Int64.ofInt entry.offset < 0 ∨ Int64.ofInt entry.length < 0 ∨
        dataLength.toInt < saturatingAdd (Int64.ofInt entry.offset) (Int64.ofInt entry.length)) := by
      rw [Int64.lt_iff_toInt_lt, Int64.lt_iff_toInt_lt, saturatingAdd, hoffset, hlength]
      have hzero : (0 : Int64).toInt = 0 := rfl
      omega
    refine (reads_long _).andThen ?_
    rw [if_neg hinside]
    exact reads_pure _

/-- Rows are read back when every name is plain. -/
theorem readsIff_entries (h : placedFiles.mapM writeEntry = .ok written)
    (hbounds : ∀ entry ∈ placedFiles,
      ((entry.offset + entry.length : Nat) : Int) ≤ dataLength.toInt)
    (hnodup : (entries.map Entry.name ++ placedFiles.map PlacedFile.name).Nodup) :
    ReadsIff (readEntries dataLength placedFiles.length entries) written.flatten
      (entries ++ placedFiles.map PlacedFile.toEntry) (∀ entry ∈ placedFiles, PlainName entry.name) := by
  induction placedFiles generalizing written entries with
  | nil =>
    cases h
    rw [List.map_nil, List.append_nil]
    exact (reads_pure entries).iff.congr ⟨fun _ _ => nofun, fun _ => trivial⟩
  | cons entry placedFiles ih =>
    obtain ⟨bytes, later, hbytes, hlater, rfl⟩ := Except.mapM_cons_ok_iff.mp h
    have hnew : entry.name ∉ entries.map Entry.name := fun hmem =>
      (List.nodup_append.mp hnodup).2.2 _ hmem _ List.mem_cons_self rfl
    have hentry := readsIff_entry hbytes (hbounds entry List.mem_cons_self) hnew
    have hnodup' : ((entries ++ [entry.toEntry]).map Entry.name ++
        placedFiles.map PlacedFile.name).Nodup := by
      rw [List.map_append, append_assoc]
      exact hnodup
    have hrest := ih hlater (fun entry h => hbounds entry (List.mem_cons_of_mem _ h)) hnodup'
    rw [append_assoc] at hrest
    refine (hentry.bind fun _ => hrest).congr ?_
    rw [List.forall_mem_cons]

theorem length_writeEntry {bytes : Bytes} (h : writeEntry entry = .ok bytes) :
    17 ≤ bytes.length := by
  obtain ⟨name, hname, h⟩ := bind_ok_iff.mp h
  cases h
  have hpos : 0 < name.length := List.length_pos_iff.mpr (writeString_ne_nil hname)
  rw [length_append, length_append, CodecOutput.writeLong, CodecOutput.writeLong,
    Bytes.length_be, Bytes.length_be]
  omega

theorem length_rows (h : placedFiles.mapM writeEntry = .ok written) :
    placedFiles.length * 17 ≤ written.flatten.length := by
  induction placedFiles generalizing written with
  | nil => exact Nat.zero_le _
  | cons entry placedFiles ih =>
    obtain ⟨bytes, later, hbytes, hlater, rfl⟩ := Except.mapM_cons_ok_iff.mp h
    have hrow := length_writeEntry hbytes
    have hrows := ih hlater
    rw [List.length_cons, List.flatten_cons, length_append]
    omega

/-- A table is read back when every name is plain. -/
theorem readsIff_table {table : Bytes} (h : writeEntryTable placedFiles = .ok table)
    (hcount : placedFiles.length ≤ CodecOutput.maximumI32) (hbounds : ∀ entry ∈ placedFiles,
      ((entry.offset + entry.length : Nat) : Int) ≤ dataLength.toInt)
    (hnodup : (placedFiles.map PlacedFile.name).Nodup) :
    ReadsIff (readTableOfContents dataLength) table ⟨placedFiles.map PlacedFile.toEntry⟩
      (∀ entry ∈ placedFiles, PlainName entry.name) := by
  obtain ⟨header, hheader, h⟩ := bind_ok_iff.mp h
  obtain ⟨written, hwritten, h⟩ := bind_ok_iff.mp h
  cases h
  have hint := toInt_ofInt_length hcount
  have hneg : ¬ Int32.ofInt (placedFiles.length : Int) < 0 := by
    rw [Int32.lt_iff_toInt_lt, hint]
    exact Int.not_lt.mpr (Int.natCast_nonneg _)
  have hrows := length_rows hwritten
  have hentries : ReadsIff (readEntries dataLength placedFiles.length []) written.flatten
      ([] ++ placedFiles.map PlacedFile.toEntry) _ := readsIff_entries hwritten hbounds hnodup
  refine (reads_header hheader (by decide) (by decide)).bindIff ?_
  refine reads_position fun countOffset => (reads_variableInt _).bindIff ?_
  rw [if_neg hneg]
  refine reads_remaining fun remaining hremaining => ?_
  rw [hint, Int.toNat_natCast, if_neg (Nat.not_lt.mpr (hrows.trans hremaining))]
  exact hentries.andThen (reads_pure _)

theorem length_readEntries {count : Nat} {read : List Entry} {cursor cursor' : Cursor}
    (h : (readEntries dataLength count entries).run cursor = .ok (read, cursor')) :
    read.length = entries.length + count := by
  induction count generalizing entries cursor with
  | zero =>
    obtain ⟨rfl, -⟩ := StateT.pure_ok_iff.mp h
    rfl
  | succ count ih =>
    obtain ⟨entry, cursor₁, -, h⟩ := StateT.bind_ok_iff.mp h
    rw [ih h, length_append, List.length_singleton, Nat.add_assoc, Nat.add_comm 1]

/-- A table that is read has no more rows than its count can say. -/
theorem length_entries_le {contents : TableOfContents} {cursor cursor' : Cursor}
    (h : (readTableOfContents dataLength).run cursor = .ok (contents, cursor')) :
    contents.entries.length ≤ CodecOutput.maximumI32 := by
  obtain ⟨header, cursor₁, -, h⟩ := StateT.bind_ok_iff.mp h
  obtain ⟨offset, cursor₂, -, h⟩ := StateT.bind_ok_iff.mp h
  obtain ⟨count, cursor₃, -, h⟩ := StateT.bind_ok_iff.mp h
  split at h
  · obtain ⟨name, cursor₄, -, h⟩ := StateT.bind_ok_iff.mp h
    cases h
  · obtain ⟨remaining, cursor₄, -, h⟩ := StateT.bind_ok_iff.mp h
    dsimp only at h
    split at h
    · obtain ⟨name, cursor₅, -, h⟩ := StateT.bind_ok_iff.mp h
      cases h
    · obtain ⟨entries, cursor₅, hentries, h⟩ := StateT.bind_ok_iff.mp h
      obtain ⟨rfl, -⟩ := StateT.pure_ok_iff.mp h
      have hlt := count.toInt_lt
      rw [length_readEntries hentries, CodecOutput.maximumI32, List.length_nil]
      omega

/-! ## The round trip -/

theorem exists_table (h : ∀ entry ∈ placedFiles, PlainName entry.name) :
    ∃ table, writeEntryTable placedFiles = .ok table := by
  obtain ⟨header, hheader, -⟩ := @exists_writeHeader entryCodec version (by decide) (by decide)
  obtain ⟨written, hwritten⟩ : ∃ written, placedFiles.mapM writeEntry = .ok written :=
    Except.exists_mapM fun entry hentry =>
      have hname := writeString_ok_iff.mpr ⟨(h entry hentry).2.trans (by decide), rfl⟩
      ⟨_, bind_ok_iff.mpr ⟨_, hname, rfl⟩⟩
  exact ⟨_, bind_ok_iff.mpr ⟨header, hheader, bind_ok_iff.mpr
    ⟨written, hwritten, rfl⟩⟩⟩

/-- A `.cfs` is its header and the files, and the rows are where the files are put. -/
theorem writeCompoundFile_ok (files : List (String × Bytes)) :
    ∃ header, header.length = 31 ∧ writeCompoundFile files =
      .ok ⟨header ++ (files.map Prod.snd).flatten, placed header.length files⟩ := by
  obtain ⟨header, hheader, hlength⟩ := @exists_writeHeader dataCodec version (by decide) (by decide)
  refine ⟨header, hlength, ?_⟩
  have hnew : Writer.new = .ok ⟨header, []⟩ := bind_ok_iff.mpr ⟨header, hheader, rfl⟩
  refine bind_ok_iff.mpr ⟨_, hnew, ?_⟩
  rw [foldl_add]
  rfl

theorem stripSegmentName_plain {name : String} (h : name.toList.head? ≠ some '_') :
    stripSegmentName name = name := by
  rw [stripSegmentName]
  split
  · rename_i rest heq
    rw [heq] at h
    exact absurd rfl h
  · rfl

/-- The files are read back exactly when no name without its segment begins with an underscore and
the sizes are within the bounds of the format. -/
theorem readsBack_iff (fileName : String) {files : List (String × Bytes)}
    (hdistinct : (files.map fun file => stripSegmentName file.1).Nodup) :
    ReadsBack fileName files ↔ Fits files := by
  obtain ⟨header, hheader, hwriter⟩ := writeCompoundFile_ok files
  have hplaced := placed_spec header files
  have hnames := map_name_placed header.length files
  have hsize : (header ++ (files.map Prod.snd).flatten).length =
      31 + (files.map fun file => file.2.length).sum := by
    rw [length_append, hheader, List.length_flatten, List.map_map]
    rfl
  have hnodup : ((placed header.length files).map PlacedFile.name).Nodup := by
    rw [hnames]
    exact hdistinct
  have hbounds : ∀ dataLength : Int64,
      dataLength.toInt = (header ++ (files.map Prod.snd).flatten).length →
      ∀ entry ∈ placed header.length files,
        ((entry.offset + entry.length : Nat) : Int) ≤ dataLength.toInt := by
    intro dataLength hlength entry hentry
    obtain ⟨file, -, -, hinside, -⟩ := Related.exists_of_mem hplaced hentry
    rw [hlength]
    exact_mod_cast hinside
  constructor
  · rintro ⟨writer, table, contents, dataLength, cursor, hfiles, htable, hlength, hread, hfound⟩
    cases hwriter.symm.trans hfiles
    dsimp only at hlength
    -- every file is found in a row of its own, so that there are no more files than rows
    have hcount : files.length ≤ CodecOutput.maximumI32 := by
      have hsubset : (files.map fun file => stripSegmentName file.1) ⊆
          contents.entries.map Entry.name := by
        intro name hname
        obtain ⟨file, hfile, rfl⟩ := List.mem_map.mp hname
        obtain ⟨entry, hentry, -⟩ := hfound file hfile
        rw [TableOfContents.entry] at hentry
        have hname := List.find?_some hentry
        exact List.mem_map.mpr ⟨entry, List.mem_of_find?_eq_some hentry, of_decide_eq_true hname⟩
      have hle := (hdistinct.subperm hsubset).length_le
      rw [List.length_map, List.length_map] at hle
      exact hle.trans (length_entries_le hread)
    have htableIff := readsIff_table htable (by rw [length_placed]; exact hcount)
      (hbounds dataLength hlength) hnodup
    have hplain := (htableIff.of_ok hread).1
    refine ⟨fun file hfile => ?_, Nat.lt_succ_of_le hcount, ?_⟩
    · obtain ⟨entry, hentry, hname, -⟩ := Related.exists_of_mem hplaced.flip hfile
      rw [← hname]
      exact hplain entry hentry
    · have hlt := dataLength.toInt_lt
      rw [← hsize]
      omega
  · rintro ⟨hplain, hcount, hfits⟩
    have hplainRows : ∀ entry ∈ placed header.length files, PlainName entry.name := by
      intro entry hentry
      obtain ⟨file, hfile, hname, -⟩ := Related.exists_of_mem hplaced hentry
      rw [hname]
      exact hplain file hfile
    obtain ⟨table, htable⟩ := exists_table hplainRows
    have hlength : (Int64.ofInt (header ++ (files.map Prod.snd).flatten).length).toInt =
        (header ++ (files.map Prod.snd).flatten).length := toInt_ofInt_long (by rw [hsize]; exact hfits)
    have htableIff := readsIff_table htable (by rw [length_placed]; exact Nat.le_of_lt_succ hcount)
      (hbounds _ hlength) hnodup
    obtain ⟨cursor, hread⟩ := htableIff.ok hplainRows fileName
    refine ⟨_, table, _, _, cursor, hwriter, htable, hlength, hread, fun file hfile => ?_⟩
    obtain ⟨entry, hentry, hname, hinside, hslice⟩ := Related.exists_of_mem hplaced.flip hfile
    have hnames' : (((placed header.length files).map PlacedFile.toEntry).map Entry.name).Nodup := by
      rw [List.map_map]
      exact hnodup
    have hfind : (TableOfContents.mk ((placed header.length files).map PlacedFile.toEntry)).entry
        file.1 = some entry.toEntry :=
      (Related.find_label_iff hnames').mpr ⟨List.mem_map_of_mem hentry, hname⟩
    have hoffset : entry.toEntry.offset.toInt = entry.offset :=
      toInt_ofInt_long (by rw [hsize] at hinside; omega)
    have hentryLength : entry.toEntry.length.toInt = entry.length :=
      toInt_ofInt_long (by rw [hsize] at hinside; omega)
    refine ⟨entry.toEntry, hfind, ?_, ?_⟩
    · rw [TableOfContents.entry, stripSegmentName_plain (hplain file hfile).1]
      exact hfind
    · rw [hoffset, hentryLength]
      exact hslice

/-- A file of a format of a field. -/
theorem not_readsBack_perField : ¬ ReadsBack "_0.cfe" [("_0_Lucene41_0.tim", [1, 2, 3])] := by
  intro h
  have hfits := (readsBack_iff "_0.cfe" (by decide)).mp h
  exact (hfits.1 _ List.mem_cons_self).1 (by decide)

end CompoundFile

end Froe
