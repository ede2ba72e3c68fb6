-- SUMMARY: The export of a legacy database, and what an import makes of any beginning of the exported file.
import Supermemory.Bytes
import Supermemory.JsonText
import Supermemory.Storage.Reimport

/-!
# The legacy export

The rows of the legacy database are exported to a file of JSON lines, which the import
reads. The last line says that the export is complete. A file whose end is missing, because
the export failed or stopped, is refused as a whole: no row of it is taken over.
-/

namespace Startup

open Storage

-- ---------------------------------------------------------------------------
-- The legacy database
-- ---------------------------------------------------------------------------

/-- The errors of an export that reads the database. -/
inductive LegacyExportError where
  | query
  | invalidRow (name : String)
  deriving DecidableEq, Repr

/-- The embedded database: the rows that a query returns, or none when it fails. -/
structure Pglite where
  query : String → Option (List Value)

def objectString (value : Value) (key : String) : Except LegacyExportError String :=
  match (value.asObject.bind fun object => Object.get object key).bind Value.asStr with
  | none => .error (.invalidRow key)
  | some text => .ok text

def tablesQuery : String :=
  "SELECT table_name::text FROM information_schema.tables WHERE table_schema='public' AND table_type='BASE TABLE' ORDER BY table_name"

/-- The query for the rows of a table, with the quotes in its name doubled. -/
def rowsQuery (table : String) : String :=
  let quoted := String.ofList (Text.replace ['"'] ['"', '"'] table.toList)
  "SELECT row_to_json(export_row) AS row FROM (SELECT * FROM \"" ++ quoted ++ "\") AS export_row"

def tableNames (database : Pglite) : Except LegacyExportError (List String) :=
  match database.query tablesQuery with
  | none => .error .query
  | some tables => tables.mapM fun row => objectString row "table_name"

-- ---------------------------------------------------------------------------
-- Records
-- ---------------------------------------------------------------------------

def manifest (tables : List String) : Value :=
  .object [("type", .string "manifest"), ("format", .number "1"), ("tables", .array (tables.map .string))]

def rowRecord (table : String) (row : Object) : Value :=
  .object [("type", .string "row"), ("table", .string table), ("row", .object row)]

def completeRecord : Value := .object [("type", .string "complete")]

/-- The records that were written, and how writing them ended. -/
structure Written where
  records : List Value
  outcome : Except LegacyExportError Unit

namespace Written

def failed (error : LegacyExportError) : Written := ⟨[], .error error⟩

def record (value : Value) : Written := ⟨[value], .ok ()⟩

/-- What comes next is written unless there was an error. -/
def andThen (first next : Written) : Written :=
  match first.outcome with
  | .error _ => first
  | .ok () => ⟨first.records ++ next.records, next.outcome⟩

end Written

/-- The row that a result holds. -/
def resultRow (result : Value) : Option Object :=
  (result.asObject.bind fun result => Object.get result "row").bind Value.asObject

def writeRows (table : String) : List Value → Written
  | [] => ⟨[], .ok ()⟩
  | result :: rest =>
    match resultRow result with
    | none => .failed (.invalidRow table)
    | some row => (Written.record (rowRecord table row)).andThen (writeRows table rest)

def writeTables (database : Pglite) : List String → Written
  | [] => ⟨[], .ok ()⟩
  | table :: rest =>
    match database.query (rowsQuery table) with
    | none => .failed .query
    | some results => (writeRows table results).andThen (writeTables database rest)

def exportDatabase (database : Pglite) : Written :=
  match tableNames database with
  | .error e => .failed e
  | .ok tables => (Written.record (manifest tables)).andThen ((writeTables database tables).andThen (.record completeRecord))

/-- The bytes of the file: each record is written on a line. -/
def exportFile (write : Value → String) (records : List Value) : Bytes :=
  Framing.framed Bytes.lineFeed (records.map fun record => Bytes.encode (write record).toList)

-- ---------------------------------------------------------------------------
-- What is exported
-- ---------------------------------------------------------------------------

/-- The rows of the tables, table by table, if every query returns rows. -/
def databaseRows (database : Pglite) : List String → Option LegacyTables
  | [] => some []
  | table :: rest => do
    let results ← database.query (rowsQuery table)
    let rows ← results.mapM resultRow
    let more ← databaseRows database rest
    return rows.map (table, ·) ++ more

mutual

/-- A value after it was written and read: numbers are what the parser makes of them. -/
def reread (parsed : String → String) : Value → Value
  | .number text => .number (parsed text)
  | .array items => .array (rereadItems parsed items)
  | .object fields => .object (rereadFields parsed fields)
  | value => value

def rereadItems (parsed : String → String) : List Value → List Value
  | [] => []
  | item :: rest => reread parsed item :: rereadItems parsed rest

def rereadFields (parsed : String → String) : Object → Object
  | [] => []
  | (name, value) :: rest => (name, reread parsed value) :: rereadFields parsed rest

end

/-- What the export and the import rely on of the JSON texts of a record: the text is one line, it is read
    back, and no beginning of it is a JSON text. -/
structure Legible (write : Value → String) (fromStr : String → Option Value) (parsed : String → String)
    (record : Value) : Prop where
  nonempty : write record ≠ ""
  oneLine : '\n' ∉ (write record).toList ∧ '\r' ∉ (write record).toList
  readsBack : fromStr (write record) = some (reread parsed record)
  closed : ∀ part, part <+: (write record).toList → part ≠ (write record).toList → fromStr (String.ofList part) = none

/-- The rows of the tables as they are read. -/
def rereadTables (parsed : String → String) (tables : LegacyTables) : LegacyTables :=
  tables.map fun row => (row.1, rereadFields parsed row.2)

-- ---------------------------------------------------------------------------
-- The records of an export
-- ---------------------------------------------------------------------------

variable {database : Pglite} {importer : Importer} {write : Value → String} {parsed : String → String}

namespace Written

theorem andThen_error {first next : Written} {e : LegacyExportError} (h : first.outcome = .error e) :
    first.andThen next = first := by
  unfold andThen
  rw [h]

theorem andThen_ok {first next : Written} (h : first.outcome = .ok ()) :
    first.andThen next = ⟨first.records ++ next.records, next.outcome⟩ := by
  unfold andThen
  rw [h]

end Written

def rowRecords (rows : LegacyTables) : List Value := rows.map fun row => rowRecord row.1 row.2

/-- The rows of a table, up to the first result that holds none. -/
theorem writeRows_records (table : String) (results : List Value) : ∃ rows : List Object,
    (writeRows table results).records = rowRecords (rows.map (table, ·)) ∧
    ((writeRows table results).outcome = .ok () → results.mapM resultRow = some rows) := by
  induction results with
  | nil => exact ⟨[], rfl, fun _ => rfl⟩
  | cons result rest ih =>
    rw [writeRows]
    cases hrow : resultRow result with
    | none => exact ⟨[], rfl, fun h => by cases h⟩
    | some row =>
      obtain ⟨rows, hrecords, hrows⟩ := ih
      refine ⟨row :: rows, ?_, fun h => ?_⟩
      · simp [Written.andThen, Written.record, hrecords, rowRecords]
      · rw [List.mapM_cons, hrow, hrows h]
        rfl

theorem writeTables_records (database : Pglite) (tables : List String) : ∃ rows,
    (writeTables database tables).records = rowRecords rows ∧
    ((writeTables database tables).outcome = .ok () → databaseRows database tables = some rows) := by
  induction tables with
  | nil => exact ⟨[], rfl, fun _ => rfl⟩
  | cons table rest ih =>
    rw [writeTables]
    cases hquery : database.query (rowsQuery table) with
    | none => exact ⟨[], rfl, fun h => by cases h⟩
    | some results =>
      obtain ⟨rows, hrecords, hrows⟩ := writeRows_records table results
      dsimp only
      cases houtcome : (writeRows table results).outcome with
      | error e =>
        rw [Written.andThen_error houtcome]
        exact ⟨rows.map (table, ·), hrecords, fun h => by rw [houtcome] at h; cases h⟩
      | ok =>
        obtain ⟨more, hmore, hrest⟩ := ih
        rw [Written.andThen_ok houtcome]
        refine ⟨rows.map (table, ·) ++ more, ?_, fun h => ?_⟩
        · simp [hrecords, hmore, rowRecords]
        · rw [databaseRows, hquery, Option.bind_eq_bind, Option.bind_some, hrows houtcome, hrest h]
          rfl

/-- An export is the manifest, rows, and the last record. One that fails has no last record. -/
theorem exportDatabase_records (database : Pglite) :
    ((exportDatabase database).records = [] ∧ (exportDatabase database).outcome ≠ .ok ()) ∨ ∃ tables rows,
      ((exportDatabase database).outcome ≠ .ok () ∧
        (exportDatabase database).records = manifest tables :: rowRecords rows) ∨
      ((exportDatabase database).outcome = .ok () ∧ tableNames database = .ok tables ∧
        databaseRows database tables = some rows ∧
        (exportDatabase database).records = manifest tables :: rowRecords rows ++ [completeRecord]) := by
  unfold exportDatabase
  cases hnames : tableNames database with
  | error e => exact .inl ⟨rfl, fun h => by cases h⟩
  | ok tables =>
    obtain ⟨rows, hrecords, hrows⟩ := writeTables_records database tables
    refine .inr ⟨tables, rows, ?_⟩
    cases houtcome : (writeTables database tables).outcome with
    | error e => exact .inl ⟨by simp [Written.andThen, Written.record, houtcome], by simp [Written.andThen, Written.record, houtcome, hrecords]⟩
    | ok => exact .inr ⟨by simp [Written.andThen, Written.record, houtcome], rfl, hrows houtcome, by simp [Written.andThen, Written.record, houtcome, hrecords]⟩

-- ---------------------------------------------------------------------------
-- Reading records
-- ---------------------------------------------------------------------------

def recordLines (write : Value → String) (records : List Value) : List (Option String) :=
  records.map fun record => some (write record)

/-- The line of a row adds the row. -/
theorem readLines_row {table : String} {row : Object} (h : Legible write importer.fromStr parsed (rowRecord table row))
    (number : Nat) (rest : List (Option String)) (tables : LegacyTables) (complete : Bool) :
    readLines importer number (some (write (rowRecord table row)) :: rest) (tables, complete) =
      readLines importer (number + 1) rest (tables ++ [(table, rereadFields parsed row)], complete) := by
  rw [readLines, h.readsBack]
  rfl

theorem readLines_manifest {names : List String} (h : Legible write importer.fromStr parsed (manifest names))
    (number : Nat) (rest : List (Option String)) (tables : LegacyTables) (complete : Bool) :
    readLines importer number (some (write (manifest names)) :: rest) (tables, complete) =
      readLines importer (number + 1) rest (tables, complete) := by
  rw [readLines, h.readsBack]
  rfl

theorem readLines_complete (h : Legible write importer.fromStr parsed completeRecord)
    (number : Nat) (rest : List (Option String)) (tables : LegacyTables) (complete : Bool) :
    readLines importer number (some (write completeRecord) :: rest) (tables, complete) =
      readLines importer (number + 1) rest (tables, true) := by
  rw [readLines, h.readsBack]
  rfl

theorem readLines_rows {rows : LegacyTables} (h : ∀ record ∈ rowRecords rows, Legible write importer.fromStr parsed record)
    (number : Nat) (rest : List (Option String)) (tables : LegacyTables) (complete : Bool) :
    readLines importer number (recordLines write (rowRecords rows) ++ rest) (tables, complete) =
      readLines importer (number + rows.length) rest (tables ++ rereadTables parsed rows, complete) := by
  induction rows generalizing number tables with
  | nil => simp [recordLines, rowRecords, rereadTables]
  | cons row rows ih =>
    obtain ⟨hrow, hrows⟩ := List.forall_mem_cons.mp h
    have hone := readLines_row hrow number (recordLines write (rowRecords rows) ++ rest) tables complete
    have hnumber : number + 1 + rows.length = number + (rows.length + 1) := by omega
    refine hone.trans ((ih hrows _ _).trans ?_)
    simp [rereadTables, hnumber]

/-- What is left of an export without its last record is not complete. -/
theorem readLines_unfinished {names : List String} {rows : LegacyTables} {taken : List Value}
    (hlegible : ∀ record ∈ taken, Legible write importer.fromStr parsed record)
    (htaken : taken <+: manifest names :: rowRecords rows) (rest : List (Option String)) : ∃ number tables,
    readLines importer 1 (recordLines write taken ++ rest) ([], false) = readLines importer number rest (tables, false) := by
  cases taken with
  | nil => exact ⟨1, [], rfl⟩
  | cons record taken =>
    obtain ⟨rfl, hbehind⟩ := List.cons_prefix_cons.mp htaken
    obtain ⟨hmanifest, hrows⟩ := List.forall_mem_cons.mp hlegible
    obtain ⟨k, rfl⟩ : ∃ k, taken = rowRecords (rows.take k) := by
      refine ⟨taken.length, (List.prefix_iff_eq_take.mp hbehind).trans ?_⟩
      simp [rowRecords, List.map_take]
    have hfirst := readLines_manifest hmanifest 1 (recordLines write (rowRecords (rows.take k)) ++ rest) [] false
    exact ⟨_, _, hfirst.trans (readLines_rows hrows _ _ _ _)⟩

theorem readLines_finished {names : List String} {rows : LegacyTables}
    (hlegible : ∀ record ∈ manifest names :: rowRecords rows ++ [completeRecord],
      Legible write importer.fromStr parsed record) :
    readLines importer 1 (recordLines write (manifest names :: rowRecords rows ++ [completeRecord])) ([], false) =
      .ok (rereadTables parsed rows, true) := by
  obtain ⟨hrecords, hcomplete⟩ := List.forall_mem_append.mp hlegible
  obtain ⟨hmanifest, hrows⟩ := List.forall_mem_cons.mp hrecords
  have hlast := hcomplete completeRecord List.mem_cons_self
  have hlines : recordLines write (manifest names :: rowRecords rows ++ [completeRecord]) =
      some (write (manifest names)) :: (recordLines write (rowRecords rows) ++ [some (write completeRecord)]) := by
    simp [recordLines]
  rw [hlines, readLines_manifest hmanifest, readLines_rows hrows, readLines_complete hlast]
  rfl

-- ---------------------------------------------------------------------------
-- Beginnings of the file
-- ---------------------------------------------------------------------------

@[simp] theorem exportFile_cons {record : Value} {records : List Value} : exportFile write (record :: records) =
    Bytes.encode (write record).toList ++ Bytes.lineFeed :: exportFile write records := by
  simp [exportFile]

theorem exportFile_append {first next : List Value} :
    exportFile write (first ++ next) = exportFile write first ++ exportFile write next := by
  simp [exportFile, Framing.framed_append]

/-- The lines of whole records, and of what is behind them. -/
theorem lines_exportFile {records : List Value} {part : Bytes}
    (hlegible : ∀ record ∈ records, Legible write importer.fromStr parsed record) (hpart : Bytes.lineFeed ∉ part) :
    Bytes.lines (exportFile write records ++ part) = recordLines write records ++
      if part = [] then [] else [(Bytes.decode part).map String.ofList] := by
  have hclean : ∀ line ∈ records.map fun record => (write record).toList, '\n' ∉ line ∧ '\r' ∉ line :=
    List.forall_mem_map.mpr fun record hrecord => (hlegible record hrecord).oneLine
  have hlines := Bytes.lines_framed hclean hpart
  simpa [exportFile, recordLines, Function.comp_def] using hlines

theorem lines_whole {records : List Value}
    (hlegible : ∀ record ∈ records, Legible write importer.fromStr parsed record) :
    Bytes.lines (exportFile write records) = recordLines write records := by
  have hnothing : Bytes.lineFeed ∉ ([] : Bytes) := List.not_mem_nil
  have hlines := lines_exportFile hlegible hnothing
  simpa using hlines

/-- A part of a record that ends early is no text, or a text that is not read. -/
theorem not_read {record : Value} {part : Bytes} (h : Legible write importer.fromStr parsed record)
    (hpart : part <+: Bytes.encode (write record).toList) (hshort : part ≠ Bytes.encode (write record).toList) :
    ∀ line ∈ (Bytes.decode part).map String.ofList, importer.fromStr line = none := by
  intro line hline
  obtain ⟨t, ht, rfl⟩ := Option.map_eq_some_iff.mp hline
  obtain rfl := Bytes.decode_eq_some.mp ht
  exact h.closed t (Bytes.prefix_of_encode hpart) fun heq => hshort (congrArg _ heq)

/-- A beginning of the file is whole records, and a part of the next one. -/
theorem exportFile_prefix {records : List Value} {cut : Bytes} (h : cut <+: exportFile write records) :
    ∃ whole rest part, records = whole ++ rest ∧ cut = exportFile write whole ++ part ∧
      part <+: (rest.map fun record => Bytes.encode (write record).toList).headD [] := by
  obtain ⟨_, _, part, hsplit, rfl, hpart⟩ := Framing.of_prefix h
  obtain ⟨whole, rest, rfl, rfl, rfl⟩ := List.map_eq_append_iff.mp hsplit
  exact ⟨whole, rest, part, rfl, rfl, hpart⟩

/-- The lines of a beginning of the file are those of the first records, and maybe a line that is not read. All
    records are there if at most the last line feed is missing. -/
theorem lines_cut {records : List Value} {cut : Bytes}
    (hlegible : ∀ record ∈ records, Legible write importer.fromStr parsed record)
    (hcut : cut <+: exportFile write records) : ∃ taken rest, records = taken ++ rest ∧
    (exportFile write records <+: cut ++ [Bytes.lineFeed] ↔ rest = []) ∧
    (Bytes.lines cut = recordLines write taken ∨ rest ≠ [] ∧ ∃ broken, (∀ line ∈ broken, importer.fromStr line = none) ∧
      Bytes.lines cut = recordLines write taken ++ [broken]) := by
  obtain ⟨whole, rest, part, rfl, rfl, hpart⟩ := exportFile_prefix hcut
  obtain ⟨hwhole, hrest⟩ := List.forall_mem_append.mp hlegible
  have hcovers : exportFile write (whole ++ rest) <+: exportFile write whole ++ part ++ [Bytes.lineFeed] ↔
      exportFile write rest <+: part ++ [Bytes.lineFeed] := by
    rw [exportFile_append, List.append_assoc, List.prefix_append_right_inj]
  cases rest with
  | nil =>
    obtain rfl := List.prefix_nil.mp hpart
    refine ⟨whole, [], rfl, hcovers.trans (iff_of_true List.nil_prefix rfl), .inl ?_⟩
    rw [List.append_nil]
    exact lines_whole hwhole
  | cons record rest =>
    obtain ⟨hrecord, _⟩ := List.forall_mem_cons.mp hrest
    have hpart : part <+: Bytes.encode (write record).toList := hpart
    have hline : Bytes.lineFeed ∉ Bytes.encode (write record).toList := Bytes.lineFeed_not_mem hrecord.oneLine.1
    have hlines := lines_exportFile hwhole fun hmem => hline (hpart.subset hmem)
    rw [exportFile_cons] at hcovers
    by_cases hfull : part = Bytes.encode (write record).toList
    · -- only the line feed of the record is missing
      subst hfull
      have hsome : Bytes.encode (write record).toList ≠ [] := by
        intro hnil
        have hempty : (write record).toList = [] := Bytes.encode_inj.mp (hnil.trans rfl)
        exact hrecord.nonempty (String.toList_eq_nil_iff.mp hempty)
      refine ⟨whole ++ [record], rest, by simp, hcovers.trans ?_, .inl ?_⟩
      · rw [List.prefix_append_right_inj, List.cons_prefix_cons, List.prefix_nil]
        cases rest with
        | nil => exact iff_of_true ⟨rfl, rfl⟩ rfl
        | cons next rest => simp
      · rw [hlines, if_neg hsome, Bytes.decode_eq_some.mpr rfl]
        simp [recordLines]
    · have hshort : part.length < (Bytes.encode (write record).toList).length :=
        lt_of_le_of_ne hpart.length_le fun heq => hfull (hpart.eq_of_length heq)
      refine ⟨whole, record :: rest, rfl, hcovers.trans (iff_of_false ?_ (List.cons_ne_nil _ _)), ?_⟩
      · intro hbeginning
        have hlength := hbeginning.length_le
        simp only [List.length_append, List.length_cons, List.length_nil] at hlength
        omega
      · by_cases hnone : part = []
        · exact .inl (by rw [hlines, if_pos hnone, List.append_nil])
        · refine .inr ⟨List.cons_ne_nil _ _, (Bytes.decode part).map String.ofList, not_read hrecord hpart hfull, ?_⟩
          rw [hlines, if_neg hnone]

/-- Without the last record nothing is imported, whether or not a line that is not read is behind the others. -/
theorem import_unfinished {names : List String} {rows : LegacyTables} {taken : List Value} {lines : List (Option String)}
    (hlegible : ∀ record ∈ taken, Legible write importer.fromStr parsed record)
    (htaken : taken <+: manifest names :: rowRecords rows)
    (hlines : lines = recordLines write taken ∨ ∃ broken, (∀ line ∈ broken, importer.fromStr line = none) ∧
      lines = recordLines write taken ++ [broken]) (env : Env) (now : Time) (localOrgId : String) (db : LegacyDatabase) :
    ∃ e, importLegacyExport env importer now localOrgId lines db = .error e := by
  unfold importLegacyExport
  cases hlines with
  | inl hwhole =>
    obtain ⟨number, tables, hread⟩ := readLines_unfinished hlegible htaken []
    rw [List.append_nil] at hread
    rw [hwhole, hread]
    exact ⟨.incompleteLegacyExport, rfl⟩
  | inr hbroken =>
    obtain ⟨broken, hnone, rfl⟩ := hbroken
    obtain ⟨number, tables, hread⟩ := readLines_unfinished hlegible htaken [broken]
    rw [hread]
    cases broken with
    | none => exact ⟨.readLegacyExport, rfl⟩
    | some line =>
      rw [readLines, hnone line rfl]
      exact ⟨.malformedLegacyExport number, rfl⟩

/-- The rows of the legacy database, if it returns rows for every table. -/
def exportedRows (database : Pglite) : Option LegacyTables :=
  (tableNames database).toOption.bind fun tables => databaseRows database tables

/-- The lines of an export that ended without an error are the rows of the database. -/
theorem readLines_exportFile
    (hlegible : ∀ record ∈ (exportDatabase database).records, Legible write importer.fromStr parsed record)
    (hok : (exportDatabase database).outcome = .ok ()) : ∃ rows, exportedRows database = some rows ∧
    readLines importer 1 (Bytes.lines (exportFile write (exportDatabase database).records)) ([], false) =
      .ok (rereadTables parsed rows, true) := by
  rcases exportDatabase_records database with ⟨_, hfailed⟩ | ⟨tables, rows, ⟨hfailed, _⟩ | ⟨_, hnames, hrows, hall⟩⟩
  · exact absurd hok hfailed
  · exact absurd hok hfailed
  · refine ⟨rows, ?_, ?_⟩
    · rw [exportedRows, hnames]
      exact hrows
    · rw [lines_whole hlegible, hall]
      exact readLines_finished (hall ▸ hlegible)

/-- A beginning that does not have all records in it brings nothing. -/
theorem import_cut {taken rest : List Value} {lines : List (Option String)}
    (hlegible : ∀ record ∈ taken, Legible write importer.fromStr parsed record)
    (hrecords : (exportDatabase database).records = taken ++ rest)
    (hcut : (exportDatabase database).outcome = .ok () → rest ≠ [])
    (hlines : lines = recordLines write taken ∨ ∃ broken, (∀ line ∈ broken, importer.fromStr line = none) ∧
      lines = recordLines write taken ++ [broken]) (env : Env) (now : Time) (localOrgId : String) (db : LegacyDatabase) :
    ∃ e, importLegacyExport env importer now localOrgId lines db = .error e := by
  have hunfinished {names : List String} {rows : LegacyTables} (hbeginning : taken <+: manifest names :: rowRecords rows) :
      ∃ e, importLegacyExport env importer now localOrgId lines db = .error e :=
    import_unfinished hlegible hbeginning hlines env now localOrgId db
  rcases exportDatabase_records database with ⟨hnone, _⟩ | ⟨tables, rows, ⟨_, hrows⟩ | ⟨hok, _, _, hall⟩⟩
  · obtain ⟨rfl, _⟩ := List.append_eq_nil_iff.mp (hrecords.symm.trans hnone)
    have hbeginning : [] <+: manifest [] :: rowRecords [] := List.nil_prefix
    exact hunfinished hbeginning
  · exact hunfinished (hrows ▸ hrecords ▸ List.prefix_append taken rest)
  · have hbeginning : taken <+: manifest tables :: rowRecords rows ++ [completeRecord] :=
      hall ▸ hrecords ▸ List.prefix_append taken rest
    cases List.prefix_concat_iff.mp hbeginning with
    | inl heq =>
      rw [hall, heq] at hrecords
      exact absurd (List.self_eq_append_right.mp hrecords) (hcut hok)
    | inr hbeginning => exact hunfinished hbeginning

/-- The import of what is left of an export: all of its rows, if the export ended without an error and at most the
    last line feed is missing, and otherwise nothing. -/
theorem export_all_or_nothing
    (hlegible : ∀ record ∈ (exportDatabase database).records, Legible write importer.fromStr parsed record) {cut : Bytes}
    (hcut : cut <+: exportFile write (exportDatabase database).records) (env : Env) (now : Time) (localOrgId : String)
    (db : LegacyDatabase) :
    (((exportDatabase database).outcome = .ok () ∧
        exportFile write (exportDatabase database).records <+: cut ++ [Bytes.lineFeed]) →
      ∃ rows, exportedRows database = some rows ∧
        importLegacyExport env importer now localOrgId (Bytes.lines cut) db =
          importLegacyTables env importer now localOrgId (rereadTables parsed rows) db) ∧
    (¬ ((exportDatabase database).outcome = .ok () ∧
        exportFile write (exportDatabase database).records <+: cut ++ [Bytes.lineFeed]) →
      ∃ e, importLegacyExport env importer now localOrgId (Bytes.lines cut) db = .error e) := by
  obtain ⟨taken, rest, hrecords, hwhole, hlines⟩ := lines_cut hlegible hcut
  rw [hwhole]
  constructor
  · rintro ⟨hok, rfl⟩
    obtain ⟨rows, hrows, hread⟩ := readLines_exportFile hlegible hok
    refine ⟨rows, hrows, importLegacyExport_eq ?_⟩
    rw [List.append_nil] at hrecords
    rw [hlines.resolve_right fun h => h.1 rfl, ← hrecords, ← lines_whole hlegible]
    exact hread
  · intro hcomplete
    have htaken : ∀ record ∈ taken, Legible write importer.fromStr parsed record :=
      fun record hrecord => hlegible record (hrecords ▸ List.mem_append_left rest hrecord)
    exact import_cut htaken hrecords (fun hok hnone => hcomplete ⟨hok, hnone⟩) (hlines.imp_right And.right) env now
      localOrgId db

/-- A legacy database of one organization. -/
def acmeDatabase : Pglite where
  query text :=
    if text = tablesQuery then some [.object [("table_name", .string "organization")]]
    else if text = rowsQuery "organization" then
      some [.object [("row", .object [("id", .string "acme"), ("slug", .string "café"), ("created_at", .string "2024")])]]
    else none

/-- A parser of compact texts, and of the number in the manifest. -/
def acmeImporter : Importer where
  fromStr line :=
    if line = compactJson.write (manifest ["organization"]) then some (manifest ["organization"])
    else (compactJson.read line).toOption
  toF32 _ := none
  digest _ := []

def acmeFile : Bytes := exportFile compactJson.write (exportDatabase acmeDatabase).records

theorem acmeImporter_fromStr (text : Text) : acmeImporter.fromStr (String.ofList text) =
    if text = Compact.writeValue (manifest ["organization"]) then some (manifest ["organization"])
    else (Compact.readValue text.length text).bind fun r => if r.2 = [] then some r.1 else none := by
  simp only [acmeImporter, compactJson, String.ofList_inj, String.toList_ofList]
  split
  · rfl
  · rcases hread : Compact.readValue text.length text with _ | ⟨value, _ | ⟨c, rest⟩⟩ <;> simp [Except.toOption]

theorem acme_records : ∀ record ∈ (exportDatabase acmeDatabase).records, Compact.writeValue record ≠ [] ∧
    ('\n' ∉ Compact.writeValue record ∧ '\r' ∉ Compact.writeValue record) ∧
    acmeImporter.fromStr (compactJson.write record) = some (reread id record) ∧
    (Compact.writeValue (manifest ["organization"]) <+: Compact.writeValue record →
      Compact.writeValue (manifest ["organization"]) = Compact.writeValue record) := by
  decide +kernel

theorem acme_unread : ∀ record ∈ (exportDatabase acmeDatabase).records, ∀ part ∈ (Compact.writeValue record).inits,
    part ≠ Compact.writeValue record → ∀ r ∈ Compact.readValue part.length part, r.2 ≠ [] := by
  decide +kernel

theorem acme_legible : ∀ record ∈ (exportDatabase acmeDatabase).records,
    Legible compactJson.write acmeImporter.fromStr id record := by
  intro record hrecord
  obtain ⟨hsome, hline, hread, hmanifest⟩ := acme_records record hrecord
  have htext : (compactJson.write record).toList = Compact.writeValue record := String.toList_ofList
  refine ⟨fun hempty => hsome ?_, htext ▸ hline, hread, fun part hpart hshort => ?_⟩
  · rw [← htext, hempty, String.toList_empty]
  · rw [htext] at hpart hshort
    have hother : part ≠ Compact.writeValue (manifest ["organization"]) := by
      rintro rfl
      exact hshort (hmanifest hpart)
    rw [acmeImporter_fromStr, if_neg hother, Option.bind_eq_none_iff]
    exact fun r hr => if_neg (acme_unread record hrecord part ((List.mem_inits part _).mpr hpart) hshort r hr)

/-- The whole file brings the organization, and one that ends within a character nothing. -/
theorem export_all_or_nothing_acme :
    (∃ rows, exportedRows acmeDatabase = some rows ∧
      importLegacyExport unaryEnv acmeImporter 0 "" (Bytes.lines acmeFile) firstOpened.db =
        importLegacyTables unaryEnv acmeImporter 0 "" (rereadTables id rows) firstOpened.db) ∧
    ∃ e, importLegacyExport unaryEnv acmeImporter 0 "" (Bytes.lines (acmeFile.take 125)) firstOpened.db = .error e := by
  have hok : (exportDatabase acmeDatabase).outcome = .ok () := by decide +kernel
  constructor
  · exact (export_all_or_nothing acme_legible (List.prefix_refl acmeFile) unaryEnv 0 "" firstOpened.db).1
      ⟨hok, List.prefix_append _ _⟩
  · apply (export_all_or_nothing acme_legible (List.take_prefix 125 acmeFile) unaryEnv 0 "" firstOpened.db).2
    rintro ⟨_, hbeginning⟩
    have hlength : (acmeFile.take 125 ++ [Bytes.lineFeed]).length < acmeFile.length := by decide +kernel
    exact absurd hbeginning.length_le (Nat.not_le.mpr hlength)

end Startup
