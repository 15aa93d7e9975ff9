import FerrumNexus.Migrations.Statements
import FerrumNexus.Sequences.OrderedMap
import FerrumNexus.Sequences.Sorting

/-!
# Running migrations against a MySQL server

Every statement commits on its own, the row of the ledger too, and a connection
can break at any of them, before the statement takes effect or after. So whether
a step is done is read back from the server's metadata, and a run that is
started again goes through all steps of the first file that is not recorded.
-/
namespace FerrumNexus.Migrations

open Sequences

/-! ## The server -/

/-- A row of `information_schema.COLUMNS`. -/
structure ColumnRow where
  columnType : Text
  isNullable : Bool
  columnDefault : Option Text
  extra : Text
  generationExpression : Text
  collationName : Option Text
  deriving DecidableEq

/-- A row of `information_schema.STATISTICS`. -/
structure IndexRow where
  columnName : Option Text
  descending : Bool
  nonUnique : Bool
  subPart : Option ℕ
  indexType : Text
  isVisible : Bool
  expression : Option Text
  deriving DecidableEq

structure Table where
  collation : Text
  columns : OrderedMap Text ColumnRow
  indexes : OrderedMap Text (List IndexRow)

abbrev Schema := OrderedMap Text Table

/-- What a statement asks of the server. -/
inductive Ddl
  | createTable (name : Text) (table : Schema → Option Table)
  | addColumn (table column : Text) (row : ColumnRow)
  | modifyColumn (table column : Text) (row : ColumnRow)
  | createIndex (table name : Text) (rows : List IndexRow)
  | update

/-- A MySQL server: how it reads a statement, how it compares the names of tables and of columns
and indexes, and what it refuses for reasons of its own. A statement of one of the forms that the
migrations know is what it says it is, unless the server does not take it at all. -/
structure Server where
  reads : Text → Option Ddl
  tableName : Text → Text
  columnName : Text → Text
  refuses : Ddl → Schema → Bool
  reads_createTable : ∀ sql ddl, isCreateTable (trimText (collapse sql)) = true →
    reads sql = some ddl → ∃ name table, ddl = .createTable name table
  reads_addColumn : ∀ sql step ddl, addColumn sql = some step → reads sql = some ddl →
    ∃ row, ddl = .addColumn step.table step.column row
  reads_widenColumn : ∀ sql step ddl, widenColumn sql = some step → reads sql = some ddl →
    ∃ row, ddl = .modifyColumn step.table step.column row ∧
      row.columnType.map Char.toLower = "longtext".toList
  reads_createIndex : ∀ sql name table columns ddl, createIndex sql = some (name, table, columns) →
    reads sql = some ddl → ∃ rows, ddl = .createIndex table name rows ∧ rows ≠ []
  reads_backfill : ∀ ddl, reads OUTBOX_PRIORITY_BACKFILL = some ddl → ddl = .update

namespace Server

variable (server : Server)

def table (schema : Schema) (name : Text) : Option Table := schema.get (server.tableName name)

/-- What a statement does to the schema, or that it fails. -/
def alter (schema : Schema) : Ddl → Option Schema
  | .createTable name definition =>
    if (server.table schema name).isSome then some schema
    else (definition schema).map fun table => schema.set (server.tableName name) table
  | .addColumn name column row => do
    let table ← server.table schema name
    if (table.columns.get (server.columnName column)).isSome then none
    else some (schema.set (server.tableName name)
      { table with columns := table.columns.set (server.columnName column) row })
  | .modifyColumn name column row => do
    let table ← server.table schema name
    if (table.columns.get (server.columnName column)).isNone then none
    else some (schema.set (server.tableName name)
      { table with columns := table.columns.set (server.columnName column) row })
  | .createIndex name index rows => do
    let table ← server.table schema name
    if (table.indexes.get (server.columnName index)).isSome then none
    else some (schema.set (server.tableName name)
      { table with indexes := table.indexes.set (server.columnName index) rows })
  | .update => some schema

def execute (sql : Text) (schema : Schema) : Option Schema := do
  let ddl ← server.reads sql
  if server.refuses ddl schema then none else server.alter schema ddl

/-- The row of a column, with its table's collation. -/
def columnRow (schema : Schema) (table column : Text) : Option (ColumnRow × Text) := do
  let table ← server.table schema table
  let row ← table.columns.get (server.columnName column)
  some (row, table.collation)

def indexRows (schema : Schema) (table name : Text) : List IndexRow :=
  ((server.table schema table).bind fun table => table.indexes.get (server.columnName name)).getD []

end Server

/-! ## Whether a step is done -/

/-- The column is as the step makes it. -/
def AddColumn.accepts (step : AddColumn) (column : ColumnRow) (tableCollation : Text) : Bool :=
  column.columnType.map Char.toLower == step.type && column.isNullable == step.nullable &&
    column.columnDefault == step.defaultValue && column.extra == [] &&
    column.collationName == if step.stringColumn then some tableCollation else none

/-- `columnExists`, `none` where it throws. -/
def Server.columnExists (server : Server) (schema : Schema) (step : AddColumn) : Option Bool :=
  match server.columnRow schema step.table step.column with
  | none => some false
  | some (column, tableCollation) =>
    if step.accepts column tableCollation then some true else none

/-- `text.slice(1, -1).trim()`, as long as the text is in brackets. -/
def unbracket : ℕ → Text → Text
  | 0, text => text
  | fuel + 1, text =>
    if 1 < text.length ∧ text.head? = some '(' ∧ text.getLast? = some ')' then
      unbracket fuel (trimText (text.drop 1).dropLast)
    else text

/-- `CHARSET_INTRODUCER` is cut. -/
def dropIntroducer (text : Text) : Text :=
  match text with
  | '_' :: rest => if rest.head?.any Char.isAlphanum then rest.dropWhile Char.isAlphanum else text
  | _ => text

/-- The characters of a literal, each escaped one without its backslash; `none` for a quote. -/
def readEscapes : Text → Option Text
  | [] => some []
  | ['\\'] => none
  | '\\' :: c :: rest => (readEscapes rest).map (c :: ·)
  | c :: rest => if c = '\'' then none else (readEscapes rest).map (c :: ·)

/-- `QUOTED_STRING_LITERAL`, without its escapes. -/
def quotedLiteral (text : Text) : Option Text := do
  let text := if text.head? = some '\\' then text.drop 1 else text
  if text.head? = some '\'' ∧ 1 < text.length ∧ text.getLast? = some '\'' then
    let body := (text.drop 1).dropLast
    if body.getLast? = some '\\' then
      match readEscapes body.dropLast with
      | some literal => some literal
      | none => readEscapes body
    else readEscapes body
  else none

/-- `expressionDefaultLiteral`. -/
def expressionDefaultLiteral (value : Option Text) : Option Text := do
  let text := trimText (← value)
  quotedLiteral (dropIntroducer (unbracket text.length text))

/-- `WIDENABLE_TYPES` and `WIDENABLE_VARCHAR`. -/
def isWidenable (type : Text) : Bool :=
  type = "text".toList || type = "longtext".toList ||
    ((afterWords "varchar(" type).bind readLength).any fun read => read.2 = [')']

/-- The column is the one an earlier release created, or the widened one. -/
def WidenColumn.accepts (step : WidenColumn) (column : ColumnRow) (tableCollation : Text) : Bool :=
  isWidenable (column.columnType.map Char.toLower) && column.isNullable == step.nullable &&
    column.collationName == some tableCollation && column.generationExpression == [] &&
    column.extra == (if step.jsonDefault then "DEFAULT_GENERATED".toList else []) &&
    if step.jsonDefault then
      expressionDefaultLiteral column.columnDefault == some ['\x7b', '\x7d']
    else column.columnDefault == none

namespace Server

variable (server : Server)

/-- `columnWidened`. -/
def columnWidened (schema : Schema) (step : WidenColumn) : Option Bool :=
  match server.columnRow schema step.table step.column with
  | none => none
  | some (column, tableCollation) =>
    if step.accepts column tableCollation then
      some (column.columnType.map Char.toLower == "longtext".toList)
    else none

/-- Whether a row of an index is the one of a column. -/
def indexRowMatches (row : IndexRow) (column : IndexColumn) : Bool :=
  row.columnName == some column.name && row.descending == column.descending && row.nonUnique &&
    row.subPart == none && row.indexType == "BTREE".toList && row.isVisible && row.expression == none

/-- `indexExists`. -/
def indexExists (schema : Schema) (step : AddIndex) : Option Bool :=
  let rows := server.indexRows schema step.table step.name
  if rows = [] then some false
  else if rows.length ≠ step.columns.length ∨
      ¬(List.zipWith indexRowMatches rows step.columns).all id then none
  else some true

/-- `present`. A `CREATE TABLE` and the backfill are not asked about. -/
def present (schema : Schema) : MigrationStep → Option Bool
  | .statement _ => some false
  | .column step => server.columnExists schema step
  | .widen step => server.columnWidened schema step
  | .index step => server.indexExists schema step

end Server

def MigrationStep.sql : MigrationStep → Text
  | .statement sql => sql
  | .column step => step.statement
  | .widen step => step.statement
  | .index step => step.statement

def MigrationStep.isStatement : MigrationStep → Bool
  | .statement _ => true
  | _ => false

/-! ## Runs -/

/-- A statement that was sent: the file it is from, and the schema it met. -/
structure Sent where
  migration : MigrationFile
  step : MigrationStep
  schema : Schema

/-- The database, the statements that were sent so far, and the connection: the queries that it
still answers, if it is to break, and whether the query it breaks at takes effect. -/
structure World where
  schema : Schema
  ledger : List String
  sent : List Sent
  left : Option ℕ
  lands : Bool

namespace World

/-- Another query is answered. -/
def count (w : World) : World := { w with left := w.left.map (· - 1) }

/-- A query that only reads. -/
def ask (w : World) : Except World World :=
  if w.left = some 0 then .error w else .ok w.count

end World

namespace Server

variable (server : Server)

/-- A statement is sent. -/
def query (migration : MigrationFile) (step : MigrationStep) (w : World) : Except World World :=
  let w : World := { w with sent := w.sent ++ [⟨migration, step, w.schema⟩] }
  match server.execute step.sql w.schema with
  | none => .error w
  | some schema =>
    if w.left = some 0 then .error (if w.lands then { w with schema := schema } else w)
    else .ok { w.count with schema := schema }

/-- One round of the loop of `applyMigration`. -/
def applyStep (migration : MigrationFile) (step : MigrationStep) (w : World) :
    Except World World :=
  if step.isStatement then server.query migration step w
  else do
    let w ← w.ask
    match server.present w.schema step with
    | none => .error w
    | some true => .ok w
    | some false =>
      let w ← server.query migration step w
      let w ← w.ask
      match server.present w.schema step with
      | some true => .ok w
      | _ => .error w

def applySteps (migration : MigrationFile) (steps : List MigrationStep) (w : World) :
    Except World World :=
  steps.foldlM (fun w step => server.applyStep migration step w) w

end Server

/-- The row of the ledger. -/
def record (id : String) (w : World) : Except World World :=
  if id ∈ w.ledger then .error w
  else if w.left = some 0 then
    .error (if w.lands then { w with ledger := w.ledger ++ [id] } else w)
  else .ok { w.count with ledger := w.ledger ++ [id] }

namespace Server

variable (server : Server) {κ : Type} [LinearOrder κ] (collate : String → κ)

def applyMigration (migration : MigrationFile) (w : World) : Except World World :=
  match migrationSteps migration with
  | .error _ => .error w
  | .ok steps => do
    let w ← server.applySteps migration steps w
    record migration.id w

/-- The loop of `runMigrations`. -/
def applyPending (applied : List String) (migrations : List MigrationFile) (w : World) :
    Except World World :=
  migrations.foldlM (fun w migration =>
    if migration.id ∈ applied then .ok w else server.applyMigration migration w) w

/-- `runMysqlMigrations`, by whoever has the lock. `collate` is the order of `localeCompare`. -/
def runMigrations (migrations : List MigrationFile) (w : World) : Except World World := do
  let w ← w.ask
  let w ← w.ask
  server.applyPending w.ledger (sortBy (fun migration => collate migration.id) migrations) w

end Server

/-- The world that a run leaves, whether it goes through or not. -/
def World.after : Except World World → World
  | .ok w => w
  | .error w => w

/-- A new connection. -/
def World.connect (w : World) (left : Option ℕ) (lands : Bool) : World :=
  { w with left := left, lands := lands }

/-- Runs one after another, each on a connection of its own. -/
def Server.attempts (server : Server) {κ : Type} [LinearOrder κ] (collate : String → κ)
    (migrations : List MigrationFile) (connections : List (Option ℕ × Bool)) (w : World) : World :=
  connections.foldl (fun w connection =>
    World.after (server.runMigrations collate migrations (w.connect connection.1 connection.2))) w

/-! ## Files that change nothing twice -/

/-- What a step changes. -/
inductive Target
  | column (table column : Text)
  | index (table name : Text)
  deriving DecidableEq

def Server.target (server : Server) : MigrationStep → Option Target
  | .statement _ => none
  | .column step => some (.column (server.tableName step.table) (server.columnName step.column))
  | .widen step => some (.column (server.tableName step.table) (server.columnName step.column))
  | .index step => some (.index (server.tableName step.table) (server.columnName step.name))

/-- No column and no index is changed in two steps. -/
def Server.ChangesOnce (server : Server) (migration : MigrationFile) : Prop :=
  ∀ steps, migrationSteps migration = .ok steps → (steps.filterMap server.target).Nodup

end FerrumNexus.Migrations
