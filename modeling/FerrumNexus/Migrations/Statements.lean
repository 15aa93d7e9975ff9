import FerrumNexus.Platform.Text

/-!
# The statements of a MySQL migration

A migration file is cut into statements, and each of them has to be one of the
few forms whose effect can be read back: a `CREATE TABLE IF NOT EXISTS`, a
column that is added, a column that is widened to `LONGTEXT`, an index, or the
one backfill of `009_outbox_priority`. A file with any other statement has no
steps at all.
-/
namespace FerrumNexus.Migrations

open Platform

/-- The characters of a text. -/
abbrev Text := List Char

def trimText (text : Text) : Text :=
  ((text.dropWhile isWhiteSpace).reverse.dropWhile isWhiteSpace).reverse

/-! ## Cutting a file -/

/-- Where the scan of a file is. -/
inductive Scan
  | code
  | literal
  | comment
  deriving DecidableEq

/-- The trimmed statement in front of what follows, unless there is nothing of it. -/
def pushStatement (current : Text) (statements : List Text) : List Text :=
  if trimText current = [] then statements else trimText current :: statements

/-- The loop of `splitSqlStatements`. -/
def splitFrom : Scan → Text → Text → List Text
  | _, current, [] => pushStatement current []
  | .comment, current, c :: rest =>
    if c = '\n' then splitFrom .code (current ++ [c]) rest else splitFrom .comment current rest
  | .literal, current, '\'' :: '\'' :: rest => splitFrom .literal (current ++ ['\'', '\'']) rest
  | .literal, current, c :: rest =>
    splitFrom (if c = '\'' then .code else .literal) (current ++ [c]) rest
  | .code, current, '-' :: '-' :: rest => splitFrom .comment current rest
  | .code, current, c :: rest =>
    if c = '\'' then splitFrom .literal (current ++ [c]) rest
    else if c = ';' then pushStatement current (splitFrom .code [] rest)
    else splitFrom .code (current ++ [c]) rest

def splitSqlStatements (sql : Text) : List Text := splitFrom .code [] sql

/-- `sql.replace(WHITESPACE_RUN, ' ')`. -/
def collapse : Text → Text
  | [] => []
  | c :: rest =>
    if isWhiteSpace c then
      if (rest.head?.any isWhiteSpace) then collapse rest else ' ' :: collapse rest
    else c :: collapse rest

/-! ## Recognising a statement -/

/-- The text after some words, in letters of either case. -/
def afterWords (words : String) (text : Text) : Option Text :=
  let n := words.length
  if (text.take n).map Char.toLower = words.toList.map Char.toLower then some (text.drop n)
  else none

def isName (c : Char) : Bool := c.isAlphanum || c = '_'

/-- `([a-z][a-z0-9_]*)`, and what follows. -/
def readName (text : Text) : Option (Text × Text) :=
  if text.head?.any Char.isAlpha then some (text.takeWhile isName, text.dropWhile isName) else none

/-- The text is these words. -/
def isWords (words : String) (text : Text) : Bool := afterWords words text == some []

/-- `[1-9][0-9]*`, and what follows. -/
def readLength (text : Text) : Option (Text × Text) :=
  if text.head?.any fun c => c.isDigit && c ≠ '0' then
    some (text.takeWhile Char.isDigit, text.dropWhile Char.isDigit)
  else none

/-- `CREATE_TABLE_IF_NOT_EXISTS`. -/
def isCreateTable (statement : Text) : Bool :=
  (afterWords "CREATE TABLE IF NOT EXISTS" statement).any fun rest => rest.head?.any isWhiteSpace

/-- `ALTER TABLE`, a table, the words in between, a column and the rest. -/
def alterTable (words : String) (statement : Text) : Option (Text × Text × Text) := do
  let (table, rest) ← readName (← afterWords "ALTER TABLE " statement)
  let (column, rest) ← readName (← afterWords words rest)
  pure (table, column, ← afterWords " " rest)

structure AddColumn where
  statement : Text
  table : Text
  column : Text
  type : Text
  nullable : Bool
  defaultValue : Option Text
  stringColumn : Bool
  deriving DecidableEq

structure WidenColumn where
  statement : Text
  table : Text
  column : Text
  nullable : Bool
  jsonDefault : Bool
  deriving DecidableEq

structure IndexColumn where
  name : Text
  descending : Bool
  deriving DecidableEq

structure AddIndex where
  statement : Text
  table : Text
  name : Text
  columns : List IndexColumn
  deriving DecidableEq

/-- `STRING_COLUMN`: the type, and whether `NULL` is what it says. -/
def stringColumn (definition : Text) : Option (Text × Bool) := do
  let (digits, rest) ← readLength (← afterWords "VARCHAR(" definition)
  let rest ← afterWords ") " rest
  let type := "varchar(".toList ++ digits ++ [')']
  if isWords "NULL" rest then some (type, true)
  else if isWords "NOT NULL DEFAULT ''" rest then some (type, false)
  else none

/-- `INTEGER_COLUMN`: the default. -/
def integerColumn (definition : Text) : Option Text := do
  let digits ← afterWords "INT NOT NULL DEFAULT " definition
  if digits ≠ [] ∧ digits.all Char.isDigit then some digits else none

/-- `ADD_COLUMN`, with one of the definitions that can be read back. -/
def addColumn (statement : Text) : Option AddColumn := do
  let (table, column, definition) ← alterTable " ADD COLUMN " statement
  if isWords "LONGTEXT DEFAULT NULL" definition then
    some ⟨statement, table, column, "longtext".toList, true, none, true⟩
  else match stringColumn definition with
    | some (type, nullable) =>
      some ⟨statement, table, column, type, nullable, if nullable then none else some [], true⟩
    | none =>
      (integerColumn definition).map fun digits =>
        ⟨statement, table, column, "int".toList, false, some digits, false⟩

/-- `WIDEN_TO_LONGTEXT`. -/
def widenColumn (statement : Text) : Option WidenColumn := do
  let (table, column, definition) ← alterTable " MODIFY COLUMN " statement
  let rest ← afterWords "LONGTEXT " definition
  if isWords "NOT NULL DEFAULT ('\x7b\x7d')" rest then
    some ⟨statement, table, column, false, true⟩
  else if isWords "NOT NULL" rest then some ⟨statement, table, column, false, false⟩
  else if isWords "DEFAULT NULL" rest then some ⟨statement, table, column, true, false⟩
  else none

/-- `INDEX_COLUMN`. -/
def indexColumn (column : Text) : Option IndexColumn := do
  let (name, rest) ← readName column
  if rest = [] ∨ isWords " ASC" rest then some ⟨name, false⟩
  else if isWords " DESC" rest then some ⟨name, true⟩
  else none

/-- `CREATE_INDEX`: the index, the table and the text of the columns. -/
def createIndex (statement : Text) : Option (Text × Text × Text) := do
  let (name, rest) ← readName (← afterWords "CREATE INDEX " statement)
  let (table, rest) ← readName (← afterWords " ON " rest)
  let columns ← afterWords " (" rest
  if columns.getLast? = some ')' ∧ columns.dropLast ≠ [] then some (name, table, columns.dropLast)
  else none

@[irreducible] def OUTBOX_PRIORITY_BACKFILL : Text :=
  ("UPDATE email_outbox SET priority = 2 WHERE priority = 1 AND " ++
    "(SUBSTR(idempotency_key, 1, 7) = 'verify:' OR " ++
    "SUBSTR(idempotency_key, 1, 6) = 'reset:')").toList

/-- `MigrationStep`. -/
inductive MigrationStep
  | statement (sql : Text)
  | column (step : AddColumn)
  | widen (step : WidenColumn)
  | index (step : AddIndex)
  deriving DecidableEq

structure MigrationFile where
  id : String
  sql : Text
  deriving DecidableEq

def unsupportedIndex (id : String) : String :=
  "MySQL migration " ++ id ++ " has unsupported index DDL"

def unsupportedStatement (id : String) : String :=
  "MySQL migration " ++ id ++ " contains unsupported non-replayable DDL"

/-- What a statement of a file is to do. -/
def migrationStep (id : String) (sql : Text) : Except String MigrationStep :=
  let statement := trimText (collapse sql)
  if isCreateTable statement then .ok (.statement sql)
  else if id = "009_outbox_priority" ∧ statement = OUTBOX_PRIORITY_BACKFILL then
    .ok (.statement statement)
  else match widenColumn statement with
    | some widen => .ok (.widen widen)
    | none => match createIndex statement with
      | some (name, table, columns) =>
        match (columns.splitOn ',').mapM fun column => indexColumn (trimText column) with
        | some columns => .ok (.index ⟨statement, table, name, columns⟩)
        | none => .error (unsupportedIndex id)
      | none => match addColumn statement with
        | some column => .ok (.column column)
        | none => .error (unsupportedStatement id)

/-- `migrationSteps`: all of a file, or the first statement of it that is not supported. -/
def migrationSteps (migration : MigrationFile) : Except String (List MigrationStep) :=
  (splitSqlStatements migration.sql).mapM (migrationStep migration.id)

example : migrationSteps ⟨"009_outbox_priority",
    "-- lanes; 'low'\nALTER TABLE email_outbox\n  ADD COLUMN priority INT NOT NULL DEFAULT 1;".toList⟩ =
    .ok [.column ⟨"ALTER TABLE email_outbox ADD COLUMN priority INT NOT NULL DEFAULT 1".toList,
      "email_outbox".toList, "priority".toList, "int".toList, false, some "1".toList, false⟩] := by
  decide +kernel

end FerrumNexus.Migrations
