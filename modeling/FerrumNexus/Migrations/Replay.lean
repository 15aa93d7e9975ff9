import FerrumNexus.Migrations.Mysql
import FerrumNexus.Sequences.Replaying

/-!
# Migrations that are run again

A step that has landed is settled: its column, its index or its table is there,
and no other step of its file takes it away or changes it. So a run that starts
over passes the settled steps without a statement that does anything, and goes
on where the last one stopped.
-/
namespace FerrumNexus.Migrations

open Sequences

namespace Server

variable {server : Server}

/-! ## What a statement leaves alone -/

theorem table_set_self (schema : Schema) (name : Text) (table : Table) :
    server.table (schema.set (server.tableName name) table) name = some table :=
  OrderedMap.get_set_self schema _ table

variable {name other t : Text} {schema schema' : Schema}

theorem table_set_of_ne (schema : Schema) (table : Table)
    (h : server.tableName other ≠ server.tableName name) :
    server.table (schema.set (server.tableName name) table) other = server.table schema other :=
  OrderedMap.get_set_of_ne schema table h

theorem table_congr (schema : Schema) (h : server.tableName other = server.tableName name) :
    server.table schema other = server.table schema name := by
  rw [table, table, h]

/-- A table is replaced by one that has the same column. -/
theorem columnRow_set {before after : Table} (hbefore : server.table schema name = some before)
    (hcollation : after.collation = before.collation) (t c : Text)
    (hsame : server.tableName t = server.tableName name →
      after.columns.get (server.columnName c) = before.columns.get (server.columnName c)) :
    server.columnRow (schema.set (server.tableName name) after) t c =
      server.columnRow schema t c := by
  by_cases ht : server.tableName t = server.tableName name
  · rw [columnRow, columnRow, table_congr _ ht, table_congr schema ht, table_set_self, hbefore]
    simp only [Option.bind_eq_bind, Option.bind_some, hsame ht, hcollation]
  · rw [columnRow, columnRow, table_set_of_ne schema after ht]

/-- A table is replaced by one that has the same index. -/
theorem indexRows_set {before after : Table} (hbefore : server.table schema name = some before)
    (t n : Text) (hsame : server.tableName t = server.tableName name →
      after.indexes.get (server.columnName n) = before.indexes.get (server.columnName n)) :
    server.indexRows (schema.set (server.tableName name) after) t n =
      server.indexRows schema t n := by
  by_cases ht : server.tableName t = server.tableName name
  · rw [indexRows, indexRows, table_congr _ ht, table_congr schema ht, table_set_self, hbefore]
    simp only [Option.bind_some, hsame ht]
  · rw [indexRows, indexRows, table_set_of_ne schema after ht]

/-- What a statement changes. -/
def ddlTarget (server : Server) : Ddl → Option Target
  | .createTable _ _ => none
  | .addColumn table column _ => some (.column (server.tableName table) (server.columnName column))
  | .modifyColumn table column _ =>
    some (.column (server.tableName table) (server.columnName column))
  | .createIndex table name _ => some (.index (server.tableName table) (server.columnName name))
  | .update => none

/-- Every statement creates a table, changes nothing, or replaces a table by one that differs in
what the statement is about. -/
inductive Alters (server : Server) (schema : Schema) (ddl : Ddl) : Schema → Prop
  | same : Alters server schema ddl schema
  | created (name : Text) (table : Table) (hnew : server.table schema name = none) :
      Alters server schema ddl (schema.set (server.tableName name) table)
  | replaced (name : Text) (before after : Table) (hbefore : server.table schema name = some before)
      (hcollation : after.collation = before.collation)
      (hcolumns : ∀ c, server.ddlTarget ddl ≠ some (.column (server.tableName name) c) →
        after.columns.get c = before.columns.get c)
      (hindexes : ∀ n, server.ddlTarget ddl ≠ some (.index (server.tableName name) n) →
        after.indexes.get n = before.indexes.get n) :
      Alters server schema ddl (schema.set (server.tableName name) after)

theorem alters_of_alter {ddl : Ddl} (h : server.alter schema ddl = some schema') :
    Alters server schema ddl schema' := by
  cases ddl with
  | createTable name definition =>
    simp only [alter] at h
    split at h
    · obtain rfl := Option.some_inj.mp h
      exact .same
    · rename_i hnone
      obtain ⟨table, -, rfl⟩ := Option.map_eq_some_iff.mp h
      exact .created name table (by simpa using hnone)
  | addColumn name column row =>
    obtain ⟨before, hbefore, h⟩ := Option.bind_eq_some_iff.mp h
    split at h
    · exact absurd h (Option.some_ne_none _).symm
    · obtain rfl := Option.some_inj.mp h
      refine .replaced name before _ hbefore rfl (fun c hc => ?_) fun n _ => rfl
      apply OrderedMap.get_set_of_ne
      rintro rfl
      exact hc rfl
  | modifyColumn name column row =>
    obtain ⟨before, hbefore, h⟩ := Option.bind_eq_some_iff.mp h
    split at h
    · exact absurd h (Option.some_ne_none _).symm
    · obtain rfl := Option.some_inj.mp h
      refine .replaced name before _ hbefore rfl (fun c hc => ?_) fun n _ => rfl
      apply OrderedMap.get_set_of_ne
      rintro rfl
      exact hc rfl
  | createIndex name index rows =>
    obtain ⟨before, hbefore, h⟩ := Option.bind_eq_some_iff.mp h
    split at h
    · exact absurd h (Option.some_ne_none _).symm
    · obtain rfl := Option.some_inj.mp h
      refine .replaced name before _ hbefore rfl (fun c _ => rfl) fun n hn => ?_
      apply OrderedMap.get_set_of_ne
      rintro rfl
      exact hn rfl
  | update =>
    obtain rfl := Option.some_inj.mp h
    exact .same

theorem table_kept {ddl : Ddl} (h : Alters server schema ddl schema')
    (hsome : (server.table schema t).isSome) : (server.table schema' t).isSome := by
  cases h with
  | same => exact hsome
  | created name table hnew =>
    by_cases ht : server.tableName t = server.tableName name
    · rw [table_congr _ ht, table_set_self]
      rfl
    · rwa [table_set_of_ne schema table ht]
  | replaced name before after hbefore hcollation hcolumns hindexes =>
    by_cases ht : server.tableName t = server.tableName name
    · rw [table_congr _ ht, table_set_self]
      rfl
    · rwa [table_set_of_ne schema after ht]

/-- A column that is there stays as it is, unless the statement is about it. -/
theorem columnRow_kept {ddl : Ddl} (h : Alters server schema ddl schema') {c : Text}
    {row : ColumnRow × Text} (hrow : server.columnRow schema t c = some row)
    (hother : server.ddlTarget ddl ≠ some (.column (server.tableName t) (server.columnName c))) :
    server.columnRow schema' t c = some row := by
  cases h with
  | same => exact hrow
  | created name table hnew =>
    have ht : server.tableName t ≠ server.tableName name := by
      intro ht
      rw [columnRow, table_congr schema ht, hnew] at hrow
      exact Option.some_ne_none row hrow.symm
    rw [columnRow, table_set_of_ne schema table ht]
    exact hrow
  | replaced name before after hbefore hcollation hcolumns hindexes =>
    rw [columnRow_set hbefore hcollation t c fun ht => hcolumns _ (ht ▸ hother), hrow]

theorem indexRows_kept {ddl : Ddl} (h : Alters server schema ddl schema') {n : Text}
    (hrows : server.indexRows schema t n ≠ [])
    (hother : server.ddlTarget ddl ≠ some (.index (server.tableName t) (server.columnName n))) :
    server.indexRows schema' t n = server.indexRows schema t n := by
  cases h with
  | same => rfl
  | created name table hnew =>
    have ht : server.tableName t ≠ server.tableName name := by
      intro ht
      rw [indexRows, table_congr schema ht, hnew] at hrows
      exact hrows rfl
    rw [indexRows, indexRows, table_set_of_ne schema table ht]
  | replaced name before after hbefore hcollation hcolumns hindexes =>
    exact indexRows_set hbefore t n fun ht => hindexes _ (ht ▸ hother)

theorem execute_eq_some {sql : Text} (h : server.execute sql schema = some schema') :
    ∃ ddl, server.reads sql = some ddl ∧ server.alter schema ddl = some schema' := by
  obtain ⟨ddl, hreads, h⟩ := Option.bind_eq_some_iff.mp h
  split at h
  · exact absurd h (Option.some_ne_none _).symm
  · exact ⟨ddl, hreads, h⟩

end Server

/-! ## What the steps of a file are -/

theorem addColumn_statement {sql : Text} {step : AddColumn} (h : addColumn sql = some step) :
    step.statement = sql := by
  obtain ⟨⟨table, column, definition⟩, -, h⟩ := Option.bind_eq_some_iff.mp h
  simp only at h
  split at h
  · obtain rfl := Option.some_inj.mp h
    rfl
  · split at h
    · obtain rfl := Option.some_inj.mp h
      rfl
    · obtain ⟨digits, -, rfl⟩ := Option.map_eq_some_iff.mp h
      rfl

theorem widenColumn_statement {sql : Text} {step : WidenColumn} (h : widenColumn sql = some step) :
    step.statement = sql := by
  obtain ⟨⟨table, column, definition⟩, -, h⟩ := Option.bind_eq_some_iff.mp h
  obtain ⟨rest, -, h⟩ := Option.bind_eq_some_iff.mp h
  split at h
  · obtain rfl := Option.some_inj.mp h
    rfl
  · split at h
    · obtain rfl := Option.some_inj.mp h
      rfl
    · split at h
      · obtain rfl := Option.some_inj.mp h
        rfl
      · exact absurd h (Option.some_ne_none _).symm

/-- What a step of a file is recognised by. -/
def MigrationStep.Recognised : MigrationStep → Prop
  | .statement sql => isCreateTable (trimText (collapse sql)) = true ∨ sql = OUTBOX_PRIORITY_BACKFILL
  | .column step => addColumn step.statement = some step
  | .widen step => widenColumn step.statement = some step
  | .index step => ∃ columns, createIndex step.statement = some (step.name, step.table, columns)

theorem recognised_of_migrationStep {id : String} {sql : Text} {step : MigrationStep}
    (h : migrationStep id sql = .ok step) : step.Recognised := by
  unfold migrationStep at h
  simp only at h
  split at h
  · rename_i hcreate
    obtain rfl := Except.ok.inj h
    exact Or.inl hcreate
  · split at h
    · rename_i hbackfill
      obtain rfl := Except.ok.inj h
      exact Or.inr hbackfill.2
    · split at h
      · rename_i widen hwiden
        obtain rfl := Except.ok.inj h
        have hstatement := widenColumn_statement hwiden
        rw [← hstatement] at hwiden
        exact hwiden
      · split at h
        · rename_i name table columns hindex
          split at h
          · obtain rfl := Except.ok.inj h
            exact ⟨columns, hindex⟩
          · exact absurd h (by simp)
        · split at h
          · rename_i column hcolumn
            obtain rfl := Except.ok.inj h
            have hstatement := addColumn_statement hcolumn
            rw [← hstatement] at hcolumn
            exact hcolumn
          · exact absurd h (by simp)

theorem recognised_of_migrationSteps {migration : MigrationFile} {steps : List MigrationStep}
    (h : migrationSteps migration = .ok steps) : ∀ step ∈ steps, step.Recognised := by
  unfold migrationSteps at h
  generalize splitSqlStatements migration.sql = statements at h
  induction statements generalizing steps with
  | nil =>
    obtain rfl := Except.ok.inj h
    exact fun step hstep => absurd hstep List.not_mem_nil
  | cons statement statements ih =>
    rw [List.mapM_cons] at h
    cases hfirst : migrationStep migration.id statement with
    | error message => simp [hfirst, bind, Except.bind] at h
    | ok first =>
      cases hrest : statements.mapM (migrationStep migration.id) with
      | error message => simp [hfirst, hrest, bind, Except.bind] at h
      | ok rest =>
        simp only [hfirst, hrest, bind, Except.bind, pure, Except.pure, Except.ok.injEq] at h
        subst h
        intro step hstep
        rcases List.mem_cons.mp hstep with rfl | htail
        · exact recognised_of_migrationStep hfirst
        · exact ih hrest step htail

namespace Server

variable {server : Server}

/-! ## Steps on the schema alone -/

/-- What a step does that goes through. -/
def perform (server : Server) (step : MigrationStep) (schema : Schema) : Option Schema :=
  if step.isStatement then server.execute step.sql schema
  else match server.present schema step with
    | none => none
    | some true => some schema
    | some false => (server.execute step.sql schema).filter fun schema' =>
        server.present schema' step == some true

/-- The statement of a step takes effect, and nothing is known of what comes after it. -/
def Lands (server : Server) (step : MigrationStep) (schema schema' : Schema) : Prop :=
  server.execute step.sql schema = some schema' ∧
    (step.isStatement = false → server.present schema step = some false)

/-- What a step is about is there. -/
def Settled (server : Server) (step : MigrationStep) (schema : Schema) : Prop :=
  match step with
  | .statement sql => ∀ ddl, server.reads sql = some ddl → match ddl with
    | .createTable name _ => (server.table schema name).isSome
    | .update => True
    | _ => False
  | .column step => (server.columnRow schema step.table step.column).isSome
  | .widen step => (server.columnRow schema step.table step.column).isSome ∧
      server.columnWidened schema step ≠ some false
  | .index step => server.indexRows schema step.table step.name ≠ []

/-- Two steps change different things. -/
def Apart (server : Server) (step other : MigrationStep) : Prop :=
  ∀ target, server.target step = some target → server.target other ≠ some target

variable {reached schema schema' : Schema} {step : MigrationStep} {w w' : World}
  {migration : MigrationFile} {done rest : List MigrationFile}

theorem columnExists_settled {step : AddColumn}
    (h : (server.columnRow schema step.table step.column).isSome) :
    server.columnExists schema step ≠ some false := by
  obtain ⟨row, hrow⟩ := Option.isSome_iff_exists.mp h
  simp only [columnExists, hrow]
  split <;> simp

theorem indexExists_settled {step : AddIndex}
    (h : server.indexRows schema step.table step.name ≠ []) :
    server.indexExists schema step ≠ some false := by
  simp only [indexExists, if_neg h]
  split <;> simp

/-- A settled step is there, or is refused. -/
theorem present_of_settled (hstep : step.isStatement = false) (h : server.Settled step schema) :
    server.present schema step ≠ some false := by
  cases step with
  | statement sql => exact absurd hstep (by simp [MigrationStep.isStatement])
  | column step => exact columnExists_settled h
  | widen step => exact h.2
  | index step => exact indexExists_settled h

/-- A step that was there is settled. -/
theorem settled_of_present (h : server.present schema step = some true) :
    server.Settled step schema := by
  cases step with
  | statement sql => exact absurd h (by simp [present])
  | column step =>
    simp only [present, columnExists] at h
    split at h
    · exact absurd h (by simp)
    · rename_i hrow
      exact Option.isSome_iff_exists.mpr ⟨_, hrow⟩
  | widen step =>
    refine ⟨?_, ?_⟩
    · simp only [present, columnWidened] at h
      split at h
      · exact absurd h (by simp)
      · rename_i hrow
        exact Option.isSome_iff_exists.mpr ⟨_, hrow⟩
    · have hpresent : server.columnWidened schema step = some true := h
      rw [hpresent]
      simp
  | index step =>
    intro hnil
    simp [present, indexExists, hnil] at h

/-- The server takes the statement of a step for a change of what the step is about. -/
theorem ddlTarget_of_recognised (hstep : step.Recognised) {ddl : Ddl}
    (hreads : server.reads step.sql = some ddl) : server.ddlTarget ddl = server.target step := by
  cases step with
  | statement sql =>
    rcases hstep with hcreate | hbackfill
    · obtain ⟨name, table, rfl⟩ := server.reads_createTable sql ddl hcreate hreads
      rfl
    · obtain rfl := server.reads_backfill ddl (hbackfill ▸ hreads)
      rfl
  | column step =>
    obtain ⟨row, rfl⟩ := server.reads_addColumn _ step ddl hstep hreads
    rfl
  | widen step =>
    obtain ⟨row, rfl, -⟩ := server.reads_widenColumn _ step ddl hstep hreads
    rfl
  | index step =>
    obtain ⟨columns, hindex⟩ := hstep
    obtain ⟨rows, rfl, -⟩ := server.reads_createIndex _ _ _ _ ddl hindex hreads
    rfl

/-- A column that was added or modified is there, with the row it was given. -/
theorem columnRow_altered {t c : Text} {row : ColumnRow}
    (h : server.alter schema (.addColumn t c row) = some schema' ∨
      server.alter schema (.modifyColumn t c row) = some schema') :
    ∃ collation, server.columnRow schema' t c = some (row, collation) := by
  rcases h with h | h
  · obtain ⟨before, hbefore, h⟩ := Option.bind_eq_some_iff.mp h
    split at h
    · exact absurd h (Option.some_ne_none _).symm
    · obtain rfl := Option.some_inj.mp h
      refine ⟨before.collation, ?_⟩
      rw [columnRow, table_set_self]
      simp only [Option.bind_eq_bind, Option.bind_some, OrderedMap.get_set_self]
  · obtain ⟨before, hbefore, h⟩ := Option.bind_eq_some_iff.mp h
    split at h
    · exact absurd h (Option.some_ne_none _).symm
    · obtain rfl := Option.some_inj.mp h
      refine ⟨before.collation, ?_⟩
      rw [columnRow, table_set_self]
      simp only [Option.bind_eq_bind, Option.bind_some, OrderedMap.get_set_self]

theorem settled_of_lands (hstep : step.Recognised) (h : server.Lands step schema schema') :
    server.Settled step schema' := by
  obtain ⟨ddl, hreads, halter⟩ := execute_eq_some h.1
  cases step with
  | statement sql =>
    intro other hother
    obtain rfl : other = ddl := Option.some_inj.mp (hother.symm.trans hreads)
    rcases hstep with hcreate | hbackfill
    · obtain ⟨name, definition, rfl⟩ := server.reads_createTable sql other hcreate hreads
      simp only [alter] at halter
      split at halter
      · rename_i hthere
        obtain rfl := Option.some_inj.mp halter
        exact hthere
      · obtain ⟨table, -, rfl⟩ := Option.map_eq_some_iff.mp halter
        exact Option.isSome_iff_exists.mpr ⟨table, table_set_self schema name table⟩
    · obtain rfl := server.reads_backfill other (hbackfill ▸ hreads)
      trivial
  | column step =>
    obtain ⟨row, rfl⟩ := server.reads_addColumn _ step ddl hstep hreads
    obtain ⟨collation, hrow⟩ := columnRow_altered (Or.inl halter)
    exact Option.isSome_iff_exists.mpr ⟨_, hrow⟩
  | widen step =>
    obtain ⟨row, rfl, hlongtext⟩ := server.reads_widenColumn _ step ddl hstep hreads
    obtain ⟨collation, hrow⟩ := columnRow_altered (Or.inr halter)
    refine ⟨Option.isSome_iff_exists.mpr ⟨_, hrow⟩, ?_⟩
    have hwide : (row.columnType.map Char.toLower == "longtext".toList) = true :=
      beq_iff_eq.mpr hlongtext
    simp only [columnWidened, hrow, hwide]
    split <;> simp
  | index step =>
    obtain ⟨columns, hindex⟩ := hstep
    obtain ⟨rows, rfl, hrows⟩ := server.reads_createIndex _ _ _ _ ddl hindex hreads
    obtain ⟨before, hbefore, halter⟩ := Option.bind_eq_some_iff.mp halter
    split at halter
    · exact absurd halter (Option.some_ne_none _).symm
    · obtain rfl := Option.some_inj.mp halter
      have hindexRows : server.indexRows (schema.set (server.tableName step.table)
          { before with indexes := before.indexes.set (server.columnName step.name) rows })
          step.table step.name ≠ [] := by
        rw [indexRows, table_set_self]
        simpa only [Option.bind_some, OrderedMap.get_set_self, Option.getD_some] using hrows
      exact hindexRows

/-- What is settled stays, whatever is done to something else. -/
theorem settled_kept {ddl : Ddl} (halters : Alters server schema ddl schema')
    (hapart : ∀ target, server.target step = some target → server.ddlTarget ddl ≠ some target)
    (h : server.Settled step schema) : server.Settled step schema' := by
  cases step with
  | statement sql =>
    intro other hother
    have hbefore := h other hother
    cases other with
    | createTable name table => exact table_kept halters hbefore
    | addColumn table column row => exact hbefore
    | modifyColumn table column row => exact hbefore
    | createIndex table name rows => exact hbefore
    | update => trivial
  | column step =>
    obtain ⟨row, hrow⟩ := Option.isSome_iff_exists.mp h
    exact Option.isSome_iff_exists.mpr ⟨row, columnRow_kept halters hrow (hapart _ rfl)⟩
  | widen step =>
    obtain ⟨row, hrow⟩ := Option.isSome_iff_exists.mp h.1
    have hrow' := columnRow_kept halters hrow (hapart _ rfl)
    have hwidened : server.columnWidened schema' step = server.columnWidened schema step := by
      simp only [columnWidened, hrow, hrow']
    exact ⟨Option.isSome_iff_exists.mpr ⟨row, hrow'⟩, hwidened ▸ h.2⟩
  | index step =>
    have hrows := indexRows_kept halters h (hapart _ rfl)
    exact fun hnil => h (hrows ▸ hnil)

theorem settled_kept_of_lands {other : MigrationStep} (hother : other.Recognised)
    (hapart : server.Apart step other) (h : server.Settled step schema)
    (hlands : server.Lands other schema schema') : server.Settled step schema' := by
  obtain ⟨ddl, hreads, halter⟩ := execute_eq_some hlands.1
  apply settled_kept (alters_of_alter halter) _ h
  intro target htarget
  rw [ddlTarget_of_recognised hother hreads]
  exact hapart target htarget

/-- A step that goes through was there, or has landed and is there. -/
theorem perform_cases (h : server.perform step schema = some schema') :
    (schema' = schema ∧ server.present schema step = some true) ∨
      (server.Lands step schema schema' ∧
        (step.isStatement = false → server.present schema' step = some true)) := by
  unfold perform at h
  split at h
  · rename_i hstatement
    refine Or.inr ⟨⟨h, fun hnot => ?_⟩, fun hnot => ?_⟩
    · rw [hnot] at hstatement
      exact absurd hstatement Bool.false_ne_true
    · rw [hnot] at hstatement
      exact absurd hstatement Bool.false_ne_true
  · split at h
    · exact absurd h (Option.some_ne_none _).symm
    · rename_i hpresent
      obtain rfl := Option.some_inj.mp h
      exact Or.inl ⟨rfl, hpresent⟩
    · rename_i hmissing
      obtain ⟨hexecute, hpresent⟩ := Option.filter_eq_some_iff.mp h
      exact Or.inr ⟨⟨hexecute, fun _ => hmissing⟩, fun _ => beq_iff_eq.mp hpresent⟩

/-- What is settled is passed over. -/
theorem lands_settled (h : server.Settled step schema) (hlands : server.Lands step schema schema') :
    schema' = schema := by
  cases hstep : step.isStatement with
  | false => exact absurd (hlands.2 hstep) (present_of_settled hstep h)
  | true =>
    cases step with
    | statement sql =>
      obtain ⟨ddl, hreads, halter⟩ := execute_eq_some hlands.1
      have hsettled := h ddl hreads
      cases ddl with
      | createTable name definition =>
        rw [alter, if_pos hsettled] at halter
        exact (Option.some_inj.mp halter).symm
      | addColumn table column row => exact hsettled.elim
      | modifyColumn table column row => exact hsettled.elim
      | createIndex table name rows => exact hsettled.elim
      | update => exact (Option.some_inj.mp halter).symm
    | column step => exact absurd hstep Bool.false_ne_true
    | widen step => exact absurd hstep Bool.false_ne_true
    | index step => exact absurd hstep Bool.false_ne_true

/-- Nothing of a step that has landed is done again. -/
theorem perform_of_lands {middle : Schema} (hlands : server.Lands step schema middle)
    (h : server.perform step middle = some schema') (hsettled : server.Settled step middle) :
    server.perform step schema = some schema' := by
  cases hstep : step.isStatement with
  | true =>
    rcases perform_cases h with ⟨rfl, -⟩ | ⟨hagain, -⟩
    · rw [perform, if_pos hstep]
      exact hlands.1
    · obtain rfl := lands_settled hsettled hagain
      rw [perform, if_pos hstep]
      exact hlands.1
  | false =>
    rcases perform_cases h with ⟨rfl, hpresent⟩ | ⟨hagain, -⟩
    · have hnot : ¬step.isStatement = true := by
        rw [hstep]
        exact Bool.false_ne_true
      rw [perform, if_neg hnot, hlands.2 hstep, hlands.1]
      exact Option.filter_eq_some_iff.mpr ⟨rfl, beq_iff_eq.mpr hpresent⟩
    · exact absurd (hagain.2 hstep) (present_of_settled hstep hsettled)

/-- The steps of a file can be taken again. -/
theorem replayable (server : Server) :
    Replayable server.perform server.Lands server.Settled server.Apart
      MigrationStep.Recognised where
  performed := by
    intro step s s' hstep h
    rcases perform_cases h with ⟨rfl, hpresent⟩ | ⟨hlands, -⟩
    · exact settled_of_present hpresent
    · exact settled_of_lands hstep hlands
  landed := fun _ _ _ hstep hlands => settled_of_lands hstep hlands
  kept_performed := by
    intro step other s s' hother hapart hsettled h
    rcases perform_cases h with ⟨rfl, -⟩ | ⟨hlands, -⟩
    · exact hsettled
    · exact settled_kept_of_lands hother hapart hsettled hlands
  kept_landed := fun _ _ _ _ hother hapart hsettled hlands =>
    settled_kept_of_lands hother hapart hsettled hlands
  skipped := by
    intro step s s' hsettled h
    rcases perform_cases h with ⟨rfl, -⟩ | ⟨hlands, -⟩
    · rfl
    · exact lands_settled hsettled hlands
  not_landed := fun _ _ _ hsettled hlands => lands_settled hsettled hlands
  resumed := fun _ _ _ _ hstep hlands h => perform_of_lands hlands h (settled_of_lands hstep hlands)

/-! ## One file on a connection -/

/-- What a run leaves of the ledger and of the statements that were sent: a statement more, for a
step that was not done. -/
structure Sends (server : Server) (migration : MigrationFile) (step : MigrationStep)
    (w w' : World) : Prop where
  ledger : w'.ledger = w.ledger
  sent : w'.sent = w.sent ∨ w'.sent = w.sent ++ [⟨migration, step, w.schema⟩] ∧
    (step.isStatement = false → server.present w.schema step = some false)

theorem ask_ok (h : w.ask = .ok w') : w' = w.count := by
  unfold World.ask at h
  split at h
  · exact absurd h (by simp)
  · exact (Except.ok.inj h).symm

theorem ask_error (h : w.ask = .error w') : w' = w := by
  unfold World.ask at h
  split at h
  · exact (Except.error.inj h).symm
  · exact absurd h (by simp)

theorem query_ok (h : server.query migration step w = .ok w') :
    server.execute step.sql w.schema = some w'.schema ∧ w'.ledger = w.ledger ∧
      w'.sent = w.sent ++ [⟨migration, step, w.schema⟩] := by
  simp only [query] at h
  split at h
  · exact absurd h (by simp)
  · rename_i schema hexecute
    split at h
    · exact absurd h (by simp)
    · obtain rfl := Except.ok.inj h
      exact ⟨hexecute, rfl, rfl⟩

theorem query_error (h : server.query migration step w = .error w') :
    (w'.schema = w.schema ∨ server.execute step.sql w.schema = some w'.schema) ∧
      w'.ledger = w.ledger ∧ w'.sent = w.sent ++ [⟨migration, step, w.schema⟩] := by
  simp only [query] at h
  split at h
  · obtain rfl := Except.error.inj h
    exact ⟨Or.inl rfl, rfl, rfl⟩
  · rename_i schema hexecute
    split at h
    · obtain rfl := Except.error.inj h
      split
      · exact ⟨Or.inr hexecute, rfl, rfl⟩
      · exact ⟨Or.inl rfl, rfl, rfl⟩
    · exact absurd h (by simp)

/-- A step of a run goes through on the schema, or has landed at most. -/
theorem applyStep_cases (migration : MigrationFile) (step : MigrationStep) (w : World) :
    (∃ w', server.applyStep migration step w = .ok w' ∧
      server.perform step w.schema = some w'.schema ∧ Sends server migration step w w') ∨
    ∃ w', server.applyStep migration step w = .error w' ∧
      (w'.schema = w.schema ∨ server.Lands step w.schema w'.schema) ∧
      Sends server migration step w w' := by
  cases hstep : step.isStatement with
  | true =>
    have happly : server.applyStep migration step w = server.query migration step w := if_pos hstep
    have hperform : server.perform step w.schema = server.execute step.sql w.schema := if_pos hstep
    have hnot (h : step.isStatement = false) : server.present w.schema step = some false := by
      rw [hstep] at h
      exact absurd h.symm Bool.false_ne_true
    rw [happly, hperform]
    cases hquery : server.query migration step w with
    | ok w' =>
      obtain ⟨hexecute, hledger, hsent⟩ := query_ok hquery
      exact Or.inl ⟨w', rfl, hexecute, hledger, Or.inr ⟨hsent, hnot⟩⟩
    | error w' =>
      obtain ⟨hschema, hledger, hsent⟩ := query_error hquery
      exact Or.inr ⟨w', rfl, hschema.imp_right fun hexecute => ⟨hexecute, hnot⟩, hledger,
        Or.inr ⟨hsent, hnot⟩⟩
  | false =>
    have hfalse : ¬step.isStatement = true := by
      rw [hstep]
      exact Bool.false_ne_true
    rw [applyStep, if_neg hfalse, perform, if_neg hfalse]
    cases hask : w.ask with
    | error w₁ =>
      obtain rfl := ask_error hask
      exact Or.inr ⟨w₁, rfl, Or.inl rfl, rfl, Or.inl rfl⟩
    | ok w₁ =>
      obtain rfl := ask_ok hask
      have hcount : w.count.schema = w.schema := rfl
      simp only [bind, Except.bind, hcount]
      cases hpresent : server.present w.schema step with
      | none => exact Or.inr ⟨w.count, rfl, Or.inl rfl, rfl, Or.inl rfl⟩
      | some there =>
        cases there with
        | true => exact Or.inl ⟨w.count, rfl, rfl, rfl, Or.inl rfl⟩
        | false =>
          simp only
          cases hquery : server.query migration step w.count with
          | error w' =>
            obtain ⟨hschema, hledger, hsent⟩ := query_error hquery
            exact Or.inr ⟨w', rfl, hschema.imp_right fun hexecute => ⟨hexecute, fun _ => hpresent⟩,
              hledger, Or.inr ⟨hsent, fun _ => hpresent⟩⟩
          | ok w₂ =>
            obtain ⟨hexecute, hledger, hsent⟩ := query_ok hquery
            have hlands : server.Lands step w.schema w₂.schema := ⟨hexecute, fun _ => hpresent⟩
            have hsends : Sends server migration step w w₂.count :=
              ⟨hledger, Or.inr ⟨hsent, fun _ => hpresent⟩⟩
            simp only
            cases hask₂ : w₂.ask with
            | error w₃ =>
              obtain rfl := ask_error hask₂
              exact Or.inr ⟨w₃, rfl, Or.inr hlands, hsends.ledger, hsends.sent⟩
            | ok w₃ =>
              obtain rfl := ask_ok hask₂
              have hcount₂ : w₂.count.schema = w₂.schema := rfl
              simp only [hcount₂]
              cases hafter : server.present w₂.schema step with
              | none => exact Or.inr ⟨w₂.count, rfl, Or.inr hlands, hsends⟩
              | some there =>
                cases there with
                | false => exact Or.inr ⟨w₂.count, rfl, Or.inr hlands, hsends⟩
                | true =>
                  refine Or.inl ⟨w₂.count, rfl, ?_, hsends⟩
                  exact Option.filter_eq_some_iff.mpr ⟨hexecute, beq_iff_eq.mpr hafter⟩

/-- The steps of a file on a connection: they go through on the schema, or the performance stopped
part of the way. -/
theorem applySteps_cases (migration : MigrationFile) (steps : List MigrationStep) (w : World) :
    (∃ w', server.applySteps migration steps w = .ok w' ∧
      performAll server.perform steps w.schema = some w'.schema ∧ w'.ledger = w.ledger) ∨
    ∃ w', server.applySteps migration steps w = .error w' ∧
      Partway server.perform server.Lands steps w.schema w'.schema ∧ w'.ledger = w.ledger := by
  induction steps generalizing w with
  | nil => exact Or.inl ⟨w, rfl, rfl, rfl⟩
  | cons step steps ih =>
    rcases @applyStep_cases server migration step w with ⟨w₁, hok, hperform, hsends⟩ |
      ⟨w₁, herror, hschema, hsends⟩
    · have hrest : server.applySteps migration (step :: steps) w =
          server.applySteps migration steps w₁ := by
        simp only [applySteps, List.foldlM_cons, hok]
        rfl
      rw [hrest, performAll_cons, hperform, Option.bind_some, ← hsends.ledger]
      rcases ih w₁ with hdone | ⟨w₂, herror, hpartway, hledger⟩
      · exact Or.inl hdone
      · exact Or.inr ⟨w₂, herror, hpartway.cons hperform, hledger⟩
    · have hstop : server.applySteps migration (step :: steps) w = .error w₁ := by
        simp only [applySteps, List.foldlM_cons, herror]
        rfl
      refine Or.inr ⟨w₁, hstop, ?_, hsends.ledger⟩
      rcases hschema with hsame | hlands
      · rw [hsame]
        exact Partway.refl _ _
      · exact Or.inr ⟨[], step, steps, w.schema, rfl, rfl, hlands⟩

/-! ## Files on a connection -/

/-- A file goes through, on the schema alone. -/
def performFile (server : Server) (migration : MigrationFile) (schema : Schema) : Option Schema :=
  match migrationSteps migration with
  | .error _ => none
  | .ok steps => performAll server.perform steps schema

/-- The schema is the one that the files before have left, or the first file has begun. -/
def At (server : Server) (rest : List MigrationFile) (reached schema : Schema) : Prop :=
  schema = reached ∨ ∃ migration more steps, rest = migration :: more ∧
    migrationSteps migration = .ok steps ∧
    Partway server.perform server.Lands steps reached schema

theorem At.partway (h : At server (migration :: rest) reached schema) {steps : List MigrationStep}
    (hsteps : migrationSteps migration = .ok steps) :
    Partway server.perform server.Lands steps reached schema := by
  rcases h with rfl | ⟨other, more, steps', heq, hsteps', hpartway⟩
  · exact Partway.refl steps schema
  · obtain ⟨rfl, rfl⟩ := List.cons.inj heq
    obtain rfl := Except.ok.inj (hsteps'.symm.trans hsteps)
    exact hpartway

theorem ChangesOnce.pairwise (h : server.ChangesOnce migration) {steps : List MigrationStep}
    (hsteps : migrationSteps migration = .ok steps) :
    steps.Pairwise server.Apart := by
  have hnodup := List.pairwise_filterMap.mp (h steps hsteps)
  exact hnodup.imp fun hne target htarget hother => hne target htarget target hother rfl

theorem record_cases (id : String) (w : World) :
    (∃ w', record id w = .ok w' ∧ w'.schema = w.schema ∧ w'.ledger = w.ledger ++ [id] ∧
      w'.sent = w.sent) ∨
    ∃ w', record id w = .error w' ∧ w'.schema = w.schema ∧
      (w'.ledger = w.ledger ∨ w'.ledger = w.ledger ++ [id]) ∧ w'.sent = w.sent := by
  unfold record
  split
  · exact Or.inr ⟨w, rfl, rfl, Or.inl rfl, rfl⟩
  · split
    · refine Or.inr ⟨_, rfl, ?_⟩
      split
      · exact ⟨rfl, Or.inr rfl, rfl⟩
      · exact ⟨rfl, Or.inl rfl, rfl⟩
    · exact Or.inl ⟨_, rfl, rfl, rfl, rfl⟩

/-- A file goes through and is recorded, or its run stops, with the file recorded or not. -/
theorem applyMigration_cases (honce : server.ChangesOnce migration)
    (hat : At server (migration :: rest) reached w.schema) :
    (∃ w', server.applyMigration migration w = .ok w' ∧
      performFile server migration reached = some w'.schema ∧
      w'.ledger = w.ledger ++ [migration.id]) ∨
    ∃ w', server.applyMigration migration w = .error w' ∧
      (w'.ledger = w.ledger ∧ At server (migration :: rest) reached w'.schema ∨
        w'.ledger = w.ledger ++ [migration.id] ∧
          performFile server migration reached = some w'.schema) := by
  unfold applyMigration performFile
  cases hsteps : migrationSteps migration with
  | error message => exact Or.inr ⟨w, rfl, Or.inl ⟨rfl, hat⟩⟩
  | ok steps =>
    have hrecognised := recognised_of_migrationSteps hsteps
    have hpartway := hat.partway hsteps
    have hapart := ChangesOnce.pairwise honce hsteps
    simp only
    rcases @applySteps_cases server migration steps w with ⟨w₁, hok, hall, hledger⟩ |
      ⟨w₁, herror, hstopped, hledger⟩
    · have hreached := (replayable server).performAll_of_partway hrecognised hapart hpartway hall
      rw [hok, ← hledger]
      rcases record_cases migration.id w₁ with ⟨w₂, hrecord, hschema, hrecorded, -⟩ |
        ⟨w₂, hrecord, hschema, hrecorded, -⟩
      · refine Or.inl ⟨w₂, hrecord, ?_, hrecorded⟩
        rw [hschema, hreached]
      · refine Or.inr ⟨w₂, hrecord, ?_⟩
        rw [hschema]
        rcases hrecorded with hnot | hrecorded
        · exact Or.inl ⟨hnot, Or.inr ⟨migration, rest, steps, rfl, hsteps,
            Partway.of_performAll hreached⟩⟩
        · exact Or.inr ⟨hrecorded, hreached⟩
    · rw [herror]
      refine Or.inr ⟨w₁, rfl, Or.inl ⟨hledger, Or.inr ⟨migration, rest, steps, rfl, hsteps, ?_⟩⟩⟩
      exact (replayable server).partway_trans hrecognised hapart hpartway hstopped

/-- Some of the files that are to do are recorded, and the next one may have begun. -/
def Progress (server : Server) (todo : List MigrationFile) (start w : World) : Prop :=
  ∃ done rest reached, todo = done ++ rest ∧
    w.ledger = start.ledger ++ done.map MigrationFile.id ∧
    performAll (performFile server) done start.schema = some reached ∧
    At server rest reached w.schema

/-- The files that are left go through, or the run stops among them. -/
theorem applyRest_cases {start : World} (honce : ∀ migration ∈ rest, server.ChangesOnce migration)
    (hledger : w.ledger = start.ledger ++ done.map MigrationFile.id)
    (hdone : performAll (performFile server) done start.schema = some reached)
    (hat : At server rest reached w.schema) :
    (∃ w', rest.foldlM (fun w migration => server.applyMigration migration w) w = .ok w' ∧
      performAll (performFile server) (done ++ rest) start.schema = some w'.schema ∧
      w'.ledger = start.ledger ++ (done ++ rest).map MigrationFile.id) ∨
    ∃ w', rest.foldlM (fun w migration => server.applyMigration migration w) w =
      (.error w' : Except World World) ∧ Progress server (done ++ rest) start w' := by
  induction rest generalizing done reached w with
  | nil =>
    have hschema : w.schema = reached := by
      rcases hat with hsame | ⟨migration, more, steps, heq, -⟩
      · exact hsame
      · exact absurd heq (by simp)
    refine Or.inl ⟨w, rfl, ?_, ?_⟩
    · rw [List.append_nil, hdone, hschema]
    · rw [List.append_nil, hledger]
  | cons migration rest ih =>
    have happend : done ++ migration :: rest = (done ++ [migration]) ++ rest := by simp
    have hnext {schema : Schema} (hfile : performFile server migration reached = some schema) :
        performAll (performFile server) (done ++ [migration]) start.schema = some schema := by
      rw [performAll_append, hdone, Option.bind_some, performAll_singleton, hfile]
    have hrecorded {w' : World} (h : w'.ledger = w.ledger ++ [migration.id]) :
        w'.ledger = start.ledger ++ (done ++ [migration]).map MigrationFile.id := by
      rw [h, hledger]
      simp
    rcases applyMigration_cases (honce migration List.mem_cons_self) hat with
      ⟨w₁, hok, hfile, hledger₁⟩ | ⟨w₁, herror, hstopped⟩
    · rw [happend, List.foldlM_cons, hok]
      exact ih (fun other hother => honce other (List.mem_cons_of_mem migration hother))
        (hrecorded hledger₁) (hnext hfile) (Or.inl rfl)
    · rw [List.foldlM_cons, herror]
      refine Or.inr ⟨w₁, rfl, ?_⟩
      rcases hstopped with ⟨hledger₁, hat₁⟩ | ⟨hledger₁, hfile⟩
      · exact ⟨done, migration :: rest, reached, rfl, hledger₁.trans hledger, hdone, hat₁⟩
      · exact ⟨done ++ [migration], rest, w₁.schema, happend, hrecorded hledger₁, hnext hfile,
          Or.inl rfl⟩

/-- The files that a ledger does not have. -/
def pending (ledger : List String) (files : List MigrationFile) : List MigrationFile :=
  files.filter fun migration => migration.id ∉ ledger

theorem applyPending_eq (applied : List String) (files : List MigrationFile) (w : World) :
    server.applyPending applied files w =
      (pending applied files).foldlM (fun w migration => server.applyMigration migration w) w := by
  induction files generalizing w with
  | nil => rfl
  | cons migration files ih =>
    rw [applyPending, List.foldlM_cons]
    by_cases happlied : migration.id ∈ applied
    · rw [if_pos happlied, pending, List.filter_cons_of_neg (by simpa using happlied)]
      exact ih w
    · rw [if_neg happlied, pending, List.filter_cons_of_pos (by simpa using happlied),
        List.foldlM_cons]
      congr 1
      funext next
      exact ih next

/-- What is left to do after some of it is recorded. -/
theorem pending_append {ledger : List String} {files : List MigrationFile}
    (hids : (files.map MigrationFile.id).Nodup) (h : pending ledger files = done ++ rest) :
    pending (ledger ++ done.map MigrationFile.id) files = rest := by
  have hsplit : pending (ledger ++ done.map MigrationFile.id) files =
      (pending ledger files).filter fun migration => migration.id ∉ done.map MigrationFile.id := by
    rw [pending, pending, List.filter_filter]
    apply List.filter_congr
    intro migration _
    simp only [List.mem_append, not_or, Bool.decide_and, Bool.and_comm]
  have hnodup : ((done ++ rest).map MigrationFile.id).Nodup := by
    rw [← h]
    exact (List.filter_sublist.map MigrationFile.id).nodup hids
  rw [List.map_append, List.nodup_append] at hnodup
  rw [hsplit, h, List.filter_append]
  have hdone : (done.filter fun migration => migration.id ∉ done.map MigrationFile.id) = [] := by
    apply List.filter_eq_nil_iff.mpr
    intro migration hmigration
    simpa using ⟨migration, hmigration, rfl⟩
  have hrest : (rest.filter fun migration => migration.id ∉ done.map MigrationFile.id) = rest := by
    apply List.filter_eq_self.mpr
    intro migration hmigration
    have hnot : migration.id ∉ done.map MigrationFile.id := fun hmem =>
      hnodup.2.2 _ hmem _ (List.mem_map_of_mem hmigration) rfl
    simpa using hnot
  rw [hdone, hrest, List.nil_append]

section Runs

variable {κ : Type} [LinearOrder κ] {collate : String → κ} {files : List MigrationFile}

/-- The files in the order they are applied in. -/
def ordered (collate : String → κ) (files : List MigrationFile) : List MigrationFile :=
  sortBy (fun migration => collate migration.id) files

theorem ordered_nodup (hids : (files.map MigrationFile.id).Nodup) :
    ((ordered collate files).map MigrationFile.id).Nodup :=
  ((sortBy_perm _ files).map MigrationFile.id).nodup_iff.mpr hids

variable {migration : MigrationFile} {start w : World} {schema : Schema}

theorem mem_ordered :
    migration ∈ ordered collate files ↔ migration ∈ files := (sortBy_perm _ files).mem_iff

/-- A run goes through with what there was to do from the start, or stops among it. -/
theorem runMigrations_cases (hids : (files.map MigrationFile.id).Nodup)
    (honce : ∀ migration ∈ files, server.ChangesOnce migration)
    (h : Progress server (pending start.ledger (ordered collate files)) start w) :
    (∃ w', server.runMigrations collate files w = .ok w' ∧
      performAll (performFile server) (pending start.ledger (ordered collate files))
        start.schema = some w'.schema ∧
      w'.ledger = start.ledger ++
        (pending start.ledger (ordered collate files)).map MigrationFile.id) ∨
    ∃ w', server.runMigrations collate files w = .error w' ∧
      Progress server (pending start.ledger (ordered collate files)) start w' := by
  unfold runMigrations
  cases hask : w.ask with
  | error w₁ =>
    obtain rfl := ask_error hask
    exact Or.inr ⟨w₁, rfl, h⟩
  | ok w₁ =>
    obtain rfl := ask_ok hask
    simp only [bind, Except.bind]
    cases hask₁ : w.count.ask with
    | error w₂ =>
      obtain rfl := ask_error hask₁
      exact Or.inr ⟨w.count, rfl, h⟩
    | ok w₂ =>
      obtain rfl := ask_ok hask₁
      obtain ⟨done, rest, reached, htodo, hledger, hdone, hat⟩ := h
      have hrest : pending w.ledger (ordered collate files) = rest := by
        rw [hledger]
        exact pending_append (ordered_nodup hids) htodo
      have hpending : server.applyPending w.count.count.ledger (ordered collate files)
          w.count.count = rest.foldlM (fun w migration => server.applyMigration migration w)
            w.count.count := by
        have hleft : pending w.count.count.ledger (ordered collate files) = rest := hrest
        rw [applyPending_eq, hleft]
      have honceRest : ∀ migration ∈ rest, server.ChangesOnce migration := by
        intro migration hmigration
        apply honce
        rw [← hrest] at hmigration
        exact mem_ordered.mp (List.mem_filter.mp hmigration).1
      rw [htodo]
      simp only
      rw [← ordered, hpending]
      exact applyRest_cases honceRest hledger hdone hat

/-- Whatever runs there are, what was to do is done up to some point. -/
theorem attempts_progress (hids : (files.map MigrationFile.id).Nodup)
    (honce : ∀ migration ∈ files, server.ChangesOnce migration)
    (h : Progress server (pending start.ledger (ordered collate files)) start w)
    (connections : List (Option ℕ × Bool)) :
    Progress server (pending start.ledger (ordered collate files)) start
      (server.attempts collate files connections w) := by
  induction connections generalizing w with
  | nil => exact h
  | cons connection connections ih =>
    have hconnected : Progress server (pending start.ledger (ordered collate files)) start
        (w.connect connection.1 connection.2) := h
    rw [attempts, List.foldl_cons]
    apply ih
    rcases runMigrations_cases hids honce hconnected with ⟨w', hrun, hall, hledger⟩ |
      ⟨w', hrun, hprogress⟩
    · rw [hrun]
      exact ⟨_, [], w'.schema, (List.append_nil _).symm, hledger, hall, Or.inl rfl⟩
    · rw [hrun]
      exact hprogress

theorem Progress.refl (todo : List MigrationFile) (start : World) :
    Progress server todo start start :=
  ⟨[], todo, start.schema, rfl, by simp, rfl, Or.inl rfl⟩

/-! ## A run that is not interrupted -/

/-- On a connection that does not break, what can go through goes through. -/
theorem applyStep_unbroken {step : MigrationStep} (hleft : w.left = none)
    (h : server.perform step w.schema = some schema) :
    ∃ w', server.applyStep migration step w = .ok w' ∧ w'.schema = schema ∧
      w'.ledger = w.ledger ∧ w'.left = none := by
  have hanswered : ¬w.left = some 0 := by simp [hleft]
  have hcount : w.count.left = none := by simp [World.count, hleft]
  unfold applyStep
  unfold perform at h
  split at h
  · rename_i hstep
    refine ⟨{ w.count with schema := schema, sent := w.sent ++ [⟨migration, step, w.schema⟩] }, ?_,
      rfl, rfl, hcount⟩
    rw [if_pos hstep]
    simp only [query, h, if_neg hanswered]
    rfl
  · rename_i hstep
    have hask : w.ask = .ok w.count := if_neg hanswered
    have hpresent : server.present w.count.schema step = server.present w.schema step := rfl
    rw [if_neg hstep, hask]
    simp only [bind, Except.bind, hpresent]
    cases hthere : server.present w.schema step with
    | none => simp [hthere] at h
    | some there =>
      cases there with
      | true =>
        simp only [hthere, Option.some_inj] at h
        exact ⟨w.count, rfl, h, rfl, hcount⟩
      | false =>
        simp only [hthere] at h
        obtain ⟨hexecute, hafter⟩ := Option.filter_eq_some_iff.mp h
        have hdone : server.present schema step = some true := beq_iff_eq.mp hafter
        have hquery : server.query migration step w.count = .ok
            ({ w.count.count with
                schema := schema, sent := w.sent ++ [⟨migration, step, w.schema⟩] } : World) := by
          have hexecute' : server.execute step.sql w.count.schema = some schema := hexecute
          have hanswered' : ¬w.count.left = some 0 := by simp [hcount]
          simp only [query, hexecute', if_neg hanswered']
          rfl
        have hask₁ (w' : World) (hleft' : w'.left = none) : w'.ask = .ok w'.count :=
          if_neg (by simp [hleft'])
        simp only [hquery]
        rw [hask₁ _ (by simp [World.count, hleft])]
        have hdone' : server.present (World.count
            { w.count.count with
                schema := schema, sent := w.sent ++ [⟨migration, step, w.schema⟩] }).schema step =
            some true := hdone
        simp only [hdone']
        exact ⟨_, rfl, rfl, rfl, by simp [World.count, hleft]⟩

theorem applySteps_unbroken {steps : List MigrationStep} (hleft : w.left = none)
    (h : performAll server.perform steps w.schema = some schema) :
    ∃ w', server.applySteps migration steps w = .ok w' ∧ w'.schema = schema ∧
      w'.ledger = w.ledger ∧ w'.left = none := by
  induction steps generalizing w with
  | nil => exact ⟨w, rfl, Option.some_inj.mp h, rfl, hleft⟩
  | cons step steps ih =>
    rw [performAll_cons] at h
    obtain ⟨next, hnext, hrest⟩ := Option.bind_eq_some_iff.mp h
    obtain ⟨w₁, hok, rfl, hledger, hleft₁⟩ := @applyStep_unbroken server migration w _ step hleft hnext
    obtain ⟨w₂, hok₂, hschema, hledger₂, hleft₂⟩ := ih hleft₁ hrest
    refine ⟨w₂, ?_, hschema, hledger₂.trans hledger, hleft₂⟩
    rw [applySteps, List.foldlM_cons, hok]
    exact hok₂

theorem applyFiles_unbroken {rest : List MigrationFile} (hleft : w.left = none)
    (hids : (rest.map MigrationFile.id).Nodup)
    (hnew : ∀ migration ∈ rest, migration.id ∉ w.ledger)
    (h : performAll (performFile server) rest w.schema = some schema) :
    ∃ w', rest.foldlM (fun w migration => server.applyMigration migration w) w = .ok w' ∧
      w'.schema = schema ∧ w'.ledger = w.ledger ++ rest.map MigrationFile.id := by
  induction rest generalizing w with
  | nil => exact ⟨w, rfl, Option.some_inj.mp h, (List.append_nil _).symm⟩
  | cons migration rest ih =>
    rw [performAll_cons] at h
    obtain ⟨next, hfile, hrest⟩ := Option.bind_eq_some_iff.mp h
    unfold performFile at hfile
    cases hsteps : migrationSteps migration with
    | error message => simp [hsteps] at hfile
    | ok steps =>
      simp only [hsteps] at hfile
      obtain ⟨w₁, hok, rfl, hledger, hleft₁⟩ :=
        @applySteps_unbroken server migration w _ steps hleft hfile
      have hrecord : record migration.id w₁ =
          .ok { w₁.count with ledger := w₁.ledger ++ [migration.id] } := by
        rw [record, if_neg (hledger ▸ hnew migration List.mem_cons_self), if_neg (by simp [hleft₁])]
      rw [List.map_cons, List.nodup_cons] at hids
      obtain ⟨w₂, hok₂, hschema, hledger₂⟩ :=
        @ih { w₁.count with ledger := w₁.ledger ++ [migration.id] } (by simp [World.count, hleft₁])
          hids.2 (by
            intro other hother hmem
            rcases List.mem_append.mp hmem with hold | hlast
            · exact hnew other (List.mem_cons_of_mem migration hother) (hledger ▸ hold)
            · have hsame := List.mem_singleton.mp hlast
              exact hids.1 (hsame ▸ List.mem_map_of_mem hother)) hrest
      refine ⟨w₂, ?_, hschema, ?_⟩
      · simp only [List.foldlM_cons, applyMigration, hsteps, hok, hrecord, bind, Except.bind]
        exact hok₂
      · rw [hledger₂, hledger]
        simp

theorem runMigrations_unbroken (hids : (files.map MigrationFile.id).Nodup) (hleft : w.left = none)
    (h : performAll (performFile server) (pending w.ledger (ordered collate files)) w.schema =
      some schema) :
    ∃ w', server.runMigrations collate files w = .ok w' ∧ w'.schema = schema ∧
      w'.ledger = w.ledger ++ (pending w.ledger (ordered collate files)).map MigrationFile.id := by
  have hask : w.ask = .ok w.count := if_neg (by simp [hleft])
  have hask₁ : w.count.ask = .ok w.count.count := if_neg (by simp [World.count, hleft])
  have hnodup : ((pending w.ledger (ordered collate files)).map MigrationFile.id).Nodup :=
    (List.filter_sublist.map MigrationFile.id).nodup (ordered_nodup hids)
  have hnew : ∀ migration ∈ pending w.ledger (ordered collate files),
      migration.id ∉ w.count.count.ledger := by
    intro migration hmigration
    have hnot : migration.id ∉ w.ledger := by simpa using (List.mem_filter.mp hmigration).2
    exact hnot
  obtain ⟨w', hok, hschema, hledger⟩ := @applyFiles_unbroken server w.count.count _ _
    (by simp [World.count, hleft]) hnodup hnew h
  refine ⟨w', ?_, hschema, hledger⟩
  rw [runMigrations, hask]
  simp only [bind, Except.bind, hask₁]
  rw [← ordered, applyPending_eq]
  exact hok

/-! ## The statements that were sent -/

/-- The statement is one of a file all of which is supported; it is replayable as it is, or what it
makes was not there. -/
def Sent.Fit (server : Server) (files : List MigrationFile) (entry : Sent) : Prop :=
  entry.migration ∈ files ∧
    (∃ steps, migrationSteps entry.migration = .ok steps ∧ entry.step ∈ steps) ∧
    ((∃ sql, entry.step = .statement sql ∧
        (isCreateTable (trimText (collapse sql)) = true ∨ sql = OUTBOX_PRIORITY_BACKFILL)) ∨
      server.present entry.schema entry.step = some false)

/-- All that was sent so far is fit. -/
def AllFit (server : Server) (files : List MigrationFile) (w : World) : Prop :=
  ∀ entry ∈ w.sent, Sent.Fit server files entry

theorem AllFit.sends {step : MigrationStep} {w' : World} (h : AllFit server files w)
    (hmigration : migration ∈ files) {steps : List MigrationStep}
    (hsteps : migrationSteps migration = .ok steps) (hstep : step ∈ steps)
    (hsends : Sends server migration step w w') : AllFit server files w' := by
  intro entry hentry
  rcases hsends.sent with hsame | ⟨hmore, hmissing⟩
  · exact h entry (hsame ▸ hentry)
  · rw [hmore] at hentry
    rcases List.mem_append.mp hentry with hold | hnew
    · exact h entry hold
    · obtain rfl := List.mem_singleton.mp hnew
      refine ⟨hmigration, ⟨steps, hsteps, hstep⟩, ?_⟩
      cases step with
      | statement sql =>
        exact Or.inl ⟨sql, rfl, recognised_of_migrationSteps hsteps _ hstep⟩
      | column step => exact Or.inr (hmissing rfl)
      | widen step => exact Or.inr (hmissing rfl)
      | index step => exact Or.inr (hmissing rfl)

theorem AllFit.applySteps (h : AllFit server files w) (hmigration : migration ∈ files)
    {steps all : List MigrationStep} (hall : migrationSteps migration = .ok all)
    (hsteps : ∀ step ∈ steps, step ∈ all) :
    AllFit server files (World.after (server.applySteps migration steps w)) := by
  induction steps generalizing w with
  | nil => exact h
  | cons step steps ih =>
    rw [Server.applySteps, List.foldlM_cons]
    rcases @applyStep_cases server migration step w with ⟨w₁, hok, -, hsends⟩ | ⟨w₁, herror, -, hsends⟩
    · rw [hok]
      exact ih (h.sends hmigration hall (hsteps step List.mem_cons_self) hsends)
        fun other hother => hsteps other (List.mem_cons_of_mem step hother)
    · rw [herror]
      exact h.sends hmigration hall (hsteps step List.mem_cons_self) hsends

theorem AllFit.applyMigration (h : AllFit server files w) (hmigration : migration ∈ files) :
    AllFit server files (World.after (server.applyMigration migration w)) := by
  unfold Server.applyMigration
  cases hsteps : migrationSteps migration with
  | error message => exact h
  | ok steps =>
    have hfit := h.applySteps hmigration hsteps fun step hstep => hstep
    simp only
    cases happly : server.applySteps migration steps w with
    | error w₁ =>
      rw [happly] at hfit
      exact hfit
    | ok w₁ =>
      rw [happly] at hfit
      simp only [bind, Except.bind]
      rcases record_cases migration.id w₁ with ⟨w₂, hrecord, -, -, hsent⟩ |
        ⟨w₂, hrecord, -, -, hsent⟩
      · rw [hrecord]
        exact fun entry hentry => hfit entry (hsent ▸ hentry)
      · rw [hrecord]
        exact fun entry hentry => hfit entry (hsent ▸ hentry)

theorem AllFit.applyFiles {rest : List MigrationFile} (h : AllFit server files w)
    (hrest : ∀ migration ∈ rest, migration ∈ files) :
    AllFit server files
      (World.after (rest.foldlM (fun w migration => server.applyMigration migration w) w)) := by
  induction rest generalizing w with
  | nil => exact h
  | cons migration rest ih =>
    have hfit := h.applyMigration (hrest migration List.mem_cons_self)
    rw [List.foldlM_cons]
    cases happly : server.applyMigration migration w with
    | error w₁ =>
      rw [happly] at hfit
      exact hfit
    | ok w₁ =>
      rw [happly] at hfit
      exact ih hfit fun other hother => hrest other (List.mem_cons_of_mem migration hother)

theorem AllFit.run (h : AllFit server files w) :
    AllFit server files (World.after (server.runMigrations collate files w)) := by
  unfold runMigrations
  cases hask : w.ask with
  | error w₁ =>
    obtain rfl := ask_error hask
    exact h
  | ok w₁ =>
    obtain rfl := ask_ok hask
    simp only [bind, Except.bind]
    cases hask₁ : w.count.ask with
    | error w₂ =>
      obtain rfl := ask_error hask₁
      exact h
    | ok w₂ =>
      obtain rfl := ask_ok hask₁
      simp only
      rw [← ordered, applyPending_eq]
      have hcount : AllFit server files w.count.count := h
      exact hcount.applyFiles fun migration hmigration =>
        mem_ordered.mp (List.mem_filter.mp hmigration).1

theorem AllFit.attempts (h : AllFit server files w) (connections : List (Option ℕ × Bool)) :
    AllFit server files (server.attempts collate files connections w) := by
  induction connections generalizing w with
  | nil => exact h
  | cons connection connections ih =>
    rw [Server.attempts, List.foldl_cons]
    exact ih (AllFit.run (w := w.connect connection.1 connection.2) h)

end Runs

/-! ## Replaying -/

/-- Whatever runs there were before it, however they ended, a run that goes through leaves the
schema and the ledger of one run that is not interrupted. Nothing is sent of a file with a statement
that is not supported, and nothing that is done already, but for what can be sent twice. -/
theorem migrations_are_replayable {κ : Type} [LinearOrder κ] (collate : String → κ)
    {files : List MigrationFile} (hids : (files.map MigrationFile.id).Nodup)
    (honce : ∀ migration ∈ files, server.ChangesOnce migration) {start : World}
    (hstart : start.sent = []) (connections : List (Option ℕ × Bool)) :
    (∀ left lands finished, server.runMigrations collate files
        ((server.attempts collate files connections start).connect left lands) = .ok finished →
      ∃ once, server.runMigrations collate files (start.connect none true) = .ok once ∧
        once.schema = finished.schema ∧ once.ledger = finished.ledger) ∧
    ∀ entry ∈ (server.attempts collate files connections start).sent,
      Sent.Fit server files entry := by
  constructor
  · intro left lands finished hfinished
    have hprogress : Progress server (pending start.ledger (ordered collate files)) start
        ((server.attempts collate files connections start).connect left lands) :=
      attempts_progress hids honce (Progress.refl _ start) connections
    rcases runMigrations_cases hids honce hprogress with ⟨w', hrun, hall, hledger⟩ | ⟨w', hrun, -⟩
    · obtain rfl : w' = finished := Except.ok.inj (hrun.symm.trans hfinished)
      obtain ⟨once, honceRun, hschema, honceLedger⟩ :=
        @runMigrations_unbroken server κ _ collate files (start.connect none true) _ hids rfl hall
      exact ⟨once, honceRun, hschema, honceLedger.trans hledger.symm⟩
    · rw [hrun] at hfinished
      exact absurd hfinished (by simp)
  · have hnone : AllFit server files start := by
      intro entry hentry
      rw [hstart] at hentry
      exact absurd hentry List.not_mem_nil
    exact hnone.attempts connections

end Server

/-! ## A run that breaks -/

def addPriority : Text :=
  "ALTER TABLE email_outbox ADD COLUMN priority INT NOT NULL DEFAULT 1".toList

def indexPriority : Text :=
  "CREATE INDEX ix_email_outbox_priority ON email_outbox (status, priority DESC)".toList

/-- What a server reports of an index column. -/
def btreeRow (name : String) (descending : Bool) : IndexRow :=
  ⟨some name.toList, descending, true, none, "BTREE".toList, true, none⟩

/-- A server that takes two statements. -/
def outboxServer : Server where
  reads sql :=
    if sql = addPriority then
      some (.addColumn "email_outbox".toList "priority".toList
        ⟨"int".toList, false, some ['1'], [], [], none⟩)
    else if sql = indexPriority then
      some (.createIndex "email_outbox".toList "ix_email_outbox_priority".toList
        [btreeRow "status" false, btreeRow "priority" true])
    else none
  tableName := id
  columnName := List.map Char.toLower
  refuses _ _ := false
  reads_createTable := by
    intro sql ddl hcreate hreads
    split at hreads
    · rename_i hsql
      rw [hsql] at hcreate
      exact absurd hcreate (by decide +kernel)
    · split at hreads
      · rename_i hsql
        rw [hsql] at hcreate
        exact absurd hcreate (by decide +kernel)
      · exact absurd hreads (Option.some_ne_none ddl).symm
  reads_addColumn := by
    intro sql step ddl hstep hreads
    split at hreads
    · rename_i hsql
      have hread : addColumn addPriority = some ⟨addPriority, "email_outbox".toList,
          "priority".toList, "int".toList, false, some ['1'], false⟩ := by decide +kernel
      rw [hsql, hread, Option.some_inj] at hstep
      obtain rfl := Option.some_inj.mp hreads
      subst hstep
      exact ⟨_, rfl⟩
    · split at hreads
      · rename_i hsql
        have hread : addColumn indexPriority = none := by decide +kernel
        rw [hsql, hread] at hstep
        exact absurd hstep (Option.some_ne_none step).symm
      · exact absurd hreads (Option.some_ne_none ddl).symm
  reads_widenColumn := by
    intro sql step ddl hstep hreads
    have hfirst : widenColumn addPriority = none := by decide +kernel
    have hsecond : widenColumn indexPriority = none := by decide +kernel
    split at hreads
    · rename_i hsql
      rw [hsql, hfirst] at hstep
      exact absurd hstep (Option.some_ne_none step).symm
    · split at hreads
      · rename_i hsql
        rw [hsql, hsecond] at hstep
        exact absurd hstep (Option.some_ne_none step).symm
      · exact absurd hreads (Option.some_ne_none ddl).symm
  reads_createIndex := by
    intro sql name table columns ddl hindex hreads
    split at hreads
    · rename_i hsql
      have hread : createIndex addPriority = none := by decide +kernel
      rw [hsql, hread] at hindex
      exact absurd hindex (Option.some_ne_none _).symm
    · split at hreads
      · rename_i hsql
        have hread : createIndex indexPriority = some ("ix_email_outbox_priority".toList,
            "email_outbox".toList, "status, priority DESC".toList) := by decide +kernel
        rw [hsql, hread, Option.some_inj] at hindex
        obtain rfl := Option.some_inj.mp hreads
        obtain ⟨rfl, rfl, -⟩ := (by simpa using hindex : _ ∧ _ ∧ _)
        exact ⟨_, rfl, by simp⟩
      · exact absurd hreads (Option.some_ne_none ddl).symm
  reads_backfill := by
    intro ddl hreads
    have hfirst : OUTBOX_PRIORITY_BACKFILL ≠ addPriority := by decide +kernel
    have hsecond : OUTBOX_PRIORITY_BACKFILL ≠ indexPriority := by decide +kernel
    rw [if_neg hfirst, if_neg hsecond] at hreads
    exact absurd hreads (Option.some_ne_none ddl).symm

/-- The connection breaks with the column added and nothing known of it; the next run goes through. -/
theorem outbox_migration_is_replayed :
    let files : List MigrationFile :=
      [⟨"009_outbox_priority", addPriority ++ ";\n".toList ++ indexPriority ++ [';']⟩]
    let table : Table := ⟨"utf8mb4_bin".toList,
      OrderedMap.empty.set "status".toList
        ⟨"varchar(32)".toList, false, none, [], [], some "utf8mb4_bin".toList⟩, OrderedMap.empty⟩
    let start : World := ⟨OrderedMap.empty.set "email_outbox".toList table, [], [], none, true⟩
    ∃ finished once,
      outboxServer.runMigrations String.length files
        ((outboxServer.attempts String.length files [(some 3, true)] start).connect none true) =
          .ok finished ∧
      outboxServer.runMigrations String.length files (start.connect none true) = .ok once ∧
      once.schema = finished.schema ∧ once.ledger = finished.ledger := by
  intro files table start
  have honce : ∀ migration ∈ files, outboxServer.ChangesOnce migration := by
    intro migration hmigration steps hsteps
    obtain rfl := List.mem_singleton.mp hmigration
    have hnodup : (((migrationSteps ⟨"009_outbox_priority",
        addPriority ++ ";\n".toList ++ indexPriority ++ [';']⟩).toOption.getD []).filterMap
          outboxServer.target).Nodup := by decide +kernel
    rwa [hsteps] at hnodup
  have hrun : (outboxServer.runMigrations String.length files
      ((outboxServer.attempts String.length files [(some 3, true)] start).connect none true)).isOk =
        true := by decide +kernel
  cases hfinished : outboxServer.runMigrations String.length files
      ((outboxServer.attempts String.length files [(some 3, true)] start).connect none true) with
  | error w =>
    rw [hfinished] at hrun
    exact absurd hrun Bool.false_ne_true
  | ok finished =>
    obtain ⟨once, honceRun, hschema, hledger⟩ := (@Server.migrations_are_replayable outboxServer ℕ _
      String.length files (List.nodup_singleton _) honce start rfl [(some 3, true)]).1 none true
        finished hfinished
    exact ⟨finished, once, rfl, honceRun, hschema, hledger⟩

end FerrumNexus.Migrations
