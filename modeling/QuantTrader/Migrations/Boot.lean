import QuantTrader.Migrations.Files
import QuantTrader.Transition.Triple

/-! # Boots

A boot migrates Postgres and repairs it on one connection, then migrates
ClickHouse. Any statement can fail, also after the server carried it out; a
connection keeps its work only if it commits, ClickHouse keeps every statement.
-/

namespace QuantTrader.Migrations

open Transition

/-- What `init_db` reads from the repository, and what a Postgres statement does to the data; a
statement may be refused. -/
structure Deployment (σ : Type) where
  unicode : Unicode
  postgres : List SqlFile
  repair : String
  clickhouse : List SqlFile
  exec : List Char → σ → Option σ

/-- A row of `schema_migrations`. -/
structure Record where
  version : ℕ
  filename : String
  deriving DecidableEq

/-- The data and, once it is created, the history table. -/
structure Postgres (σ : Type) where
  data : σ
  schemaMigrations : Option (List Record)

/-- What ClickHouse carried out, in order. -/
inductive Entry
  | createHistory
  | statement (stmt : List Char)
  | record (row : Record)
  deriving DecidableEq

structure World (σ : Type) where
  postgres : Postgres σ
  clickhouse : List Entry
  issued : ℕ

/-- The statements of a boot that fail, by their number; the flag says whether the server carried
the statement out all the same. -/
abbrev Faults := ℕ → Option Bool

inductive BootError
  | refused
  | lost
  | value (message : String)

abbrev Db (σ : Type) := EStateM BootError (World σ)

variable {σ : Type}

def Postgres.recorded (p : Postgres σ) : List Record := p.schemaMigrations.getD []

def Entry.row? : Entry → Option Record
  | record row => some row
  | _ => none

def recorded (journal : List Entry) : List Record := journal.filterMap Entry.row?

def Migration.record (m : Migration) : Record := ⟨m.1, m.2.name⟩

section

variable (d : Deployment σ) (faults : Faults)

/-! ## Statements -/

/-- One statement, which carries out `effect` unless the server refuses it. -/
def send (effect : World σ → Option (World σ)) : Db σ Unit := fun w =>
  let sent := { w with issued := w.issued + 1 }
  match faults w.issued with
  | none =>
    match effect sent with
    | some w' => .ok () w'
    | none => .error .refused sent
  | some done => .error .lost (if done then (effect sent).getD sent else sent)

def onPostgres (op : Postgres σ → Option (Postgres σ)) : Db σ Unit :=
  send faults fun w => (op w.postgres).map fun postgres => { w with postgres }

def onClickhouse (entry : Entry) : Db σ Unit :=
  send faults fun w => some { w with clickhouse := w.clickhouse ++ [entry] }

/-- An exception undoes the work on Postgres. -/
def undo (before after : World σ) : World σ := { after with postgres := before.postgres }

/-- `conn.transaction()`: a savepoint, as the connection is already in a transaction. -/
def transaction {α : Type} (body : Db σ α) : Db σ α := guarded undo body

/-- `pool.connection()`: commits when the body returns. -/
def connection {α : Type} (body : Db σ α) : Db σ α := fun w =>
  match guarded undo body w with
  | .error e w' => .error e w'
  | .ok a w' =>
    let sent := { w' with issued := w'.issued + 1 }
    match faults w'.issued with
    | none => .ok a sent
    | some done => .error .lost (if done then sent else undo w sent)

def ofExcept {α : Type} : Except String α → Db σ α
  | .ok a => pure a
  | .error message => throw (.value message)

/-! ## Postgres -/

def createHistory (p : Postgres σ) : Option (Postgres σ) :=
  some { p with schemaMigrations := some p.recorded }

def selectVersions (p : Postgres σ) : Option (Postgres σ) :=
  if p.schemaMigrations.isSome then some p else none

def execute (stmt : List Char) (p : Postgres σ) : Option (Postgres σ) :=
  (d.exec stmt p.data).map fun data => { p with data }

/-- The insert of a history row, whose version is the primary key. -/
def insertRecord (row : Record) (p : Postgres σ) : Option (Postgres σ) :=
  match p.schemaMigrations with
  | none => none
  | some rows =>
    if row.version ∈ rows.map Record.version then none
    else some { p with schemaMigrations := some (rows ++ [row]) }

def executeAll (sql : String) : Db σ Unit :=
  (statements d.unicode sql).foldlM (fun _ stmt => onPostgres faults (execute d stmt)) ()

/-- One file of `apply_postgres`, with the names of those applied. -/
def applyPostgresFile (done : List ℕ) (applied : List String) (m : Migration) :
    Db σ (List String) :=
  if m.1 ∈ done then pure applied
  else do
    transaction do
      executeAll d faults m.2.text
      onPostgres faults (insertRecord m.record)
    pure (applied ++ [m.2.name])

def applyPostgres : Db σ (List String) := do
  onPostgres faults createHistory
  onPostgres faults selectVersions
  let w ← get
  let files ← ofExcept (migrationFiles d.unicode d.postgres)
  files.foldlM (applyPostgresFile d faults (w.postgres.recorded.map Record.version)) []

def applyPostgresRepair : Db σ Unit := transaction (executeAll d faults d.repair)

/-! ## ClickHouse -/

/-- One file of `apply_clickhouse`. -/
def applyClickhouseFile (done : List ℕ) (applied : List String) (m : Migration) :
    Db σ (List String) :=
  if m.1 ∈ done then pure applied
  else do
    (statements d.unicode m.2.text).foldlM (fun _ stmt => onClickhouse faults (.statement stmt)) ()
    onClickhouse faults (.record m.record)
    pure (applied ++ [m.2.name])

def applyClickhouse : Db σ (List String) := do
  onClickhouse faults .createHistory
  send faults some
  let w ← get
  let files ← ofExcept (migrationFiles d.unicode d.clickhouse)
  files.foldlM (applyClickhouseFile d faults ((recorded w.clickhouse).map Record.version)) []

/-! ## `init_db` -/

def main : Db σ (List String × List String) := do
  let postgres ← connection faults do
    let applied ← applyPostgres d faults
    applyPostgresRepair d faults
    pure applied
  let clickhouse ← applyClickhouse d faults
  pure (postgres, clickhouse)

/-- What a boot leaves, whichever way it ends. -/
def boot (w : World σ) (faults : Faults) : World σ :=
  match main d faults { w with issued := 0 } with
  | .ok _ w' => w'
  | .error _ w' => w'

end

def World.init (data : σ) : World σ := ⟨⟨data, none⟩, [], 0⟩

def boots (d : Deployment σ) (w : World σ) (runs : List Faults) : World σ := runs.foldl (boot d) w

end QuantTrader.Migrations
