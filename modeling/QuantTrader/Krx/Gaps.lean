import QuantTrader.Krx.Market
import QuantTrader.Transition.Run

/-! # Gaps of the incremental collector

A run that no symbol fails stores every day of the source from its resume point
on. A gap before the resume point stays. The resume point follows the latest dates
of whole tables, so it passes the days of a symbol that fails while other symbols
lead it by more than the buffer in all three tables.
-/

namespace QuantTrader.Krx

open Transition

variable {F : Type} [Zero F]

inductive Table
  | flow
  | holding
  | short
  deriving DecidableEq

def Table.all : List Table := [.flow, .holding, .short]

/-- The symbols and dates of the rows of a table. -/
def Tables.days (t : Tables F) : Table → List (String × ℤ)
  | .flow => t.flow.map fun row => (row.symbol, row.date)
  | .holding => t.holding.map fun row => (row.symbol, row.date)
  | .short => t.short.map fun row => (row.symbol, row.date)

/-- The dates for which the source has rows of a symbol. -/
def Quotes.days (q : Quotes F) (symbol : String) : Table → List ℤ
  | .flow => (flowRows symbol q).map FlowRow.date
  | .holding => (holdingRows symbol q).map HoldingRow.date
  | .short => (shortRows symbol q).map ShortRow.date

/-- The number of inserts after which the rows of a table are in. -/
def Table.inserts : Table → ℕ
  | .flow => 1
  | .holding => 2
  | .short => 3

/-- A listed symbol fails before its rows go in a table, and lacks a day of the run there. -/
structure Missed (run : Run F) (start : ℤ) (t : Tables F) (symbol : String) (table : Table)
    (d : ℤ) : Prop where
  failed : (run.outcome symbol).inserts < table.inserts
  start_le : start ≤ d
  le_day : d ≤ run.day
  listed : ∃ row ∈ t.days table, row.1 = symbol ∧ row.2 ≤ d
  absent : (symbol, d) ∉ t.days table

/-- A table has, or the run puts into it, a row that leads a day by more than the buffer. -/
def Led (symbols : List String) (run : Run F) (start : ℤ) (t : Tables F) (d : ℤ) (table : Table) :
    Prop :=
  (∃ row ∈ t.days table, d + incrBufferDays < row.2) ∨
    ∃ x ∈ symbols, table.inserts ≤ (run.outcome x).inserts ∧
      ∃ d' ∈ (run.source x).days x table, start ≤ d' ∧ d' ≤ run.day ∧ d + incrBufferDays < d'

/-- A run fails a symbol on a day that it leads in all three tables. -/
def LeavesBehind (symbols : List String) (run : Run F) (start : ℤ) (t : Tables F) : Prop :=
  ∃ symbol ∈ symbols, ∃ table ∈ Table.all, ∃ d ∈ (run.source symbol).days symbol table,
    Missed run start t symbol table d ∧ ∀ table' ∈ Table.all, Led symbols run start t d table'

/-- No run of some leaves a symbol behind. -/
def Waits (symbols : List String) : Tables F → List (Run F) → Prop
  | _, [] => True
  | t, run :: rest => (∀ start ∈ (autoStart t).toOption, ¬ LeavesBehind symbols run start t) ∧
      Waits symbols (storeKrMarket symbols none run t).1 rest

instance (run : Run F) (start : ℤ) (t : Tables F) (symbol : String) (table : Table) (d : ℤ) :
    Decidable (Missed run start t symbol table d) :=
  decidable_of_iff
    ((run.outcome symbol).inserts < table.inserts ∧ start ≤ d ∧ d ≤ run.day ∧
      (∃ row ∈ t.days table, row.1 = symbol ∧ row.2 ≤ d) ∧ (symbol, d) ∉ t.days table)
    ⟨fun ⟨h₁, h₂, h₃, h₄, h₅⟩ => ⟨h₁, h₂, h₃, h₄, h₅⟩, fun ⟨h₁, h₂, h₃, h₄, h₅⟩ =>
      ⟨h₁, h₂, h₃, h₄, h₅⟩⟩

instance (symbols : List String) (run : Run F) (start : ℤ) (t : Tables F) (d : ℤ) (table : Table) :
    Decidable (Led symbols run start t d table) :=
  inferInstanceAs (Decidable (_ ∨ _))

instance (symbols : List String) (run : Run F) (start : ℤ) (t : Tables F) :
    Decidable (LeavesBehind symbols run start t) :=
  inferInstanceAs (Decidable (∃ symbol ∈ symbols, ∃ table ∈ Table.all,
    ∃ d ∈ (run.source symbol).days symbol table,
      Missed run start t symbol table d ∧ ∀ table' ∈ Table.all, Led symbols run start t d table'))

instance decidableWaits (symbols : List String) :
    (t : Tables F) → (rest : List (Run F)) → Decidable (Waits symbols t rest)
  | _, [] => isTrue trivial
  | t, run :: rest =>
    haveI := decidableWaits symbols (storeKrMarket symbols none run t).1 rest
    inferInstanceAs (Decidable
      ((∀ start ∈ (autoStart t).toOption, ¬ LeavesBehind symbols run start t) ∧ Waits symbols _ rest))

section

variable {symbols l : List String} {run run' : Run F} {t t' : Tables F} {start d : ℤ}
  {symbol x : String} {q : Quotes F} {table : Table} {n : ℕ}

/-- The state after incremental runs. -/
def runs (symbols : List String) (t : Tables F) (history : List (Run F)) : Tables F :=
  history.foldl (fun t run => (storeKrMarket symbols none run t).1) t

end

section Demo

/-- A symbol with the same trading days in every table. -/
def demoQuotes (index : List ℤ) : Quotes ℤ where
  value := some ⟨index, ["개인"], fun _ _ => 1⟩
  volume := none
  holding := some ⟨index, fun _ => 1, fun _ => 1, fun _ => 1, fun _ => 1, fun _ => 1⟩
  balance := some ⟨index, fun _ => 1, fun _ => 1, fun _ => 1, fun _ => 1⟩
  shortVolume := none

def demoDays : List ℤ := [20000, 20010, 20030, 20050]

/-- A run of a day, with the outcome of the second symbol. -/
def demoRun (day : ℤ) (outcome : Outcome) : Run ℤ :=
  ⟨day, fun _ => demoQuotes demoDays, fun x => if x = "000660" then outcome else .stored⟩

/-- The second symbol fails and is caught up; then it fails after its first insert, and then the
whole run raises. -/
def demoHistory : List (Run ℤ) := [demoRun 20032 (.failed 0), demoRun 20035 .stored,
  demoRun 20051 (.failed 1), { demoRun 20053 .stored with outcome := fun _ => .failed 0 }]

end Demo

end QuantTrader.Krx
