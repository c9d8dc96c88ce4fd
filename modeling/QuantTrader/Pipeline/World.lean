import QuantTrader.Engine.Sent
import QuantTrader.Ledger.Updater
import QuantTrader.Orders.Writer
import QuantTrader.Transition.System

/-! # The order pipeline

The database, the outbox, the topics and one engine. Messages stay in their
topics and may be handled any number of times and in any order, so every crash
and every offset from which a process consumes again is covered.
-/

namespace QuantTrader.Pipeline

open Postgres Ledger Engine Orders Transition

/-- The state of the system; `placed` is the history of the orders that were written. -/
structure World where
  db : Db
  placed : List Order
  outbox : List Order
  topic : List Order
  engine : Option State
  executions : List Execution

inductive Event
  | place (o : Order)
  | publish (o : Order)
  | start (rows : List (String × OrderRow))
  | handle (m : Msg)
  | crash
  | deliver (ex : Execution)
  | reset (acct : String)

/-- `INITIAL_BALANCE`. -/
def initialBalance : NonNegNumeric 20 4 :=
  ⟨ofCoeff 20 4 100000000000 (by decide +kernel), by decide +kernel⟩

/-- `reset` for one account. -/
def resetAccount (db : Db) (acct : String) : Db where
  accounts := fun a => if a = acct then (db.accounts a).map fun _ => initialBalance else db.accounts a
  positions := Function.update db.positions acct fun _ => none
  orders := fun o => (db.orders o).filter fun row => row.accountId ≠ acct
  executions := db.executions.filter fun row => row.accountId ≠ acct

/-- The rows that `load_pending_orders` selects. -/
structure PendingRows (rows : List (String × OrderRow)) (db : Db) : Prop where
  nodup : (rows.map Prod.fst).Nodup
  mem_iff : ∀ id row, (id, row) ∈ rows ↔ db.orders id = some row ∧ row.status = .pending

/-- The orders of the outbox rows that a reset of the account leaves. -/
def keptOutbox (w : World) (acct : String) : List Order :=
  w.outbox.filter fun o => !(w.db.orders o.orderId).any fun row => row.accountId == acct

variable (c : Context) (uuid5 : String → String)

/-- When an event can happen; order ids are never used twice. -/
def Enabled (w : World) : Event → Prop
  | .place o => ∀ o' ∈ w.placed, o'.orderId ≠ o.orderId
  | .publish o => o ∈ w.outbox
  | .start rows => w.engine = none ∧ PendingRows rows w.db
  | .handle (.tick _ _) => w.engine.isSome
  | .handle (.order o) => w.engine.isSome ∧ o ∈ w.topic
  | .crash => True
  | .deliver ex => ex ∈ w.executions
  | .reset _ => True

/-- The engine after a message: a handler that raises ends it. -/
def handle (w : World) (m : Msg) : World :=
  match w.engine with
  | none => w
  | some st =>
    { w with
      engine := (step c uuid5 st m).toOption
      executions := w.executions ++ sent c uuid5 st m }

def next (w : World) : Event → World
  | .place o =>
    match insertOrder w.db o with
    | .ok db => { w with db, placed := w.placed ++ [o], outbox := w.outbox ++ [o] }
    | .error _ => w
  | .publish o => { w with topic := w.topic ++ [o] }
  | .start rows => { w with engine := some (start rows) }
  | .handle m => handle c uuid5 w m
  | .crash => { w with engine := none }
  | .deliver ex => { w with db := deliver c w.db ex }
  | .reset acct => { w with db := resetAccount w.db acct, outbox := keptOutbox w acct }

def system : System World Event where
  Enabled := Enabled
  next := next c uuid5

def fresh (db : Db) : World := ⟨db, [], [], [], none, []⟩

/-! ## Rows -/

section Rows

variable {c} {db : Db} {ex : Execution} {id acct : String} {row : OrderRow}

theorem orders_deliver (h : (deliver c db ex).orders id = some row) :
    ∃ row₀, db.orders id = some row₀ ∧ ofRow id row = ofRow id row₀ := by
  have hset : ∀ (d : Db) (p : OrderRow → Bool) (st : Status), d.orders = db.orders →
      (d.setStatus ex.orderId p st).orders id = some row →
      ∃ row₀, db.orders id = some row₀ ∧ ofRow id row = ofRow id row₀ := by
    intro d p st hd hr
    simp only [Db.setStatus, hd] at hr
    split_ifs at hr
    · obtain ⟨row₀, h₀, rfl⟩ := Option.map_eq_some_iff.mp hr
      refine ⟨row₀, h₀, ?_⟩
      split_ifs <;> rfl
    · exact ⟨row, hr, rfl⟩
  rcases deliver_cases c db ex with he | ⟨-, -, he⟩ | ⟨-, -, mid, hm, he⟩
  · rw [he] at h
    exact ⟨row, h, rfl⟩
  · rw [he] at h
    exact hset db _ _ rfl h
  · rw [he] at h
    exact hset mid _ _ hm.appends.orders h

theorem orders_reset (h : (resetAccount db acct).orders id = some row) :
    db.orders id = some row := (Option.filter_eq_some_iff.mp h).1

end Rows

end QuantTrader.Pipeline
