import Mathlib.Logic.Function.Basic
import QuantTrader.Postgres.Numeric

/-! # The ledger tables

Accounts, positions, orders and executions as the schema types them. Primary
keys are the arguments of the table functions; the statements of the updater
are the operations below, with the constraints they can violate.
-/

namespace QuantTrader.Ledger

open Postgres Transition

inductive Side | buy | sell
  deriving DecidableEq, Repr

inductive OrderKind
  | market
  | limit
  | other (name : String)
  deriving DecidableEq, Repr

inductive Status | pending | filled | rejected
  deriving DecidableEq, Repr

structure Execution where
  executionId : String
  orderId : String
  accountId : String
  symbol : String
  side : Side
  price : Decimal
  quantity : Decimal
  fee : Decimal
  deriving DecidableEq

/-- A row of `executions`. -/
structure ExecutionRow where
  executionId : String
  orderId : String
  accountId : String
  symbol : String
  side : Side
  price : Numeric 20 4
  quantity : Numeric 28 12
  fee : Numeric 20 4
  deriving DecidableEq

/-- A row of `positions`. -/
structure Position where
  quantity : NonNegNumeric 28 12
  avgBuyPrice : Numeric 20 4
  deriving DecidableEq

/-- The row of a buy into a held position: the cost-weighted average price. -/
def Position.merge (p q : Position) : Except DbError Position :=
  match divNullif (add (mul p.quantity.val.val p.avgBuyPrice.val)
      (mul q.quantity.val.val q.avgBuyPrice.val)) (add p.quantity.val.val q.quantity.val.val) with
  | none => .error .notNullViolation
  | some avg => do
    let avg ← store 20 4 avg
    let quantity ← check (← store 28 12 (add p.quantity.val.val q.quantity.val.val))
    .ok ⟨quantity, avg⟩

/-- A row of `orders`. -/
structure OrderRow where
  accountId : String
  symbol : String
  side : Side
  type : OrderKind
  price : Option (Numeric 20 4)
  quantity : Numeric 28 12
  status : Status
  deriving DecidableEq

/-- The tables, by primary key; `accounts` keeps the `krw_balance`. -/
@[ext] structure Db where
  accounts : String → Option (NonNegNumeric 20 4)
  positions : String → String → Option Position
  orders : String → Option OrderRow
  executions : List ExecutionRow

namespace Db

/-- `SELECT 1 FROM executions WHERE execution_id=%s`. -/
def recorded (db : Db) (executionId : String) : Bool :=
  db.executions.any (·.executionId == executionId)

def status (db : Db) (orderId : String) : Option Status :=
  (db.orders orderId).map (·.status)

/-- Set the status of an order where a condition on its row holds. -/
def setStatus (db : Db) (orderId : String) (p : OrderRow → Bool) (st : Status) : Db :=
  { db with
    orders := fun o =>
      if o = orderId then
        (db.orders o).map fun row => if p row then { row with status := st } else row
      else db.orders o }

/-- `UPDATE orders SET status='REJECTED' WHERE order_id=%s AND status='PENDING'`. -/
def reject (db : Db) (orderId : String) : Db :=
  db.setStatus orderId (fun row => row.status == .pending) .rejected

/-- `UPDATE orders SET status='FILLED' WHERE order_id=%s`. -/
def fill (db : Db) (orderId : String) : Db :=
  db.setStatus orderId (fun _ => true) .filled

/-- `INSERT INTO executions`. -/
def recordExecution (db : Db) (ex : Execution) : Except DbError Db := do
  let price ← store 20 4 ex.price
  let quantity ← store 28 12 ex.quantity
  let fee ← store 20 4 ex.fee
  if db.recorded ex.executionId then .error .uniqueViolation
  else if (db.orders ex.orderId).isNone || (db.accounts ex.accountId).isNone then
    .error .foreignKeyViolation
  else
    let row := ⟨ex.executionId, ex.orderId, ex.accountId, ex.symbol, ex.side, price, quantity, fee⟩
    .ok { db with executions := db.executions ++ [row] }

/-- `UPDATE accounts SET krw_balance = f krw_balance WHERE account_id=%s`. -/
def updateBalance (db : Db) (acct : String) (f : Decimal → Decimal) : Except DbError Db :=
  match db.accounts acct with
  | none => .ok db
  | some bal => do
    let bal ← check (← store 20 4 (f bal.val.val))
    .ok { db with accounts := Function.update db.accounts acct (some bal) }

/-- Write one row of `positions`. -/
def setPosition (db : Db) (acct sym : String) (p : Position) : Db :=
  { db with
    positions := Function.update db.positions acct
      (Function.update (db.positions acct) sym (some p)) }

/-- `INSERT INTO positions ... ON CONFLICT (account_id, symbol) DO UPDATE`. -/
def upsertPosition (db : Db) (acct sym : String) (qty unitCost : Decimal) : Except DbError Db := do
  let quantity ← store 28 12 qty
  let avg ← store 20 4 unitCost
  let quantity ← check quantity
  match db.positions acct sym with
  | none =>
    if (db.accounts acct).isNone then .error .foreignKeyViolation
    else .ok (db.setPosition acct sym ⟨quantity, avg⟩)
  | some p => do
    let row ← Position.merge p ⟨quantity, avg⟩
    .ok (db.setPosition acct sym row)

/-- `UPDATE positions SET quantity = quantity - %s WHERE account_id=%s AND symbol=%s`. -/
def reducePosition (db : Db) (acct sym : String) (qty : Decimal) : Except DbError Db :=
  match db.positions acct sym with
  | none => .ok db
  | some p => do
    let quantity ← check (← store 28 12 (sub p.quantity.val.val qty))
    .ok (db.setPosition acct sym { p with quantity })

/-! ## What each statement writes -/

section Frames

variable {db db' : Db} {ex : Execution} {acct sym oid o : String}

@[simp] theorem reject_accounts : (db.reject oid).accounts = db.accounts := rfl
@[simp] theorem reject_positions : (db.reject oid).positions = db.positions := rfl
@[simp] theorem reject_executions : (db.reject oid).executions = db.executions := rfl
@[simp] theorem fill_accounts : (db.fill oid).accounts = db.accounts := rfl
@[simp] theorem fill_positions : (db.fill oid).positions = db.positions := rfl
@[simp] theorem fill_executions : (db.fill oid).executions = db.executions := rfl

theorem recorded_iff {eid : String} :
    db.recorded eid = true ↔ ∃ row ∈ db.executions, row.executionId = eid := by
  simp [recorded]

theorem status_setStatus (p : OrderRow → Bool) (st : Status) :
    (db.setStatus oid p st).status o =
      if o = oid then (db.orders o).map fun row => if p row then st else row.status
      else db.status o := by
  unfold status setStatus
  dsimp only
  split_ifs
  · cases db.orders o with
    | none => rfl
    | some row => simp only [Option.map_some]; split_ifs <;> rfl
  · rfl

theorem status_fill :
    (db.fill oid).status o = if o = oid then (db.status o).map fun _ => .filled else db.status o := by
  rw [fill, status_setStatus]
  unfold status
  cases db.orders o <;> rfl

theorem status_reject :
    (db.reject oid).status o =
      if o = oid ∧ db.status o = some .pending then some .rejected else db.status o := by
  rw [reject, status_setStatus]
  unfold status
  by_cases ho : o = oid
  · cases h : db.orders o with
    | none => simp [ho]
    | some row => cases hs : row.status <;> simp [ho, hs]
  · simp [ho]

theorem recordExecution_ok_iff : db.recordExecution ex = .ok db' ↔
    ∃ price quantity fee, store 20 4 ex.price = .ok price ∧ store 28 12 ex.quantity = .ok quantity ∧
      store 20 4 ex.fee = .ok fee ∧ db.recorded ex.executionId = false ∧
      (db.orders ex.orderId).isSome ∧ (db.accounts ex.accountId).isSome ∧
      db' = { db with executions := db.executions ++ [⟨ex.executionId, ex.orderId, ex.accountId,
        ex.symbol, ex.side, price, quantity, fee⟩] } := by
  unfold recordExecution
  simp only [bind_ok_iff]
  constructor
  · rintro ⟨price, hp, quantity, hq, fee, hf, h⟩
    split_ifs at h with hr hn
    refine ⟨price, quantity, fee, hp, hq, hf, by simpa using hr, ?_, ?_, (Except.ok.inj h).symm⟩
    · simp only [Bool.or_eq_true, not_or] at hn
      simpa [Option.isSome_iff_ne_none] using hn.1
    · simp only [Bool.or_eq_true, not_or] at hn
      simpa [Option.isSome_iff_ne_none] using hn.2
  · rintro ⟨price, quantity, fee, hp, hq, hf, hr, ho, ha, rfl⟩
    refine ⟨price, hp, quantity, hq, fee, hf, ?_⟩
    simp [hr, Option.isSome_iff_ne_none.mp ho, Option.isSome_iff_ne_none.mp ha]

theorem updateBalance_ok_iff {f : Decimal → Decimal} {bal : NonNegNumeric 20 4}
    (ha : db.accounts acct = some bal) : db.updateBalance acct f = .ok db' ↔
      ∃ bal' : NonNegNumeric 20 4, store 20 4 (f bal.val.val) = .ok bal'.val ∧
        db' = { db with accounts := Function.update db.accounts acct (some bal') } := by
  unfold updateBalance
  rw [ha]
  simp only [bind_ok_iff]
  constructor
  · rintro ⟨n, hn, bal', hc, h⟩
    exact ⟨bal', check_ok hc ▸ hn, (Except.ok.inj h).symm⟩
  · rintro ⟨bal', hn, rfl⟩
    exact ⟨_, hn, bal', check_of_nonneg bal'.2, rfl⟩

theorem reducePosition_ok_iff {qty : Decimal} {p : Position}
    (hp : db.positions acct sym = some p) : db.reducePosition acct sym qty = .ok db' ↔
      ∃ q : NonNegNumeric 28 12, store 28 12 (sub p.quantity.val.val qty) = .ok q.val ∧
        db' = db.setPosition acct sym { p with quantity := q } := by
  unfold reducePosition
  rw [hp]
  simp only [bind_ok_iff]
  constructor
  · rintro ⟨n, hn, q, hc, h⟩
    exact ⟨q, check_ok hc ▸ hn, (Except.ok.inj h).symm⟩
  · rintro ⟨q, hn, rfl⟩
    exact ⟨_, hn, q, check_of_nonneg q.2, rfl⟩

theorem upsertPosition_ok_iff {qty unitCost : Decimal} (ha : (db.accounts acct).isSome) :
    db.upsertPosition acct sym qty unitCost = .ok db' ↔
      ∃ new row : Position, store 28 12 qty = .ok new.quantity.val ∧
        store 20 4 unitCost = .ok new.avgBuyPrice ∧
        (∀ p, db.positions acct sym = some p → Position.merge p new = .ok row) ∧
        (db.positions acct sym = none → row = new) ∧ db' = db.setPosition acct sym row := by
  unfold upsertPosition
  simp only [bind_ok_iff]
  constructor
  · rintro ⟨q, hq, avg, havg, q', hc, h⟩
    have hq' : store 28 12 qty = .ok q'.val := check_ok hc ▸ hq
    cases hp : db.positions acct sym with
    | none =>
      rw [hp] at h
      simp only [Option.isNone_iff_eq_none, Option.isSome_iff_ne_none.mp ha, if_false] at h
      exact ⟨⟨q', avg⟩, _, hq', havg, nofun, fun _ => rfl, (Except.ok.inj h).symm⟩
    | some p =>
      simp only [hp, bind_ok_iff] at h
      obtain ⟨row, hm, h⟩ := h
      exact ⟨⟨q', avg⟩, row, hq', havg, fun _ he => Option.some.inj he ▸ hm, nofun,
        (Except.ok.inj h).symm⟩
  · rintro ⟨new, row, hq, havg, hs, hn, rfl⟩
    refine ⟨_, hq, _, havg, new.quantity, check_of_nonneg new.quantity.2, ?_⟩
    cases hp : db.positions acct sym with
    | none =>
      simp only [Option.isNone_iff_eq_none, Option.isSome_iff_ne_none.mp ha, if_false, hn hp]
    | some p =>
      simp only [bind_ok_iff]
      exact ⟨row, hs p hp, rfl⟩

end Frames

end Db

end QuantTrader.Ledger
