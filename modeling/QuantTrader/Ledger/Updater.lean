import QuantTrader.Ledger.Tables

/-! # The portfolio updater

`apply_execution` settles one execution message inside a transaction: a known
id is a duplicate, an order the account cannot cover is rejected, anything else
is booked. A raised error rolls the transaction back.
-/

namespace QuantTrader.Ledger

open Postgres Transition

/-- What a transaction can raise: a decimal signal or a database error. -/
inductive Raise where
  | signal (s : Signal)
  | db (e : DbError)
  deriving DecidableEq, Repr

namespace Raise

def py {α : Type*} (x : Except Signal α) : Except Raise α := x.mapError .signal

def pg {α : Type*} (x : Except DbError α) : Except Raise α := x.mapError .db

variable {α : Type*} {a : α}

@[simp] theorem py_ok_iff {x : Except Signal α} : py x = .ok a ↔ x = .ok a := by
  cases x <;> simp [py, Except.mapError]

@[simp] theorem pg_ok_iff {x : Except DbError α} : pg x = .ok a ↔ x = .ok a := by
  cases x <;> simp [pg, Except.mapError]

@[simp] theorem pg_error_iff {x : Except DbError α} {e : DbError} :
    pg x = .error (.db e) ↔ x = .error e := by
  cases x <;> simp [pg, Except.mapError]

theorem py_ne_db {x : Except Signal α} {e : DbError} : py x ≠ .error (.db e) := by
  cases x <;> simp [py, Except.mapError]

end Raise

inductive Outcome | applied | duplicate | rejected
  deriving DecidableEq, Repr

/-- `price * qty + fee`. -/
def Execution.cost (c : Context) (ex : Execution) : Except Signal Decimal := do
  c.add (← c.mul ex.price ex.quantity) ex.fee

/-- `price * qty - fee`. -/
def Execution.proceeds (c : Context) (ex : Execution) : Except Signal Decimal := do
  c.sub (← c.mul ex.price ex.quantity) ex.fee

/-- The writes of a buy that passed its balance check. -/
def bookBuy (c : Context) (db : Db) (ex : Execution) (cost : Decimal) : Except Raise Db := do
  let db ← Raise.pg (db.recordExecution ex)
  let db ← Raise.pg (db.updateBalance ex.accountId (sub · cost))
  let unitCost ← Raise.py (c.div cost ex.quantity)
  Raise.pg (db.upsertPosition ex.accountId ex.symbol ex.quantity unitCost)

/-- The writes of a sell that passed its holding check. -/
def bookSell (c : Context) (db : Db) (ex : Execution) : Except Raise Db := do
  let db ← Raise.pg (db.recordExecution ex)
  let proceeds ← Raise.py (ex.proceeds c)
  let db ← Raise.pg (db.updateBalance ex.accountId (add · proceeds))
  Raise.pg (db.reducePosition ex.accountId ex.symbol ex.quantity)

def applyBuy (c : Context) (db : Db) (ex : Execution) : Except Raise (Db × Outcome) := do
  let cost ← Raise.py (ex.cost c)
  match db.accounts ex.accountId with
  | none => .ok (db.reject ex.orderId, .rejected)
  | some bal =>
    if ← Raise.py (bal.val.val.lt cost) then .ok (db.reject ex.orderId, .rejected)
    else
      let db ← bookBuy c db ex cost
      .ok (db.fill ex.orderId, .applied)

def applySell (c : Context) (db : Db) (ex : Execution) : Except Raise (Db × Outcome) :=
  match db.positions ex.accountId ex.symbol with
  | none => .ok (db.reject ex.orderId, .rejected)
  | some held => do
    if ← Raise.py (held.quantity.val.val.lt ex.quantity) then
      .ok (db.reject ex.orderId, .rejected)
    else
      let db ← bookSell c db ex
      .ok (db.fill ex.orderId, .applied)

/-- `apply_execution`, in a context for the decimal arithmetic. -/
def applyExecution (c : Context) (db : Db) (ex : Execution) : Except Raise (Db × Outcome) :=
  if db.recorded ex.executionId then .ok (db, .duplicate)
  else match ex.side with
    | .buy => applyBuy c db ex
    | .sell => applySell c db ex

/-- One delivery: the transaction commits what `apply_execution` wrote, or rolls back. -/
def deliver (c : Context) (db : Db) (ex : Execution) : Db :=
  match applyExecution c db ex with
  | .ok (db', _) => db'
  | .error _ => db

def run (c : Context) (db : Db) (ms : List Execution) : Db := ms.foldl (deliver c) db

/-- The guard of `apply_execution`: the balance covers the cost, or the holding the quantity. -/
def Covers (c : Context) (db : Db) (ex : Execution) : Prop :=
  match ex.side with
  | .buy => ∃ bal cost, db.accounts ex.accountId = some bal ∧ ex.cost c = .ok cost ∧
      bal.val.val.lt cost = .ok false
  | .sell => ∃ held, db.positions ex.accountId ex.symbol = some held ∧
      held.quantity.val.val.lt ex.quantity = .ok false

/-- The writes of a message that passed its guard, the order's status apart. -/
def Booked (c : Context) (db : Db) (ex : Execution) (mid : Db) : Prop :=
  match ex.side with
  | .buy => ∃ cost, ex.cost c = .ok cost ∧ bookBuy c db ex cost = .ok mid
  | .sell => bookSell c db ex = .ok mid

section Frames

variable {c : Context} {db db' mid : Db} {ex : Execution}

/-- A booking appends one execution row and leaves the orders alone. -/
structure Appends (db : Db) (ex : Execution) (mid : Db) : Prop where
  orders : mid.orders = db.orders
  executions : ∃ row : ExecutionRow, row.executionId = ex.executionId ∧
    mid.executions = db.executions ++ [row]

/-- The row of `executions` a message is stored as. -/
structure StoredAs (ex : Execution) (row : ExecutionRow) : Prop where
  executionId : row.executionId = ex.executionId
  orderId : row.orderId = ex.orderId
  accountId : row.accountId = ex.accountId
  symbol : row.symbol = ex.symbol
  side : row.side = ex.side
  price : store 20 4 ex.price = .ok row.price
  quantity : store 28 12 ex.quantity = .ok row.quantity
  fee : store 20 4 ex.fee = .ok row.fee

theorem recordExecution_ok_iff : db.recordExecution ex = .ok mid ↔
    ∃ row, StoredAs ex row ∧ db.recorded ex.executionId = false ∧ (db.orders ex.orderId).isSome ∧
      (db.accounts ex.accountId).isSome ∧ mid = { db with executions := db.executions ++ [row] } := by
  rw [Db.recordExecution_ok_iff]
  constructor
  · rintro ⟨price, quantity, fee, hp, hq, hf, hr, ho, ha, rfl⟩
    exact ⟨_, ⟨rfl, rfl, rfl, rfl, rfl, hp, hq, hf⟩, hr, ho, ha, rfl⟩
  · rintro ⟨⟨_, _, _, _, _, price, quantity, fee⟩, ⟨rfl, rfl, rfl, rfl, rfl, hp, hq, hf⟩, hr, ho, ha, rfl⟩
    exact ⟨price, quantity, fee, hp, hq, hf, hr, ho, ha, rfl⟩

/-- What a booked buy stores. -/
structure BuyWrites (c : Context) (db : Db) (ex : Execution) (cost : Decimal) (mid : Db)
    (bal bal' : NonNegNumeric 20 4) (row : ExecutionRow) (unitCost : Decimal)
    (new pos : Position) : Prop where
  stored : StoredAs ex row
  fresh : db.recorded ex.executionId = false
  order : (db.orders ex.orderId).isSome
  balance : store 20 4 (sub bal.val.val cost) = .ok bal'.val
  div : c.div cost ex.quantity = .ok unitCost
  quantity : store 28 12 ex.quantity = .ok new.quantity.val
  avg : store 20 4 unitCost = .ok new.avgBuyPrice
  merged : ∀ p, db.positions ex.accountId ex.symbol = some p → p.merge new = .ok pos
  opened : db.positions ex.accountId ex.symbol = none → pos = new
  result : mid = ({ db with
    accounts := Function.update db.accounts ex.accountId (some bal')
    executions := db.executions ++ [row] } : Db).setPosition ex.accountId ex.symbol pos

theorem bookBuy_ok_iff {cost : Decimal} {bal : NonNegNumeric 20 4}
    (ha : db.accounts ex.accountId = some bal) : bookBuy c db ex cost = .ok mid ↔
      ∃ bal' row unitCost new pos, BuyWrites c db ex cost mid bal bal' row unitCost new pos := by
  simp only [bookBuy, bind_ok_iff, Raise.pg_ok_iff, Raise.py_ok_iff]
  constructor
  · rintro ⟨db₁, h₁, db₂, h₂, unitCost, hu, h₃⟩
    obtain ⟨row, hs, hr, ho, -, rfl⟩ := recordExecution_ok_iff.mp h₁
    obtain ⟨bal', hb, rfl⟩ := (Db.updateBalance_ok_iff (by exact ha)).mp h₂
    obtain ⟨new, pos, hq, havg, hm, hn, rfl⟩ := (Db.upsertPosition_ok_iff (by simp)).mp h₃
    exact ⟨bal', row, unitCost, new, pos, hs, hr, ho, hb, hu, hq, havg, hm, hn, rfl⟩
  · rintro ⟨bal', row, unitCost, new, pos, hs, hr, ho, hb, hu, hq, havg, hm, hn, rfl⟩
    refine ⟨_, recordExecution_ok_iff.mpr ⟨row, hs, hr, ho, by simp [ha], rfl⟩, _,
      (Db.updateBalance_ok_iff (by exact ha)).mpr ⟨bal', hb, rfl⟩, unitCost, hu, ?_⟩
    exact (Db.upsertPosition_ok_iff (by simp)).mpr ⟨new, pos, hq, havg, hm, hn, rfl⟩

/-- What a booked sell stores. -/
structure SellWrites (c : Context) (db : Db) (ex : Execution) (mid : Db) (held : Position)
    (bal bal' : NonNegNumeric 20 4) (row : ExecutionRow) (proceeds : Decimal)
    (quantity : NonNegNumeric 28 12) : Prop where
  stored : StoredAs ex row
  fresh : db.recorded ex.executionId = false
  order : (db.orders ex.orderId).isSome
  account : db.accounts ex.accountId = some bal
  earned : ex.proceeds c = .ok proceeds
  balance : store 20 4 (add bal.val.val proceeds) = .ok bal'.val
  reduced : store 28 12 (sub held.quantity.val.val ex.quantity) = .ok quantity.val
  result : mid = ({ db with
    accounts := Function.update db.accounts ex.accountId (some bal')
    executions := db.executions ++ [row] } : Db).setPosition ex.accountId ex.symbol
      { held with quantity }

theorem bookSell_ok_iff {held : Position}
    (hp : db.positions ex.accountId ex.symbol = some held) : bookSell c db ex = .ok mid ↔
      ∃ bal bal' row proceeds quantity,
        SellWrites c db ex mid held bal bal' row proceeds quantity := by
  simp only [bookSell, bind_ok_iff, Raise.pg_ok_iff, Raise.py_ok_iff]
  constructor
  · rintro ⟨db₁, h₁, proceeds, hpr, db₂, h₂, h₃⟩
    obtain ⟨row, hs, hr, ho, ha, rfl⟩ := recordExecution_ok_iff.mp h₁
    obtain ⟨bal, hbal⟩ := Option.isSome_iff_exists.mp ha
    obtain ⟨bal', hb, rfl⟩ := (Db.updateBalance_ok_iff (by exact hbal)).mp h₂
    obtain ⟨q, hq, rfl⟩ := (Db.reducePosition_ok_iff (by exact hp)).mp h₃
    exact ⟨bal, bal', row, proceeds, q, hs, hr, ho, hbal, hpr, hb, hq, rfl⟩
  · rintro ⟨bal, bal', row, proceeds, q, hs, hr, ho, hbal, hpr, hb, hq, rfl⟩
    refine ⟨_, recordExecution_ok_iff.mpr ⟨row, hs, hr, ho, by simp [hbal], rfl⟩, proceeds, hpr, _,
      (Db.updateBalance_ok_iff (by exact hbal)).mpr ⟨bal', hb, rfl⟩, ?_⟩
    exact (Db.reducePosition_ok_iff (by exact hp)).mpr ⟨q, hq, rfl⟩

theorem bookBuy_appends {cost : Decimal} (h : bookBuy c db ex cost = .ok mid) :
    Appends db ex mid := by
  simp only [bookBuy, bind_ok_iff, Raise.pg_ok_iff, Raise.py_ok_iff] at h
  obtain ⟨db₁, h₁, db₂, h₂, _, _, h₃⟩ := h
  obtain ⟨row, hs, -, -, ha, rfl⟩ := recordExecution_ok_iff.mp h₁
  obtain ⟨bal, hbal⟩ := Option.isSome_iff_exists.mp ha
  obtain ⟨bal', -, rfl⟩ := (Db.updateBalance_ok_iff (by exact hbal)).mp h₂
  obtain ⟨_, _, -, -, -, -, rfl⟩ := (Db.upsertPosition_ok_iff (by simp)).mp h₃
  exact ⟨rfl, row, hs.executionId, rfl⟩

theorem bookSell_appends (h : bookSell c db ex = .ok mid) : Appends db ex mid := by
  simp only [bookSell, bind_ok_iff, Raise.pg_ok_iff, Raise.py_ok_iff] at h
  obtain ⟨db₁, h₁, _, _, db₂, h₂, h₃⟩ := h
  obtain ⟨row, hs, -, -, ha, rfl⟩ := recordExecution_ok_iff.mp h₁
  obtain ⟨bal, hbal⟩ := Option.isSome_iff_exists.mp ha
  obtain ⟨bal', -, rfl⟩ := (Db.updateBalance_ok_iff (by exact hbal)).mp h₂
  cases hp : db.positions ex.accountId ex.symbol with
  | none =>
    simp only [Db.reducePosition, hp, Except.ok.injEq] at h₃
    subst h₃
    exact ⟨rfl, row, hs.executionId, rfl⟩
  | some p =>
    obtain ⟨_, -, rfl⟩ := (Db.reducePosition_ok_iff (by exact hp)).mp h₃
    exact ⟨rfl, row, hs.executionId, rfl⟩

theorem Booked.appends (h : Booked c db ex mid) : Appends db ex mid := by
  unfold Booked at h
  split at h
  · obtain ⟨cost, -, h⟩ := h
    exact bookBuy_appends h
  · exact bookSell_appends h

theorem applyExecution_cases {out : Outcome} (h : applyExecution c db ex = .ok (db', out)) :
    (out = .duplicate ∧ db.recorded ex.executionId = true ∧ db' = db) ∨
    (out = .rejected ∧ db.recorded ex.executionId = false ∧ ¬ Covers c db ex ∧
      db' = db.reject ex.orderId) ∨
    (out = .applied ∧ db.recorded ex.executionId = false ∧ Covers c db ex ∧
      ∃ mid, Booked c db ex mid ∧ db' = mid.fill ex.orderId) := by
  unfold applyExecution at h
  split_ifs at h with hr
  · cases h; exact Or.inl ⟨rfl, hr, rfl⟩
  · right
    rw [Bool.not_eq_true] at hr
    unfold Covers Booked
    cases hs : ex.side with
    | buy =>
      simp only [hs, applyBuy, bind_ok_iff, Raise.py_ok_iff] at h ⊢
      obtain ⟨cost, hc, h⟩ := h
      cases ha : db.accounts ex.accountId with
      | none => rw [ha] at h; cases h; exact Or.inl ⟨rfl, hr, by simp, rfl⟩
      | some bal =>
        simp only [ha, bind_ok_iff, Raise.py_ok_iff] at h
        obtain ⟨b, hb, h⟩ := h
        cases b with
        | true => cases h; exact Or.inl ⟨rfl, hr, by simp [hc, hb], rfl⟩
        | false =>
          simp only [Bool.false_eq_true, if_false, bind_ok_iff] at h
          obtain ⟨mid, hm, h⟩ := h
          cases h
          exact Or.inr ⟨rfl, hr, ⟨bal, cost, rfl, hc, hb⟩, mid, ⟨cost, hc, hm⟩, rfl⟩
    | sell =>
      simp only [hs, applySell] at h ⊢
      cases hp : db.positions ex.accountId ex.symbol with
      | none => rw [hp] at h; cases h; exact Or.inl ⟨rfl, hr, by simp, rfl⟩
      | some held =>
        simp only [hp, bind_ok_iff, Raise.py_ok_iff] at h
        obtain ⟨b, hb, h⟩ := h
        cases b with
        | true => cases h; exact Or.inl ⟨rfl, hr, by simp [hb], rfl⟩
        | false =>
          simp only [Bool.false_eq_true, if_false, bind_ok_iff] at h
          obtain ⟨mid, hm, h⟩ := h
          cases h
          exact Or.inr ⟨rfl, hr, ⟨held, rfl, hb⟩, mid, hm, rfl⟩

/-- What one delivery does to the tables. -/
theorem deliver_cases (c : Context) (db : Db) (ex : Execution) :
    deliver c db ex = db ∨
    (db.recorded ex.executionId = false ∧ ¬ Covers c db ex ∧
      deliver c db ex = db.reject ex.orderId) ∨
    (db.recorded ex.executionId = false ∧ Covers c db ex ∧
      ∃ mid, Booked c db ex mid ∧ deliver c db ex = mid.fill ex.orderId) := by
  cases h : applyExecution c db ex with
  | error e => exact Or.inl (by simp only [deliver, h])
  | ok r =>
    obtain ⟨db', out⟩ := r
    have hd : deliver c db ex = db' := by simp only [deliver, h]
    rw [hd]
    rcases applyExecution_cases h with ⟨-, -, rfl⟩ | ⟨-, hr, hn, rfl⟩ | ⟨-, hr, ha, hm⟩
    · exact Or.inl rfl
    · exact Or.inr (Or.inl ⟨hr, hn, rfl⟩)
    · exact Or.inr (Or.inr ⟨hr, ha, hm⟩)

@[simp] theorem run_nil : run c db [] = db := rfl

@[simp] theorem run_snoc {ms : List Execution} :
    run c db (ms ++ [ex]) = deliver c (run c db ms) ex := by
  simp [run, List.foldl_append]

theorem deliver_of_recorded (h : db.recorded ex.executionId = true) : deliver c db ex = db := by
  simp [deliver, applyExecution, h]

end Frames

end QuantTrader.Ledger
