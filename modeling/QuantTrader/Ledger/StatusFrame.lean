import QuantTrader.Ledger.Updater

/-! # Order rows do not feed back into the ledger

Settlement reads of the orders table only which orders exist. Two databases
that differ in the rest of it stay in step under every delivery.
-/

namespace QuantTrader.Ledger

variable {c : Context} {db db' : Db} {m : Execution} {o : String}
  {f : String → Option OrderRow}

/-- Balances, positions and recorded executions agree, and so does which orders exist. -/
structure SameLedger (db db' : Db) : Prop where
  accounts : db.accounts = db'.accounts
  positions : db.positions = db'.positions
  executions : db.executions = db'.executions
  orders : ∀ o, (db.orders o).isSome = (db'.orders o).isSome

theorem recordExecution_withOrders (h : (f m.orderId).isNone = (db.orders m.orderId).isNone) :
    ({ db with orders := f } : Db).recordExecution m =
      (db.recordExecution m).map fun d => { d with orders := f } := by
  unfold Db.recordExecution
  cases Postgres.store 20 4 m.price with
  | error e => rfl
  | ok price =>
    cases Postgres.store 28 12 m.quantity with
    | error e => rfl
    | ok quantity =>
      cases Postgres.store 20 4 m.fee with
      | error e => rfl
      | ok fee =>
        simp only [bind, Except.bind, h, Db.recorded]
        split_ifs <;> rfl

theorem updateBalance_withOrders (acct : String) (g : Decimal → Decimal) :
    ({ db with orders := f } : Db).updateBalance acct g =
      (db.updateBalance acct g).map fun d => { d with orders := f } := by
  unfold Db.updateBalance
  dsimp only
  cases db.accounts acct with
  | none => rfl
  | some bal =>
    dsimp only
    cases Postgres.store 20 4 (g bal.val.val) with
    | error e => rfl
    | ok n => cases h : Postgres.check n <;> simp [bind, Except.bind, Except.map, h]

theorem upsertPosition_withOrders (acct sym : String) (qty unitCost : Decimal) :
    ({ db with orders := f } : Db).upsertPosition acct sym qty unitCost =
      (db.upsertPosition acct sym qty unitCost).map fun d => { d with orders := f } := by
  unfold Db.upsertPosition
  cases Postgres.store 28 12 qty with
  | error e => rfl
  | ok q =>
    cases Postgres.store 20 4 unitCost with
    | error e => rfl
    | ok avg =>
      cases hc : Postgres.check q with
      | error e => simp [bind, Except.bind, Except.map, hc]
      | ok q' =>
        simp only [bind, Except.bind, hc]
        cases db.positions acct sym with
        | none => dsimp only; split_ifs <;> rfl
        | some p => cases hm : Position.merge p ⟨q', avg⟩ <;> simp [Except.map, hm, Db.setPosition]

theorem reducePosition_withOrders (acct sym : String) (qty : Decimal) :
    ({ db with orders := f } : Db).reducePosition acct sym qty =
      (db.reducePosition acct sym qty).map fun d => { d with orders := f } := by
  unfold Db.reducePosition
  dsimp only
  cases db.positions acct sym with
  | none => rfl
  | some p =>
    dsimp only
    cases Postgres.store 28 12 (Postgres.sub p.quantity.val.val qty) with
    | error e => rfl
    | ok n => cases h : Postgres.check n <;> simp [bind, Except.bind, Except.map, h, Db.setPosition]

theorem bookBuy_withOrders (h : (f m.orderId).isNone = (db.orders m.orderId).isNone)
    (cost : Decimal) : bookBuy c { db with orders := f } m cost =
      (bookBuy c db m cost).map fun d => { d with orders := f } := by
  unfold bookBuy
  rw [recordExecution_withOrders h]
  cases db.recordExecution m with
  | error e => rfl
  | ok db₁ =>
    simp only [Except.map, Raise.pg, Except.mapError, bind, Except.bind]
    rw [@updateBalance_withOrders db₁ f]
    cases db₁.updateBalance m.accountId (Postgres.sub · cost) with
    | error e => rfl
    | ok db₂ =>
      cases hd : c.div cost m.quantity with
      | error e => rfl
      | ok unitCost =>
        simp only [Except.map, Except.mapError, Raise.py]
        rw [@upsertPosition_withOrders db₂ f]
        cases db₂.upsertPosition m.accountId m.symbol m.quantity unitCost <;> rfl

theorem bookSell_withOrders (h : (f m.orderId).isNone = (db.orders m.orderId).isNone) :
    bookSell c { db with orders := f } m =
      (bookSell c db m).map fun d => { d with orders := f } := by
  unfold bookSell
  rw [recordExecution_withOrders h]
  cases db.recordExecution m with
  | error e => rfl
  | ok db₁ =>
    cases hp : m.proceeds c with
    | error e => simp [Except.map, Except.mapError, Raise.py, Raise.pg, bind, Except.bind]
    | ok proceeds =>
      simp only [Except.map, Raise.py, Raise.pg, Except.mapError, bind, Except.bind]
      rw [@updateBalance_withOrders db₁ f]
      cases db₁.updateBalance m.accountId (Postgres.add · proceeds) with
      | error e => rfl
      | ok db₂ =>
        simp only [Except.map]
        rw [@reducePosition_withOrders db₂ f]
        cases db₂.reducePosition m.accountId m.symbol m.quantity <;> rfl

theorem isSome_setStatus (oid : String) (p : OrderRow → Bool) (st : Status) :
    ((db.setStatus oid p st).orders o).isSome = (db.orders o).isSome := by
  unfold Db.setStatus
  dsimp only
  split_ifs <;> simp

theorem SameLedger.refl (db : Db) : SameLedger db db := ⟨rfl, rfl, rfl, fun _ => rfl⟩

theorem sameLedger_setStatus (oid : String) (p : OrderRow → Bool) (st : Status)
    (h : ∀ o, (f o).isSome = (db.orders o).isSome) :
    SameLedger (({ db with orders := f } : Db).setStatus oid p st) (db.setStatus oid p st) :=
  ⟨rfl, rfl, rfl, fun o => by rw [isSome_setStatus, isSome_setStatus]; exact h o⟩

/-- What a transaction leaves: what it has written, or the tables as they were. -/
def Db.after (db : Db) : Except Raise (Db × Outcome) → Db
  | .ok (db', _) => db'
  | .error _ => db

theorem applyBuy_withOrders (h : ∀ o, (f o).isSome = (db.orders o).isSome) :
    SameLedger (Db.after { db with orders := f } (applyBuy c { db with orders := f } m))
      (db.after (applyBuy c db m)) := by
  have hn : (f m.orderId).isNone = (db.orders m.orderId).isNone := by
    rw [← Option.not_isSome, ← Option.not_isSome, h]
  have hsame : SameLedger { db with orders := f } db := ⟨rfl, rfl, rfl, h⟩
  have hrej := sameLedger_setStatus m.orderId (fun row => row.status == .pending) .rejected h
  unfold applyBuy
  cases m.cost c with
  | error e => exact hsame
  | ok cost =>
    simp only [Raise.py, Except.mapError, bind, Except.bind]
    cases db.accounts m.accountId with
    | none => exact hrej
    | some bal =>
      dsimp only
      cases bal.val.val.lt cost with
      | error e => exact hsame
      | ok b =>
        cases b with
        | true => exact hrej
        | false =>
          simp only [Bool.false_eq_true, if_false]
          rw [bookBuy_withOrders hn]
          cases hm : bookBuy c db m cost with
          | error e => exact hsame
          | ok mid =>
            refine sameLedger_setStatus _ _ _ fun o => ?_
            rw [h, (bookBuy_appends hm).orders]

theorem applySell_withOrders (h : ∀ o, (f o).isSome = (db.orders o).isSome) :
    SameLedger (Db.after { db with orders := f } (applySell c { db with orders := f } m))
      (db.after (applySell c db m)) := by
  have hn : (f m.orderId).isNone = (db.orders m.orderId).isNone := by
    rw [← Option.not_isSome, ← Option.not_isSome, h]
  have hsame : SameLedger { db with orders := f } db := ⟨rfl, rfl, rfl, h⟩
  have hrej := sameLedger_setStatus m.orderId (fun row => row.status == .pending) .rejected h
  unfold applySell
  dsimp only
  cases db.positions m.accountId m.symbol with
  | none => exact hrej
  | some held =>
    simp only [Raise.py, Except.mapError, bind, Except.bind]
    cases held.quantity.val.val.lt m.quantity with
    | error e => exact hsame
    | ok b =>
      cases b with
      | true => exact hrej
      | false =>
        simp only [Bool.false_eq_true, if_false]
        rw [bookSell_withOrders hn]
        cases hm : bookSell c db m with
        | error e => exact hsame
        | ok mid =>
          refine sameLedger_setStatus _ _ _ fun o => ?_
          rw [h, (bookSell_appends hm).orders]

theorem deliver_withOrders (h : ∀ o, (f o).isSome = (db.orders o).isSome) :
    SameLedger (deliver c { db with orders := f } m) (deliver c db m) := by
  change SameLedger (Db.after _ (applyExecution c { db with orders := f } m))
    (db.after (applyExecution c db m))
  unfold applyExecution Db.recorded
  dsimp only
  split_ifs
  · exact ⟨rfl, rfl, rfl, h⟩
  · cases m.side with
    | buy => exact applyBuy_withOrders h
    | sell => exact applySell_withOrders h

theorem SameLedger.deliver (h : SameLedger db db') :
    SameLedger (Ledger.deliver c db m) (Ledger.deliver c db' m) := by
  have he : db = { db' with orders := db.orders } := by
    ext1
    · exact h.accounts
    · exact h.positions
    · rfl
    · exact h.executions
  rw [he]
  exact deliver_withOrders h.orders

end QuantTrader.Ledger
