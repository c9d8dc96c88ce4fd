import QuantTrader.Engine.Matching

/-! # Writing orders

The route checks a request and `place_order` writes it twice in one
transaction: as a typed row of `orders` and as the payload of the outbox.
-/

namespace QuantTrader.Orders

open Postgres Ledger Engine Transition

/-- The body of `POST /orders`. -/
structure OrderRequest where
  symbol : String
  side : String
  type : String
  quantity : Decimal
  price : Option Decimal
  deriving DecidableEq

/-- The checks that answer 400. -/
inductive BadRequest
  | side
  | type
  | quantity
  | price
  deriving DecidableEq, Repr

def parseSide : String → Option Side
  | "BUY" => some .buy
  | "SELL" => some .sell
  | _ => none

def parseType : String → Option OrderKind
  | "MARKET" => some .market
  | "LIMIT" => some .limit
  | _ => none

/-- `quantity <= 0` on floats, which no NaN satisfies. -/
def nonPositive : Decimal → Bool
  | .fin x => decide (x ≤ 0)
  | .inf negative => negative
  | .nan => false

/-- `create_order`: the checks, and the order handed to `place_order` under a new id. -/
def createOrder (orderId accountId : String) (req : OrderRequest) : Except BadRequest Order :=
  match parseSide req.side with
  | none => .error .side
  | some side =>
    match parseType req.type with
    | none => .error .type
    | some type =>
      if nonPositive req.quantity then .error .quantity
      else if type = .limit ∧ req.price = none then .error .price
      else .ok ⟨orderId, accountId, req.symbol, side, type, req.price, req.quantity⟩

def storePrice : Option Decimal → Except DbError (Option (Numeric 20 4))
  | none => .ok none
  | some p => some <$> store 20 4 p

/-- The row of `orders` an order is stored as. -/
def rowOf (o : Order) : Except DbError OrderRow := do
  let price ← storePrice o.price
  let quantity ← store 28 12 o.quantity
  return ⟨o.accountId, o.symbol, o.side, o.type, price, quantity, .pending⟩

/-- The row `place_order` inserts, or the error of its transaction. -/
def insertOrder (db : Db) (o : Order) : Except DbError Db := do
  let row ← rowOf o
  if (db.orders o.orderId).isSome then .error .uniqueViolation
  else if (db.accounts o.accountId).isNone then .error .foreignKeyViolation
  else .ok { db with orders := Function.update db.orders o.orderId (some row) }

variable {o : Order} {row : OrderRow} {db db' : Db}

theorem rowOf_ok_iff : rowOf o = .ok row ↔ storePrice o.price = .ok row.price ∧
    store 28 12 o.quantity = .ok row.quantity ∧
    row = ⟨o.accountId, o.symbol, o.side, o.type, row.price, row.quantity, .pending⟩ := by
  simp only [rowOf, bind_ok_iff]
  constructor
  · rintro ⟨price, hp, quantity, hq, h⟩
    obtain rfl := Except.ok.inj h
    exact ⟨hp, hq, rfl⟩
  · rintro ⟨hp, hq, h⟩
    exact ⟨_, hp, _, hq, by rw [h]; rfl⟩

theorem insertOrder_ok_iff : insertOrder db o = .ok db' ↔ ∃ row, rowOf o = .ok row ∧
    db.orders o.orderId = none ∧ (db.accounts o.accountId).isSome ∧
    db' = { db with orders := Function.update db.orders o.orderId (some row) } := by
  simp only [insertOrder, bind_ok_iff]
  constructor
  · rintro ⟨row, hrow, h⟩
    split_ifs at h with h₁ h₂
    refine ⟨row, hrow, by simpa using h₁, ?_, (Except.ok.inj h).symm⟩
    simpa [Option.isSome_iff_ne_none] using h₂
  · rintro ⟨row, hrow, h₁, h₂, rfl⟩
    exact ⟨row, hrow, by simp [h₁, Option.isSome_iff_ne_none.mp h₂]⟩

/-- An accepted request has a known side and type and, for LIMIT, a price. -/
theorem createOrder_ok {orderId accountId : String} {req : OrderRequest}
    (h : createOrder orderId accountId req = .ok o) :
    nonPositive o.quantity = false ∧ (o.type = .limit → o.price ≠ none) ∧
      (o.type = .market ∨ o.type = .limit) ∧ o.orderId = orderId ∧ o.accountId = accountId := by
  unfold createOrder at h
  split at h
  · cases h
  · split at h
    · cases h
    · rename_i type htype
      split_ifs at h with hq hp
      obtain rfl := Except.ok.inj h
      refine ⟨by simpa using hq, fun ht hn => hp ⟨ht, hn⟩, ?_, rfl, rfl⟩
      unfold parseType at htype
      split at htype
      · exact Or.inl (Option.some.inj htype).symm
      · exact Or.inr (Option.some.inj htype).symm
      · cases htype

end QuantTrader.Orders
