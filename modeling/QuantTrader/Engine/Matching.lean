import QuantTrader.Ledger.Tables

/-! # The matching engine

One engine run: orders reloaded from the table, then tick and order messages.
The engine keeps the latest price, the waiting market orders and the resting
limit orders of every symbol, and produces execution messages.
-/

namespace QuantTrader.Engine

open Postgres Ledger Transition

/-- An order as the engine holds it: a message of the orders topic or a reloaded row. -/
structure Order where
  orderId : String
  accountId : String
  symbol : String
  side : Side
  type : OrderKind
  price : Option Decimal
  quantity : Decimal
  deriving DecidableEq

inductive Msg
  | tick (symbol : String) (price : Decimal)
  | order (o : Order)
  deriving DecidableEq

/-- The memory of the engine; a symbol without an entry has an empty list. -/
structure State where
  latestPrice : String → Option Decimal
  pending : String → List Order
  limitOrders : String → List Order
  produced : List Execution

/-- `FEE_RATE`. -/
def feeRate : ℚ := 1 / 2000

/-- The order rebuilt from a row of `orders`. -/
def ofRow (orderId : String) (row : OrderRow) : Order :=
  ⟨orderId, row.accountId, row.symbol, row.side, row.type, row.price.map Subtype.val, row.quantity.val⟩

/-- Append to the list of one symbol. -/
def push (f : String → List Order) (o : Order) : String → List Order :=
  Function.update f o.symbol (f o.symbol ++ [o])

/-- `load_pending_orders`: market orders wait, every other type rests with the limit orders. -/
def reload (st : State) (o : Order) : State :=
  if o.type = .market then { st with pending := push st.pending o }
  else { st with limitOrders := push st.limitOrders o }

def start (rows : List (String × OrderRow)) : State :=
  (rows.map fun r => ofRow r.1 r.2).foldl reload ⟨fun _ => none, fun _ => [], fun _ => [], []⟩

/-- Whether a market price is no worse than a limit. -/
def meets : Side → Decimal → Decimal → Except Signal Bool
  | .buy, market, limit => market.le limit
  | .sell, market, limit => limit.le market

/-- `limit_fill_price`: the market price once it meets the limit. -/
def limitFillPrice (o : Order) (market : Decimal) : Except Signal (Option Decimal) :=
  match o.price with
  | none => .error .invalidOperation
  | some limit => do
    let met ← meets o.side market limit
    return if met then some market else none

variable (c : Context) (uuid5 : String → String)

/-- `execute`: the message of an order filled at a price. -/
def execute (o : Order) (price : Decimal) : Except Signal Execution := do
  let fee ← c.quantize .halfEven 4 (← c.mul (← c.mul price o.quantity) (.fin feeRate))
  return ⟨uuid5 o.orderId, o.orderId, o.accountId, o.symbol, o.side, price, o.quantity, fee⟩

/-- The waiting market orders at the first price of their symbol. -/
def executeAll (price : Decimal) : List Order → Except Signal (List Execution)
  | [] => return []
  | o :: os => do
    let ex ← execute c uuid5 o price
    let exs ← executeAll price os
    return ex :: exs

/-- The resting orders at a new price: the executions, and the orders that still wait. -/
def sweep (price : Decimal) : List Order → Except Signal (List Execution × List Order)
  | [] => return ([], [])
  | o :: os => do
    match ← limitFillPrice o price with
    | some fill => do
      let ex ← execute c uuid5 o fill
      let (exs, waiting) ← sweep price os
      return (ex :: exs, waiting)
    | none => do
      let (exs, waiting) ← sweep price os
      return (exs, o :: waiting)

def onTick (st : State) (symbol : String) (price : Decimal) : Except Signal State := do
  let exs ← executeAll c uuid5 price (st.pending symbol)
  let (exs', waiting) ← sweep c uuid5 price (st.limitOrders symbol)
  return {
    latestPrice := Function.update st.latestPrice symbol (some price)
    pending := Function.update st.pending symbol []
    limitOrders := Function.update st.limitOrders symbol waiting
    produced := st.produced ++ exs ++ exs' }

/-- The fill of an incoming limit order at the latest price of its symbol. -/
def limitFill (st : State) (o : Order) : Except Signal (Option Decimal) :=
  match st.latestPrice o.symbol with
  | some price => limitFillPrice o price
  | none => return none

def produce (st : State) (o : Order) (price : Decimal) : Except Signal State := do
  let ex ← execute c uuid5 o price
  return { st with produced := st.produced ++ [ex] }

/-- An order message; a type other than MARKET and LIMIT is ignored. -/
def onOrder (st : State) (o : Order) : Except Signal State :=
  match o.type with
  | .market =>
    match st.latestPrice o.symbol with
    | some price => produce c uuid5 st o price
    | none => return { st with pending := push st.pending o }
  | .limit => do
    match ← limitFill st o with
    | some fill => produce c uuid5 st o fill
    | none => return { st with limitOrders := push st.limitOrders o }
  | .other _ => return st

/-- The handler of one message of `run`. -/
def step (st : State) : Msg → Except Signal State
  | .tick symbol price => onTick c uuid5 st symbol price
  | .order o => onOrder c uuid5 st o

def run (st : State) (msgs : List Msg) : Except Signal State := msgs.foldlM (step c uuid5) st

section Lemmas

variable {c uuid5} {st st' : State} {o : Order} {p q : Decimal} {msgs : List Msg} {m : Msg}

theorem limitFillPrice_ok_iff {r : Option Decimal} : limitFillPrice o p = .ok r ↔
    ∃ limit met, o.price = some limit ∧ meets o.side p limit = .ok met ∧
      r = if met then some p else none := by
  unfold limitFillPrice
  cases o.price with
  | none => simp
  | some limit =>
    simp only [bind_ok_iff]
    constructor
    · rintro ⟨met, hm, h⟩
      exact ⟨limit, met, rfl, hm, (Except.ok.inj h).symm⟩
    · rintro ⟨_, met, ⟨⟩, hm, rfl⟩
      exact ⟨met, hm, rfl⟩

/-- A price on the good side of a limit: not above that of a buy, not below that of a sell. -/
def Within : Side → Decimal → Decimal → Prop
  | .buy, price, limit => price.AtMost limit
  | .sell, price, limit => limit.AtMost price

/-- A price on the bad side of a limit: above that of a buy, below that of a sell. -/
def Beyond : Side → Decimal → Decimal → Prop
  | .buy, price, limit => limit.Below price
  | .sell, price, limit => price.Below limit

theorem meets_true_iff {side : Side} {limit : Decimal} :
    meets side p limit = .ok true ↔ Within side p limit := by
  cases side <;> exact Decimal.le_true_iff

theorem meets_false_iff {side : Side} {limit : Decimal} :
    meets side p limit = .ok false ↔ Beyond side p limit := by
  cases side <;> exact Decimal.le_false_iff

/-- A price no worse than the limit of an order. -/
def NoWorse (o : Order) (p : Decimal) : Prop := ∃ limit, o.price = some limit ∧ Within o.side p limit

/-- A price at which an order with a limit is not marketable. -/
def Unmet (o : Order) (p : Decimal) : Prop := ∃ limit, o.price = some limit ∧ Beyond o.side p limit

/-- A limit order fills at the market price, and only at one no worse than its limit. -/
theorem limitFillPrice_some_iff : limitFillPrice o p = .ok (some q) ↔ q = p ∧ NoWorse o p := by
  rw [limitFillPrice_ok_iff]
  constructor
  · rintro ⟨limit, met, hp, hm, h⟩
    cases met with
    | true => exact ⟨Option.some.inj h, limit, hp, meets_true_iff.mp hm⟩
    | false => cases h
  · rintro ⟨rfl, limit, hp, hm⟩
    exact ⟨limit, true, hp, meets_true_iff.mpr hm, rfl⟩

theorem limitFillPrice_none_iff : limitFillPrice o p = .ok none ↔ Unmet o p := by
  rw [limitFillPrice_ok_iff]
  constructor
  · rintro ⟨limit, met, hp, hm, h⟩
    cases met with
    | true => cases h
    | false => exact ⟨limit, hp, meets_false_iff.mp hm⟩
  · rintro ⟨limit, hp, hm⟩
    exact ⟨limit, false, hp, meets_false_iff.mpr hm, rfl⟩

theorem execute_ok_iff {ex : Execution} : execute c uuid5 o p = .ok ex ↔
    ∃ v r fee, c.mul p o.quantity = .ok v ∧ c.mul v (.fin feeRate) = .ok r ∧
      c.quantize .halfEven 4 r = .ok fee ∧
      ex = ⟨uuid5 o.orderId, o.orderId, o.accountId, o.symbol, o.side, p, o.quantity, fee⟩ := by
  simp only [execute, bind_ok_iff]
  constructor
  · rintro ⟨v, hv, r, hr, fee, hf, h⟩
    exact ⟨v, r, fee, hv, hr, hf, (Except.ok.inj h).symm⟩
  · rintro ⟨v, r, fee, hv, hr, hf, rfl⟩
    exact ⟨v, hv, r, hr, fee, hf, rfl⟩

@[simp] theorem run_nil : run c uuid5 st [] = .ok st := rfl

theorem run_snoc_ok_iff : run c uuid5 st (msgs ++ [m]) = .ok st' ↔
    ∃ mid, run c uuid5 st msgs = .ok mid ∧ step c uuid5 mid m = .ok st' := by
  unfold run
  rw [List.foldlM_append, bind_ok_iff]
  simp only [List.foldlM_cons, List.foldlM_nil, bind_pure]

theorem produce_ok_iff : produce c uuid5 st o p = .ok st' ↔
    ∃ ex, execute c uuid5 o p = .ok ex ∧ st' = { st with produced := st.produced ++ [ex] } := by
  simp only [produce, bind_ok_iff]
  constructor
  · rintro ⟨ex, hex, h⟩
    exact ⟨ex, hex, (Except.ok.inj h).symm⟩
  · rintro ⟨ex, hex, rfl⟩
    exact ⟨ex, hex, rfl⟩

theorem onTick_ok_iff {symbol : String} : onTick c uuid5 st symbol p = .ok st' ↔
    ∃ exs exs' waiting, executeAll c uuid5 p (st.pending symbol) = .ok exs ∧
      sweep c uuid5 p (st.limitOrders symbol) = .ok (exs', waiting) ∧
      st' = {
        latestPrice := Function.update st.latestPrice symbol (some p)
        pending := Function.update st.pending symbol []
        limitOrders := Function.update st.limitOrders symbol waiting
        produced := st.produced ++ exs ++ exs' } := by
  simp only [onTick, bind_ok_iff]
  constructor
  · rintro ⟨exs, he, ⟨exs', waiting⟩, hs, h⟩
    exact ⟨exs, exs', waiting, he, hs, (Except.ok.inj h).symm⟩
  · rintro ⟨exs, exs', waiting, he, hs, rfl⟩
    exact ⟨exs, he, (exs', waiting), hs, rfl⟩

theorem onOrder_cases (h : onOrder c uuid5 st o = .ok st') :
    (∃ n, o.type = .other n ∧ st' = st) ∨
    (o.type = .market ∧ st.latestPrice o.symbol = none ∧
      st' = { st with pending := push st.pending o }) ∨
    (o.type = .limit ∧ (∀ p, st.latestPrice o.symbol = some p → limitFillPrice o p = .ok none) ∧
      st' = { st with limitOrders := push st.limitOrders o }) ∨
    (∃ p ex, st.latestPrice o.symbol = some p ∧ (o.type = .market ∨ o.type = .limit ∧ NoWorse o p) ∧
      execute c uuid5 o p = .ok ex ∧ st' = { st with produced := st.produced ++ [ex] }) := by
  unfold onOrder at h
  cases ht : o.type with
  | market =>
    simp only [ht] at h
    cases hp : st.latestPrice o.symbol with
    | none =>
      simp only [hp] at h
      exact Or.inr (Or.inl ⟨rfl, rfl, (Except.ok.inj h).symm⟩)
    | some p =>
      simp only [hp] at h
      obtain ⟨ex, hex, rfl⟩ := produce_ok_iff.mp h
      exact Or.inr (Or.inr (Or.inr ⟨p, ex, rfl, Or.inl rfl, hex, rfl⟩))
  | limit =>
    simp only [ht, limitFill, bind_ok_iff] at h
    obtain ⟨fill, hf, h⟩ := h
    cases hp : st.latestPrice o.symbol with
    | none =>
      simp only [hp] at hf
      obtain rfl := Except.ok.inj hf
      exact Or.inr (Or.inr (Or.inl ⟨rfl, nofun, (Except.ok.inj h).symm⟩))
    | some p =>
      simp only [hp] at hf
      cases fill with
      | none =>
        refine Or.inr (Or.inr (Or.inl ⟨rfl, ?_, (Except.ok.inj h).symm⟩))
        rintro _ ⟨⟩
        exact hf
      | some q =>
        obtain ⟨rfl, hno⟩ := limitFillPrice_some_iff.mp hf
        obtain ⟨ex, hex, rfl⟩ := produce_ok_iff.mp h
        exact Or.inr (Or.inr (Or.inr ⟨q, ex, rfl, Or.inr ⟨rfl, hno⟩, hex, rfl⟩))
  | other n =>
    simp only [ht] at h
    exact Or.inl ⟨n, rfl, (Except.ok.inj h).symm⟩

end Lemmas

end QuantTrader.Engine
