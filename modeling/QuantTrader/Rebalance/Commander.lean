import Mathlib.Data.List.Infix
import QuantTrader.Rebalance.Decide

/-! # The commander

One process consumes the signals of the loads and rebalances every enabled
account when the newest signals of a symbol agree on a bar. `acted` is the
history of the bars it rebalanced on; no function reads it.
-/

namespace QuantTrader.Rebalance

open Ledger (Side)

open Strategy (PyFloat)

/-- A message of `strategy.signals`. -/
structure SignalMessage (F B : Type) where
  symbol : String
  strategy : String
  targetWeight : F
  barTs : B
  deriving DecidableEq

/-- What the database holds of an enabled account: the symbols with a `PENDING` order, the cash
and the positive positions. -/
structure AccountView where
  accountId : String
  pending : List String
  cash : ℚ
  positions : List (String × ℚ)

/-- What the process reads while it handles a message: weights, latest prices, accounts. -/
structure Reads (F : Type) where
  weights : String → Option F
  prices : String → Option ℚ
  accounts : List AccountView

/-- A polled message (`none` when it does not parse) and what is read with it. -/
structure Delivery (F B : Type) where
  message : Option (SignalMessage F B)
  reads : Reads F

/-- An order given to `place_order`, of type `MARKET`. -/
structure PlacedOrder where
  accountId : String
  symbol : String
  side : Side
  quantity : ℚ
  deriving DecidableEq

/-- The memory of the process; `running` is false once an exception has ended the loop. -/
structure Commander (F B : Type) where
  latest : String → String → Option (B × F)
  lastActed : String → Option B
  running : Bool
  placed : List PlacedOrder
  acted : List (String × B)

section Handling

variable {F B : Type} [PyFloat F] [DecidableEq B]

/-- `_rebalance` of one account. -/
def rebalance (c : Context) (acct : AccountView) (symbol : String) (targetW : F)
    (prices : String → Option ℚ) (band : ℚ) : Except Signal (Option PlacedOrder) :=
  if symbol ∈ acct.pending then return none
  else
    match prices symbol with
    | none => return none
    | some price =>
      if price = 0 then return none
      else do
        let qty := (acct.positions.lookup symbol).getD 0
        let eq ← equity c acct.cash acct.positions prices
        let order ← Rebalance.decide c qty price acct.cash eq (PyFloat.toDecimal targetW) band
        return order.map fun o => ⟨acct.accountId, symbol, o.1, o.2⟩

/-- The accounts in turn: the orders placed, and whether no exception was raised. -/
def rebalanceAll (c : Context) (symbol : String) (targetW : F) (prices : String → Option ℚ)
    (band : ℚ) : List AccountView → List PlacedOrder × Bool
  | [] => ([], true)
  | acct :: accts =>
    match rebalance c acct symbol targetW prices band with
    | .error _ => ([], false)
    | .ok order =>
      let rest := rebalanceAll c symbol targetW prices band accts
      (order.toList ++ rest.1, rest.2)

namespace Commander

def init : Commander F B := ⟨fun _ _ => none, fun _ => none, true, [], []⟩

/-- `sym_latest[strategy] = (bar_ts, target)`. -/
def store (s : Commander F B) (sig : SignalMessage F B) : Commander F B :=
  { s with
    latest := Function.update s.latest sig.symbol
      (Function.update (s.latest sig.symbol) sig.strategy (some (sig.barTs, sig.targetWeight))) }

/-- Rebalance every account, then remember the bar. -/
def act (c : Context) (band : ℚ) (s : Commander F B) (symbol : String) (barTs : B) (combined : F)
    (reads : Reads F) : Commander F B :=
  let orders := rebalanceAll c symbol combined reads.prices band reads.accounts
  { s with
    placed := s.placed ++ orders.1
    running := orders.2
    lastActed := if orders.2 then Function.update s.lastActed symbol (some barTs) else s.lastActed
    acted := s.acted ++ [(symbol, barTs)] }

/-- The loop body of `run` on a parsed signal. -/
def onSignal (c : Context) (band : ℚ) (roster : List String) (s : Commander F B)
    (sig : SignalMessage F B) (reads : Reads F) : Commander F B :=
  if sig.strategy ∉ roster then s
  else
    let s := s.store sig
    if s.lastActed sig.symbol = some sig.barTs ∨
        rosterReady (s.latest sig.symbol) roster sig.barTs = false then s
    else
      match combinedForBar (s.latest sig.symbol) roster sig.barTs reads.weights with
      | none => s
      | some combined => s.act c band sig.symbol sig.barTs combined reads

/-- The loop body of `run`. -/
def handle (c : Context) (band : ℚ) (roster : List String) (s : Commander F B)
    (d : Delivery F B) : Commander F B :=
  if s.running then
    match d.message with
    | none => s
    | some sig => s.onSignal c band roster sig d.reads
  else s

/-- `run` over the messages delivered to one process. -/
def run (c : Context) (band : ℚ) (roster : List String) (ds : List (Delivery F B)) :
    Commander F B :=
  ds.foldl (handle c band roster) init

@[simp] theorem run_nil (c : Context) (band : ℚ) (roster : List String) :
    run c band roster ([] : List (Delivery F B)) = init := rfl

@[simp] theorem run_snoc (c : Context) (band : ℚ) (roster : List String)
    (ds : List (Delivery F B)) (d : Delivery F B) :
    run c band roster (ds ++ [d]) = handle c band roster (run c band roster ds) d := by
  simp [run, List.foldl_append]

/-- The bars on which a symbol was rebalanced, in order. -/
def actedBars (s : Commander F B) (symbol : String) : List B :=
  (s.acted.filter fun a => a.1 = symbol).map Prod.snd

end Commander

end Handling

end QuantTrader.Rebalance
