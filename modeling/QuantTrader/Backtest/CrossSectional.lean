import Mathlib.Data.List.Sort
import QuantTrader.Backtest.Account
import QuantTrader.Rebalance.Decide

/-! # Cross-sectional backtests

The strategy collects the closes of a bar. The first tick of another bar makes
it rank the symbols of the bar by their return and rebalance at those closes;
by then the engine has recorded the price of that tick.
-/

namespace QuantTrader.Backtest

open Ledger (Side)
open Strategy (PyFloat)

/-! ## Broker -/

inductive AssetClass
  | coin | stockKr | stockUs
  deriving DecidableEq

/-- `asset_class`, on plain ASCII symbols. -/
def assetClass (symbol : String) : AssetClass :=
  if "KRW-".toList.isPrefixOf symbol.toList then .coin
  else if symbol ≠ "" ∧ symbol.toList.all Char.isDigit then .stockKr
  else .stockUs

/-- `STOCK_SELL_TAX_RATE`. -/
def stockSellTaxRate : ℚ := 2 / 1000

/-- `FillModel`. -/
structure FillModel where
  feeRate : ℚ
  slippageBps : ℚ

namespace FillModel

variable (c : Context) (m : FillModel)

def fillPrice (side : Side) (marketPrice : ℚ) : Except Signal ℚ :=
  if m.slippageBps = 0 then return marketPrice
  else do
    let adj ← c.divFin m.slippageBps 10000
    let factor ← match side with
      | .buy => c.finish (1 + adj)
      | .sell => c.finish (1 - adj)
    c.finish (marketPrice * factor)

def fee (price qty : ℚ) : Except Signal ℚ := do
  c.quantizeFin .halfEven 4 (← c.finish ((← c.finish (price * qty)) * m.feeRate))

def tax (symbol : String) (price qty : ℚ) : Except Signal ℚ :=
  if assetClass symbol = .stockKr then do
    c.quantizeFin .halfEven 4 (← c.finish ((← c.finish (price * qty)) * stockSellTaxRate))
  else return 0

end FillModel

/-- `_adjust_qty`. -/
def adjustQty (symbol : String) (qty : ℚ) : ℚ :=
  if assetClass symbol = .coin then qty else Context.truncate qty

/-- The account with the keys of its positions in the order of the dict. -/
structure Book where
  account : Account
  held : List String

namespace Book

variable (c : Context) (m : FillModel) (b : Book)

/-- `equity`. -/
def equity (prices : String → Option ℚ) : Except Signal ℚ :=
  b.held.foldlM (fun eq s =>
    match b.account.positions s, prices s with
    | some p, some lp => do c.finish (eq + (← c.finish (p.qty * lp)))
    | _, _ => return eq) b.account.cash

variable (symbol : String) (qty ts price : ℚ)

/-- `buy` at a given price. -/
def buy : Except Signal Book :=
  let qty := adjustQty symbol qty
  if qty ≤ 0 ∨ price ≤ 0 then return b
  else do
    let fp ← m.fillPrice c .buy price
    let fee ← m.fee c fp qty
    let r ← b.account.applyBuy c symbol fp qty fee ts
    return ⟨r.1, if r.2 = true ∧ symbol ∉ b.held then b.held ++ [symbol] else b.held⟩

/-- `sell` at a given price. -/
def sell : Except Signal Book :=
  let qty := adjustQty symbol qty
  if qty ≤ 0 ∨ price ≤ 0 then return b
  else do
    let fp ← m.fillPrice c .sell price
    let fee ← m.fee c fp qty
    let tax ← FillModel.tax c symbol fp qty
    let r ← b.account.applySell c symbol fp qty fee ts tax
    return ⟨r.1, if (r.1.positions symbol).isNone then b.held.erase symbol else b.held⟩

end Book

/-! ## Strategy -/

structure Tick where
  symbol : String
  price : ℚ
  ts : ℚ
  deriving DecidableEq

structure Order where
  side : Side
  symbol : String
  qty : ℚ
  price : ℚ
  deriving DecidableEq

inductive Ranking
  | reversal | momentum
  deriving DecidableEq

/-- How `set(a) | set(b)` is iterated. -/
structure SetOrder where
  union : List String → List String → List String
  mem_union : ∀ a b s, s ∈ union a b ↔ s ∈ a ∨ s ∈ b

/-- The parameters of a strategy, with the fill model of its engine. -/
structure XSConfig where
  ranking : Ranking
  barSec : ℚ
  lookback : ℕ
  topN : ℕ
  band : ℚ
  maxWeight : ℚ
  order : SetOrder
  fills : FillModel

section Strategy

variable {F : Type} [PyFloat F]

open Strategy.PyFloat

/-- `append` on a deque with a maximal length. -/
def push (maxlen : ℕ) (dq : List F) (x : F) : List F := (dq ++ [x]).drop (dq.length + 1 - maxlen)

/-- `_lookback_return`. -/
def lookbackReturn (dq : List F) (lookback : ℕ) : Option F :=
  if dq.length < lookback + 1 then none
  else do
    let base ← dq[dq.length - (lookback + 1)]?
    let last ← dq.getLast?
    if lt (ofNat 0) base then some (last / base - ofNat 1) else none

/-- The strategy and its engine. `observed` and `known` are the keys of `snapshot` and `history` in
the order of the dicts; `orders` is all that was passed to the broker. -/
structure Sim (F : Type) where
  book : Book
  prices : String → Option ℚ
  curBar : Option ℤ
  observed : List String
  snapshot : String → Option ℚ
  known : List String
  history : String → List F
  orders : List Order

/-- The returns of the observed symbols, in the order of `history`. -/
def Sim.scores (s : Sim F) (lookback : ℕ) : List (String × F) :=
  s.known.filterMap fun n =>
    if (s.snapshot n).isSome then (lookbackReturn (s.history n) lookback).map fun r => (n, r)
    else none

/-- `a` may stand before `b`; a stable sort keeps equal ones in order. -/
def Ranking.before : Ranking → String × F → String × F → Bool
  | reversal, a, b => !lt b.2 a.2
  | momentum, a, b => !lt a.2 b.2

/-- `rank`. -/
def rank (ranking : Ranking) (scores : List (String × F)) : List String :=
  (scores.insertionSort fun a b => ranking.before a b = true).map Prod.fst

section Rebalancing

variable (c : Context) (cfg : XSConfig) (snapshot prices : String → Option ℚ) (longs : List String)
  (tw cash equity ts : ℚ)

/-- The weight of a target as a float, and back in `decide`. -/
def viaFloat (F : Type) [PyFloat F] (x : ℚ) : ℚ := toDecimal (ofDecimal x : F)

/-- A pass of the first loop: sell what is above its target. -/
def sellStep (F : Type) [PyFloat F] (acc : Book × List Order) (sym : String) :
    Except Signal (Book × List Order) :=
  let px := (snapshot sym).getD ((prices sym).getD 0)
  if px ≤ 0 then return acc
  else do
    let target := if sym ∈ longs then tw else 0
    match ← Rebalance.decide c (acc.1.account.qty sym) px cash equity (viaFloat F target) cfg.band
      with
    | some (.sell, qty) =>
      return (← acc.1.sell c cfg.fills sym qty ts px, acc.2 ++ [⟨.sell, sym, qty, px⟩])
    | _ => return acc

/-- A pass of the second loop: buy what is below its target. -/
def buyStep (F : Type) [PyFloat F] (acc : Book × List Order) (sym : String) :
    Except Signal (Book × List Order) := do
  let px := (snapshot sym).getD 0
  match ← Rebalance.decide c (acc.1.account.qty sym) px cash equity (viaFloat F tw) cfg.band with
  | some (.buy, qty) =>
    return (← acc.1.buy c cfg.fills sym qty ts px, acc.2 ++ [⟨.buy, sym, qty, px⟩])
  | _ => return acc

/-- The two loops: sell first, then buy with the new cash. -/
def rebalance (F : Type) [PyFloat F] (book : Book) : Except Signal (Book × List Order) := do
  let tw := min (← c.divFin 1 longs.length) cfg.maxWeight
  let equity ← book.equity c prices
  let sold ← (cfg.order.union book.held longs).foldlM
    (sellStep c cfg snapshot prices longs tw book.account.cash equity ts F) (book, [])
  let equity ← sold.1.equity c prices
  longs.foldlM (buyStep c cfg snapshot tw sold.1.account.cash equity ts F) sold

end Rebalancing

namespace Sim

variable (c : Context) (cfg : XSConfig) (s : Sim F)

def longs : List String := (rank cfg.ranking (s.scores cfg.lookback)).take cfg.topN

/-- `_on_bar_close`, with the prices of the engine. -/
def onBarClose (prices : String → Option ℚ) (ts : ℚ) : Except Signal (Book × List Order) :=
  if s.observed.length < 2 ∨ s.longs cfg = [] then return (s.book, [])
  else rebalance c cfg s.snapshot prices (s.longs cfg) ts F s.book

/-- `bar_key`. -/
def barKey (ts : ℚ) : ℤ := ⌊ts / cfg.barSec⌋

/-- What a tick leaves in `snapshot`, `history` and the prices of the engine. -/
def observe (t : Tick) : Sim F :=
  { s with
    prices := Function.update s.prices t.symbol (some t.price)
    curBar := some (barKey cfg t.ts)
    observed := if t.symbol ∈ s.observed then s.observed else s.observed ++ [t.symbol]
    snapshot := Function.update s.snapshot t.symbol (some t.price)
    known := if t.symbol ∈ s.known then s.known else s.known ++ [t.symbol]
    history := Function.update s.history t.symbol
      (push (cfg.lookback + 1) (s.history t.symbol) (ofDecimal t.price)) }

/-- The tick is the first one of another bar. -/
def Closes (t : Tick) : Prop := ∃ k ∈ s.curBar, k ≠ barKey cfg t.ts

instance (t : Tick) : Decidable (s.Closes cfg t) := by
  unfold Closes
  infer_instance

/-- The end of a bar: rebalance, and forget its closes. -/
def close (t : Tick) : Except Signal (Sim F) := do
  let r ← s.onBarClose c cfg (Function.update s.prices t.symbol (some t.price)) t.ts
  return { s with book := r.1, observed := [], snapshot := fun _ => none, orders := s.orders ++ r.2 }

/-- The bar before, ended if the tick is of another one. -/
def closing (t : Tick) : Except Signal (Sim F) :=
  if s.Closes cfg t then s.close c cfg t else .ok s

/-- A tick in the engine, up to `on_tick`. -/
def onTick (t : Tick) : Except Signal (Sim F) := do
  let s ← s.closing c cfg t
  return s.observe cfg t

/-- `run` on an initial cash. -/
def init (F : Type) (cash : ℚ) : Sim F where
  book := ⟨⟨cash, fun _ => none⟩, []⟩
  prices := fun _ => none
  curBar := none
  observed := []
  snapshot := fun _ => none
  known := []
  history := fun _ => []
  orders := []

def run (ticks : List Tick) : Except Signal (Sim F) := ticks.foldlM (onTick c cfg) s

end Sim

end Strategy

end QuantTrader.Backtest
