import Mathlib.Logic.Function.Basic
import QuantTrader.Decimal.Context
import QuantTrader.Transition.Run

/-! # The backtest account

`BacktestAccount` keeps cash and positions in memory and quantises them to the
scale of the live columns. Its amounts are finite; a result that is not signals.
-/

namespace QuantTrader.Backtest

/-- An open position; `entry_fee` is the part of the entry fee not yet allotted to a sale. -/
structure Position where
  qty : ℚ
  avg : ℚ
  entryTs : ℚ
  entryPrice : ℚ
  entryFee : ℚ
  deriving DecidableEq

/-- Cash and the open position of every symbol. -/
structure Account where
  cash : ℚ
  positions : String → Option Position

structure ClosedTrade where
  symbol : String
  qty : ℚ
  entryPrice : ℚ
  exitPrice : ℚ
  buyFee : ℚ
  sellFee : ℚ
  pnl : ℚ
  returnPct : ℚ
  reason : String
  entryTs : ℚ
  exitTs : ℚ
  sellTax : ℚ
  deriving DecidableEq

/-- `_q`: quantise to `0.0001`, half up. -/
def q (c : Context) (x : ℚ) : Except Signal ℚ := c.quantizeFin .halfUp 4 x

namespace Account

variable (c : Context) (a : Account) (symbol : String)

/-- `qty` and `avg`: what is held of a symbol, zero without a position. -/
def qty : ℚ := ((a.positions symbol).map Position.qty).getD 0

def avg : ℚ := ((a.positions symbol).map Position.avg).getD 0

def setPosition (p : Option Position) : Account :=
  { a with positions := Function.update a.positions symbol p }

/-- The position after a further buy: the average is weighted by cost. -/
def addTo (p : Position) (qty unitCost : ℚ) : Except Signal Position := do
  let newQty ← c.finish (p.qty + qty)
  let avg ← q c (← c.divFin
    (← c.finish ((← c.finish (p.qty * p.avg)) + (← c.finish (qty * unitCost)))) newQty)
  return { p with avg, qty := newQty }

/-- A new position, or the held one after a further buy. -/
def openOrAdd (c : Context) (opened : Position) : Option Position → Except Signal Position
  | none => return opened
  | some p => if p.qty ≤ 0 then return opened else addTo c p opened.qty opened.avg

variable (price qty fee ts : ℚ)

/-- `apply_buy`; `false` when the cash does not cover the cost. -/
def applyBuy : Except Signal (Account × Bool) := do
  let cost ← c.finish ((← c.finish (price * qty)) + fee)
  if a.cash < cost then return (a, false)
  let cash ← q c (← c.finish (a.cash - cost))
  let unitCost ← q c (← c.divFin cost qty)
  let p ← openOrAdd c ⟨qty, unitCost, ts, price, fee⟩ (a.positions symbol)
  return ({ a with cash }.setPosition symbol (some p), true)

/-- `pnl / cost_basis` over a positive basis, else zero. -/
def returnPct (pnl costBasis : ℚ) : Except Signal ℚ :=
  if 0 < costBasis then c.divFin pnl costBasis else return 0

/-- `apply_sell`; no trade when the holding does not cover the quantity. -/
def applySell (tax : ℚ) : Except Signal (Account × Option ClosedTrade) :=
  match a.positions symbol with
  | none => return (a, none)
  | some p => do
    if p.qty < qty then return (a, none)
    let proceeds ← c.finish ((← c.finish ((← c.finish (price * qty)) - fee)) - tax)
    let cash ← q c (← c.finish (a.cash + proceeds))
    let costBasis ← c.finish (qty * p.avg)
    let pnl ← c.finish (proceeds - costBasis)
    let returnPct ← returnPct c pnl costBasis
    let buyFee ← q c (← c.divFin (← c.finish (p.entryFee * qty)) p.qty)
    let entryFee ← c.finish (p.entryFee - buyFee)
    let trade : ClosedTrade := ⟨symbol, qty, p.entryPrice, price, buyFee, fee, pnl, returnPct, "",
      p.entryTs, ts, tax⟩
    let newQty ← c.finish (p.qty - qty)
    let rest := if newQty ≤ 0 then none else some { p with entryFee, qty := newQty }
    return ({ a with cash }.setPosition symbol rest, some trade)

end Account

end QuantTrader.Backtest
