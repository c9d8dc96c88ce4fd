import QuantTrader.Backtest.CrossSectional
import QuantTrader.Strategy.Ensemble

/-! # The trend strategy in the backtest engine

The strategy decides on its indicators and on what its broker holds. The engine
is such a broker: it replays ticks, settles orders on its account and samples the
equity on an even grid. `fl` rounds the results of float operations on times.
-/

namespace QuantTrader.Backtest

open Strategy (PyFloat TrendSignal sma annVol targetWeight)

open Strategy.PyFloat

/-- How a run ends without a result. -/
inductive Failure
  | signal (s : Signal)
  /-- A loop has not ended within the given number of steps. -/
  | endless
  | typeError
  deriving DecidableEq

/-- A computation in decimals. -/
def decimals {α : Type} : Except Signal α → Except Failure α
  | .ok a => .ok a
  | .error s => .error (.signal s)

/-- `Broker`, as far as the strategy uses it. -/
structure Broker (σ : Type) where
  positionQty : σ → String → ℚ
  cash : σ → ℚ
  equity : σ → Except Signal ℚ
  buy : σ → String → ℚ → ℚ → Except Signal σ
  sell : σ → String → ℚ → String → ℚ → Except Signal σ

/-- `_NullBroker`. -/
def nullBroker : Broker Unit where
  positionQty _ _ := 0
  cash _ := 0
  equity _ := return 0
  buy _ _ _ _ := return ()
  sell _ _ _ _ _ := return ()

/-! ## The strategy -/

/-- The parameters of a `TrendStrategy`; those of its indicators are the ones of a signal. -/
structure TrendStrategy (F : Type) where
  signal : TrendSignal F
  rebalanceBand : ℚ

namespace TrendStrategy

variable {F σ : Type} [PyFloat F] (c : Context) (b : Broker σ) (s : TrendStrategy F) (w : σ)
  (sym : String) (price now : ℚ)

/-- `_buy`. -/
def buy (budget : ℚ) : Except Signal σ :=
  if budget < Rebalance.minOrderKrw then return w
  else do
    let qty ← Rebalance.affordableQty c budget price
    if 0 < qty then b.buy w sym qty now else return w

/-- `_enter`. -/
def enter (vol : Option F) : Except Signal σ :=
  if price ≤ 0 then return w
  else do
    let weight := targetWeight vol s.signal.volTarget s.signal.maxWeight
    let budget := min (← c.finish ((← b.equity w) * weight)) (b.cash w)
    buy c b w sym price now budget

/-- `_rebalance`. -/
def rebalance (vol : Option F) : Except Signal σ :=
  if price ≤ 0 then return w
  else do
    let equity ← b.equity w
    if equity ≤ 0 then return w
    let targetW := targetWeight vol s.signal.volTarget s.signal.maxWeight
    let curVal ← c.finish (b.positionQty w sym * price)
    let targetVal ← c.finish (equity * targetW)
    if ← Rebalance.withinBand c curVal targetVal equity targetW s.rebalanceBand then return w
    if curVal < targetVal then
      buy c b w sym price now (min (← c.finish (targetVal - curVal)) (b.cash w))
    else do
      let sellQty ← c.quantizeDown 8 (← c.divFin (← c.finish (curVal - targetVal)) price)
      if 0 < sellQty then b.sell w sym (min sellQty (b.positionQty w sym)) "REBAL" now else return w

/-- `on_tick`, on the price buffers and the broker. -/
def onTick (acc : (String → List F) × σ) (t : Tick) : Except Signal ((String → List F) × σ) := do
  let dq := TrendSignal.push (s.signal.warmupBars + 1) (acc.1 t.symbol) (ofDecimal t.price)
  let prices := Function.update acc.1 t.symbol dq
  if dq.length < s.signal.warmupBars then return (prices, acc.2)
  let smaS := sma dq s.signal.short
  let smaL := sma dq s.signal.long
  let vol := annVol dq s.signal.volLookback s.signal.barsPerYear
  let extreme := vol.any fun v => lt s.signal.regimeMaxVol v
  let trendUp := lt (smaL * (ofNat 1 + s.signal.entryBand)) smaS
  let trendDown := lt smaS (smaL * (ofNat 1 - s.signal.entryBand))
  if 0 < b.positionQty acc.2 t.symbol then
    if extreme || trendDown then
      return (prices, ← b.sell acc.2 t.symbol (b.positionQty acc.2 t.symbol) "SIGNAL" t.ts)
    if 0 < s.rebalanceBand then
      return (prices, ← rebalance c b s acc.2 t.symbol t.price t.ts vol)
    return (prices, acc.2)
  if trendUp && !extreme then
    return (prices, ← enter c b s acc.2 t.symbol t.price t.ts vol)
  return (prices, acc.2)

end TrendStrategy

/-! ## The engine -/

/-- `BacktestEngine` in a run; the sampling starts with the first tick. -/
structure Engine where
  book : Book
  lastPrice : String → Option ℚ
  closedTrades : List ClosedTrade
  equityCurve : List (ℚ × ℚ)
  lastSampleTs : Option ℚ
  lastEq : ℚ

/-- What an engine is made with. -/
structure EngineConfig where
  context : Context
  fl : ℚ → ℚ
  fills : FillModel
  equitySampleSec : ℚ

namespace Engine

def init (initialCash : ℚ) : Engine :=
  ⟨⟨⟨initialCash, fun _ => none⟩, []⟩, fun _ => none, [], [], none, initialCash⟩

variable (cfg : EngineConfig) (e : Engine)

/-- `buy` at the last price. -/
def buy (symbol : String) (qty ts : ℚ) : Except Signal Engine :=
  match e.lastPrice symbol with
  | none => return e
  | some mp => return { e with book := ← e.book.buy cfg.context cfg.fills symbol qty ts mp }

/-- `sell` at the last price. -/
def sell (symbol : String) (qty : ℚ) (reason : String) (ts : ℚ) : Except Signal Engine :=
  match e.lastPrice symbol with
  | none => return e
  | some mp =>
    if adjustQty symbol qty ≤ 0 ∨ mp ≤ 0 then return e
    else do
      let qty := adjustQty symbol qty
      let fp ← cfg.fills.fillPrice cfg.context .sell mp
      let fee ← cfg.fills.fee cfg.context fp qty
      let tax ← FillModel.tax cfg.context symbol fp qty
      let (account, trade) ← e.book.account.applySell cfg.context symbol fp qty fee ts tax
      match trade with
      | none => return e
      | some trade =>
        let held := if (account.positions symbol).isNone then e.book.held.erase symbol else e.book.held
        return { e with
          book := ⟨account, held⟩
          closedTrades := e.closedTrades ++ [{ trade with reason }] }

/-- The engine as a broker. -/
def broker : Broker Engine where
  positionQty e := e.book.account.qty
  cash e := e.book.account.cash
  equity e := e.book.equity cfg.context e.lastPrice
  buy e := e.buy cfg
  sell e := e.sell cfg

/-- The `while` of `run`: the grid points up to a tick carry the equity before it. -/
def sampleGrid (ts lastEq : ℚ) : ℕ → ℚ → List (ℚ × ℚ) → Except Failure (ℚ × List (ℚ × ℚ))
  | 0, _, _ => .error .endless
  | fuel + 1, last, curve =>
    if cfg.equitySampleSec ≤ cfg.fl (ts - last) then
      let next := cfg.fl (last + cfg.equitySampleSec)
      sampleGrid ts lastEq fuel next (curve ++ [(next, lastEq)])
    else .ok (last, curve)

def begin (t : Tick) : Except Signal Engine :=
  match e.lastSampleTs with
  | some _ => return e
  | none => do
    let eq ← e.book.equity cfg.context e.lastPrice
    return { e with
      lastSampleTs := some t.ts
      lastEq := eq
      equityCurve := e.equityCurve ++ [(t.ts, eq)] }

variable {F : Type} [PyFloat F]

/-- The loop body of `run`. -/
def tick (fuel : ℕ) (s : TrendStrategy F) (acc : (String → List F) × Engine) (t : Tick) :
    Except Failure ((String → List F) × Engine) := do
  let e := { acc.2 with lastPrice := Function.update acc.2.lastPrice t.symbol (some t.price) }
  let e ← decimals (e.begin cfg t)
  let (prices, e) ← decimals (s.onTick cfg.context (broker cfg) (acc.1, e) t)
  let eq ← decimals (e.book.equity cfg.context e.lastPrice)
  let (last, curve) ← sampleGrid cfg t.ts e.lastEq fuel (e.lastSampleTs.getD t.ts) e.equityCurve
  return (prices, { e with lastSampleTs := some last, equityCurve := curve, lastEq := eq })

/-- `run`, on a strategy whose buffers are filled already. -/
def run (fuel : ℕ) (s : TrendStrategy F) (prices : String → List F) (ticks : List Tick) :
    Except Failure Engine := do
  let (_, e) ← ticks.foldlM (tick cfg fuel s) (prices, e)
  return e

end Engine

end QuantTrader.Backtest
