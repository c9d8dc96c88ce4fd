import QuantTrader.Backtest.Trend

/-! # Replaying ticks

A strategy talks to its broker: it reads the book, asks for the equity, sends
orders and goes on with the answers. `run` of the engine hands it every tick and
keeps the final equity, the peak and the largest drawdown beside the sampled
curve. Times are exact here.
-/

namespace QuantTrader.Backtest

/-! ## Strategies -/

/-- What a broker shows of itself without a calculation. -/
structure BrokerView where
  positionQty : String → ℚ
  positionAvg : String → ℚ
  cash : ℚ
  openSymbolCount : ℕ
  iterPositions : List String
  price : String → ℚ

/-- What a strategy does on a tick; it ends with its next state or with an exception. -/
inductive Script (S : Type)
  | done (s : S)
  | fail (e : Signal)
  | read (k : BrokerView → Script S)
  | equity (k : ℚ → Script S)
  | buy (symbol : String) (qty ts : ℚ) (price : Option ℚ) (k : Bool → Script S)
  | sell (symbol : String) (qty : ℚ) (reason : String) (ts : ℚ) (price : Option ℚ)
      (k : Bool → Script S)

namespace Engine

variable (cfg : EngineConfig) (e : Engine)

def view : BrokerView where
  positionQty := e.book.account.qty
  positionAvg := e.book.account.avg
  cash := e.book.account.cash
  openSymbolCount := e.book.held.length
  iterPositions := e.book.held
  price symbol := (e.lastPrice symbol).getD 0

/-- The price of an order: the one given, else the last one; none unless it is positive. -/
def orderPrice (symbol : String) (price : Option ℚ) : Option ℚ :=
  (price.or (e.lastPrice symbol)).filter (0 < ·)

/-- `buy`. -/
def buyAt (symbol : String) (qty ts : ℚ) (price : Option ℚ) : Except Signal (Engine × Bool) :=
  let qty := adjustQty symbol qty
  match e.orderPrice symbol price with
  | none => return (e, false)
  | some mp =>
    if qty ≤ 0 then return (e, false)
    else do
      let fp ← cfg.fills.fillPrice cfg.context .buy mp
      let fee ← cfg.fills.fee cfg.context fp qty
      let (account, applied) ← e.book.account.applyBuy cfg.context symbol fp qty fee ts
      let held := if applied = true ∧ symbol ∉ e.book.held then e.book.held ++ [symbol]
        else e.book.held
      return ({ e with book := ⟨account, held⟩ }, applied)

/-- `sell`. -/
def sellAt (symbol : String) (qty : ℚ) (reason : String) (ts : ℚ) (price : Option ℚ) :
    Except Signal (Engine × Bool) :=
  let qty := adjustQty symbol qty
  match e.orderPrice symbol price with
  | none => return (e, false)
  | some mp =>
    if qty ≤ 0 then return (e, false)
    else do
      let fp ← cfg.fills.fillPrice cfg.context .sell mp
      let fee ← cfg.fills.fee cfg.context fp qty
      let tax ← FillModel.tax cfg.context symbol fp qty
      let (account, trade) ← e.book.account.applySell cfg.context symbol fp qty fee ts tax
      match trade with
      | none => return (e, false)
      | some trade =>
        let held := if (account.positions symbol).isNone then e.book.held.erase symbol
          else e.book.held
        return ({ e with
          book := ⟨account, held⟩
          closedTrades := e.closedTrades ++ [{ trade with reason }] }, true)

end Engine

namespace Script

variable {S : Type}

/-- A script with the engine as its broker. -/
def exec (cfg : EngineConfig) : Script S → Engine → Except Signal (S × Engine)
  | done s, e => return (s, e)
  | fail err, _ => .error err
  | read k, e => (k e.view).exec cfg e
  | equity k, e => do (k (← e.book.equity cfg.context e.lastPrice)).exec cfg e
  | buy symbol qty ts price k, e => do
    let (e, ok) ← e.buyAt cfg symbol qty ts price
    (k ok).exec cfg e
  | sell symbol qty reason ts price k, e => do
    let (e, ok) ← e.sellAt cfg symbol qty reason ts price
    (k ok).exec cfg e

/-- `_NullBroker`. -/
def nullView : BrokerView := ⟨fun _ => 0, fun _ => 0, 0, 0, [], fun _ => 0⟩

/-- A script with a broker that holds nothing and refuses every order. -/
def execNull : Script S → Except Signal S
  | done s => return s
  | fail err => .error err
  | read k => (k nullView).execNull
  | equity k => (k 0).execNull
  | buy _ _ _ _ k => (k false).execNull
  | sell _ _ _ _ _ k => (k false).execNull

end Script

/-! ## Drawdown -/

/-- The drawdown after a value, if it is the largest so far. -/
def drawdown (c : Context) (peak mdd v : ℚ) : Except Signal ℚ :=
  if 0 < peak then do
    let dd ← c.divFin (← c.finish (peak - v)) peak
    return if mdd < dd then dd else mdd
  else return mdd

/-- The loop body of `max_drawdown`. -/
def drawdownStep (c : Context) (acc : Option ℚ × ℚ) (v : ℚ) : Except Signal (Option ℚ × ℚ) :=
  let peak := match acc.1 with
    | none => v
    | some peak => if peak < v then v else peak
  return (some peak, ← drawdown c peak acc.2 v)

/-- `max_drawdown` of the metrics. -/
def maxDrawdown (c : Context) (values : List ℚ) : Except Signal ℚ :=
  Prod.snd <$> values.foldlM (drawdownStep c) (none, 0)

/-! ## The run -/

/-- The engine with its results of a run. -/
structure Replay extends Engine where
  peakEquity : ℚ
  maxDrawdown : ℚ
  finalEquity : ℚ

/-- The fill model, the arithmetic and the sampling of an engine. -/
structure ReplayConfig where
  context : Context
  fills : FillModel
  equitySampleSec : ℚ
  sampleSec_pos : 0 < equitySampleSec

def ReplayConfig.engine (cfg : ReplayConfig) : EngineConfig :=
  ⟨cfg.context, id, cfg.fills, cfg.equitySampleSec⟩

namespace Replay

variable {S : Type} (cfg : ReplayConfig)

def init (initialCash : ℚ) : Replay := ⟨Engine.init initialCash, initialCash, 0, initialCash⟩

/-- How often the sampling loop runs until `ts`. -/
def gridSteps (ts last : ℚ) : ℕ := ⌊(ts - last) / cfg.equitySampleSec⌋.toNat

/-- The loop body of `run`. -/
def tick (onTick : S → Tick → Script S) (acc : S × Replay) (t : Tick) :
    Except Failure (S × Replay) := do
  let r := acc.2
  let e := { r.toEngine with lastPrice := Function.update r.lastPrice t.symbol (some t.price) }
  let e ← decimals (e.begin cfg.engine t)
  let (s, e) ← decimals ((onTick acc.1 t).exec cfg.engine e)
  let eq ← decimals (e.book.equity cfg.context e.lastPrice)
  let peak := if r.peakEquity < eq then eq else r.peakEquity
  let mdd ← decimals (drawdown cfg.context peak r.maxDrawdown eq)
  let last := e.lastSampleTs.getD t.ts
  let (last, curve) ← Engine.sampleGrid cfg.engine t.ts e.lastEq (gridSteps cfg t.ts last + 1) last
    e.equityCurve
  let e := { e with lastSampleTs := some last, equityCurve := curve, lastEq := eq }
  return (s, ⟨e, peak, mdd, eq⟩)

/-- `run`, from a strategy state. -/
def run (onTick : S → Tick → Script S) (s : S) (r : Replay) (ticks : List Tick) :
    Except Failure (S × Replay) :=
  ticks.foldlM (tick cfg onTick) (s, r)

end Replay

end QuantTrader.Backtest
