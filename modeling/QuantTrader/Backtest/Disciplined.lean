import QuantTrader.Backtest.Journal

/-! # Disciplined strategies

A strategy first looks whether to liquidate what it holds, then asks its signal whether
to enter or to leave. The peak of a position is written by the first and cleared by all
three; it is the best return of the ticks since the one that opened the position.
-/

namespace QuantTrader.Backtest

open Transition
open Ledger (Side)

namespace Disciplined

/-- The thresholds of the configuration, percentages as ratios. -/
structure Rules where
  stop : ℚ
  take : ℚ
  arm : ℚ
  giveback : ℚ
  warmupSec : ℚ
  cooldownSec : ℚ
  minHoldSec : ℚ
  maxPositions : ℕ

/-- The state of a strategy, with the own state of its signal. -/
structure State (X : Type) where
  prices : String → List ℚ
  peak : String → Option ℚ
  entryTime : String → Option ℚ
  lastExit : String → Option ℚ
  startedAt : Option ℚ
  own : X

/-- What a signal asks for; the fraction of the cash is computed only when it is needed. -/
inductive Action
  | stay
  | enter (allowed : Bool) (fraction : Except Signal ℚ)
  | exit (reason : String)

/-- `_NEG_INF` -/
def negInf : ℚ := -10 ^ 18

namespace State

variable {X : Type} (st : State X) (sym : String) (now : ℚ)

def init (own : X) : State X :=
  ⟨fun _ => [], fun _ => none, fun _ => none, fun _ => none, none, own⟩

def setPeak (peak : Option ℚ) : State X := { st with peak := Function.update st.peak sym peak }

def entered : State X :=
  { st.setPeak sym none with entryTime := Function.update st.entryTime sym (some now) }

def exited : State X :=
  { st.setPeak sym none with
    lastExit := Function.update st.lastExit sym (some now)
    entryTime := Function.update st.entryTime sym none }

/-- A tick comes: the clock of the warm-up starts, and its price is kept. -/
def observe (window : ℕ) (t : Tick) : State X :=
  { st with
    startedAt := some (st.startedAt.getD t.ts)
    prices := Function.update st.prices t.symbol (push window (st.prices t.symbol) t.price) }

def warming (rules : Rules) : Bool := now - st.startedAt.getD now < rules.warmupSec

/-- The last exit of the symbol is too recent. -/
def cooling (rules : Rules) : Bool := now - (st.lastExit sym).getD negInf < rules.cooldownSec

end State

variable {X : Type} (c : Context) (rules : Rules) (st : State X) (sym : String) (price now : ℚ)

/-- `price / avg - 1`. -/
def pnl (price avg : ℚ) : Except Signal ℚ := do
  c.finish ((← c.divFin price avg) - 1)

def liquidationReason (pnl peak : ℚ) : Except Signal (Option String) :=
  if pnl ≤ -rules.stop then return some "STOP"
  else if rules.take ≤ pnl then return some "TAKE"
  else if rules.arm ≤ peak then do
    return if pnl ≤ (← c.finish (peak - rules.giveback)) then some "TRAIL" else none
  else return none

/-- The larger of the stored peak, if any, and a return. -/
def raise (peak : Option ℚ) (pnl : ℚ) : ℚ :=
  let peak := peak.getD pnl
  if peak < pnl then pnl else peak

/-- `check_liquidations`, with what follows it. -/
def checkLiquidations (k : State X → Script (State X)) : Script (State X) :=
  .read fun v =>
    let qty := v.positionQty sym
    let avg := v.positionAvg sym
    if qty ≤ 0 ∨ avg ≤ 0 then k (st.setPeak sym none)
    else match pnl c price avg with
      | .error e => .fail e
      | .ok x =>
        let peak := raise (st.peak sym) x
        let st := st.setPeak sym (some peak)
        match liquidationReason c rules x peak with
        | .error e => .fail e
        | .ok none => k st
        | .ok (some reason) =>
          .sell sym qty reason now none fun ok => k (if ok then st.exited sym now else st)

/-- The quantity of an entry, if it is worth an order. -/
def entryQty (fraction : Except Signal ℚ) (cash : ℚ) : Except Signal (Option ℚ) := do
  let fraction ← fraction
  let budget ← if 0 < cash then c.finish (cash * fraction) else pure 0
  if budget < Rebalance.minOrderKrw then return none
  let qty ← c.quantizeFin .halfEven 8 (← c.divFin budget price)
  return if 0 < qty then some qty else none

/-- `_enter` -/
def enter (allowed : Bool) (fraction : Except Signal ℚ) : Script (State X) :=
  if st.warming now rules || !allowed || price ≤ 0 then .done st
  else .read fun v =>
    if 0 < v.positionQty sym || st.cooling sym now rules || rules.maxPositions ≤ v.openSymbolCount
    then .done st
    else match entryQty c price fraction v.cash with
      | .error e => .fail e
      | .ok none => .done st
      | .ok (some qty) =>
        .buy sym qty now none fun ok => .done (if ok then st.entered sym now else st)

/-- `_exit_signal` and `_exit_deadcross`, by their reasons. -/
def exit (reason : String) : Script (State X) :=
  if st.warming now rules then .done st
  else .read fun v =>
    if v.positionQty sym ≤ 0 || now - (st.entryTime sym).getD negInf < rules.minHoldSec ||
      st.cooling sym now rules
    then .done st
    else .sell sym (v.positionQty sym) reason now none fun ok =>
      .done (if ok then st.exited sym now else st)

def act : Action → Script (State X)
  | .stay => .done st
  | .enter allowed fraction => enter c rules st sym price now allowed fraction
  | .exit reason => exit rules st sym now reason

/-- `on_tick`, with the decision on the prices that are kept. -/
def onTick (window : ℕ) (decision : X → String → List ℚ → Except Signal (X × Action)) (st : State X)
    (t : Tick) : Script (State X) :=
  checkLiquidations c rules (st.observe window t) t.symbol t.price t.ts fun st =>
    match decision st.own t.symbol (st.prices t.symbol) with
    | .error e => .fail e
    | .ok (own, action) => act c rules { st with own } t.symbol t.price t.ts action

end Disciplined

open Disciplined

/-! ## The strategies -/

/-- A `DisciplinedStrategy`; its signal may keep a state of its own. -/
structure DisciplinedStrategy (X : Type) where
  rules : Rules
  window : ℕ
  orderFraction : ℚ
  signal : X → String → List ℚ → Except Signal (X × Option Side)

namespace DisciplinedStrategy

variable {X : Type} (c : Context) (d : DisciplinedStrategy X)

def decision (own : X) (sym : String) (prices : List ℚ) : Except Signal (X × Action) := do
  let (own, sig) ← d.signal own sym prices
  return match sig with
    | some .buy => (own, .enter true (.ok d.orderFraction))
    | some .sell => (own, .exit "SIGNAL")
    | none => (own, .stay)

def onTick : State X → Tick → Script (State X) := Disciplined.onTick c d.rules d.window d.decision

end DisciplinedStrategy

/-- The parameters of `SMAStrategy`. -/
structure SMAStrategy where
  rules : Rules
  smaShort : ℕ
  smaLong : ℕ
  entryBand : ℚ
  strongGap : ℚ
  orderFractionMin : ℚ
  orderFractionMax : ℚ
  minEdgePct : ℚ
  confirmTicks : ℕ
  deadcrossExit : Bool

/-- The confirmed trend of a symbol, and a trend with the ticks that it has come up. -/
structure SMATrend where
  state : String → Option Side
  pending : String → Option (Side × ℕ)

namespace SMAStrategy

variable (c : Context) (p : SMAStrategy)

/-- `sum(p[-n:]) / n`. -/
def mean (n : ℕ) (prices : List ℚ) : Except Signal ℚ := do
  let last := if n = 0 then prices else prices.drop (prices.length - n)
  c.divFin (← last.foldlM (fun sum x => c.finish (sum + x)) 0) n

def smaGap (prices : List ℚ) : Except Signal (Option ℚ) := do
  if prices.length < p.smaLong then return none
  let short ← mean c p.smaShort prices
  let long ← mean c p.smaLong prices
  if long ≤ 0 then return none
  return some (← c.divFin (← c.finish (short - long)) long)

def smaState (gap : Option ℚ) : Option Side :=
  gap.bind fun gap =>
    if p.entryBand ≤ gap then some .buy else if gap ≤ -p.entryBand then some .sell else none

def positionFraction (gap : ℚ) : Except Signal ℚ := do
  let span ← c.finish (p.strongGap - p.entryBand)
  if span ≤ 0 then return p.orderFractionMax
  let t ← c.divFin (← c.finish (|gap| - p.entryBand)) span
  let t := max 0 (min 1 t)
  c.finish (p.orderFractionMin +
    (← c.finish ((← c.finish (p.orderFractionMax - p.orderFractionMin)) * t)))

def confirm (own : SMATrend) (sym : String) : Option Side → SMATrend
  | some raw =>
    if own.state sym = some raw then
      { own with pending := Function.update own.pending sym none }
    else
      let n := match own.pending sym with
        | some (side, n) => if side = raw then n + 1 else 1
        | none => 1
      if p.confirmTicks ≤ n then
        ⟨Function.update own.state sym (some raw), Function.update own.pending sym none⟩
      else { own with pending := Function.update own.pending sym (some (raw, n)) }
  | none => { own with pending := Function.update own.pending sym none }

def decision (own : SMATrend) (sym : String) (prices : List ℚ) :
    Except Signal (SMATrend × Action) := do
  let gap ← smaGap c p prices
  let raw := p.smaState gap
  let own := p.confirm own sym raw
  if own.state sym = some .buy ∧ raw = some .buy then
    return (own, .enter (gap.any fun gap => p.minEdgePct ≤ |gap|)
      (positionFraction c p (gap.getD 0)))
  else if p.deadcrossExit ∧ own.state sym = some .sell ∧ raw = some .sell then
    return (own, .exit "DEADCROSS")
  else return (own, .stay)

def onTick : State SMATrend → Tick → Script (State SMATrend) :=
  Disciplined.onTick c p.rules p.smaLong (p.decision c)

def init : State SMATrend := .init ⟨fun _ => none, fun _ => none⟩

end SMAStrategy

theorem sixtySeconds_pos : (0 : ℚ) < 60 := by decide +kernel

/-- Minute bars, with the fee rate of the configuration and without slippage. -/
def minutely : ReplayConfig := ⟨.default, ⟨Rebalance.feeRate, 0⟩, 60, sixtySeconds_pos⟩

end QuantTrader.Backtest
