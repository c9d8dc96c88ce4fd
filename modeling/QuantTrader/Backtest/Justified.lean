import QuantTrader.Backtest.Peaks
import QuantTrader.Strategy.Indicators

/-! # Justified orders

What a strategy asks its broker for, whatever the broker shows and answers. The indicator
strategies keep a window of prices and averages for each symbol; an order of theirs is
always what the indicator says of all prices of the symbol, or a liquidation.
-/

namespace QuantTrader.Backtest

open Strategy
open Ledger (Side)

/-! ## Any broker -/

inductive Request
  | buy (symbol : String) (qty ts : ℚ)
  | sell (symbol : String) (qty : ℚ) (reason : String) (ts : ℚ)
  deriving DecidableEq

namespace Script

variable {S : Type}

/-- A script asks a broker for something. -/
inductive Submits : Script S → Request → Prop
  | read {k r} (v : BrokerView) : Submits (k v) r → Submits (.read k) r
  | equity {k r} (x : ℚ) : Submits (k x) r → Submits (.equity k) r
  | buy {symbol qty ts price k} : Submits (.buy symbol qty ts price k) (.buy symbol qty ts)
  | sell {symbol qty reason ts price k} :
    Submits (.sell symbol qty reason ts price k) (.sell symbol qty reason ts)
  | afterBuy {symbol qty ts price k r} (ok : Bool) :
    Submits (k ok) r → Submits (.buy symbol qty ts price k) r
  | afterSell {symbol qty reason ts price k r} (ok : Bool) :
    Submits (k ok) r → Submits (.sell symbol qty reason ts price k) r

/-- A script ends in a state. -/
inductive Ends : Script S → S → Prop
  | done (s : S) : Ends (.done s) s
  | read {k s} (v : BrokerView) : Ends (k v) s → Ends (.read k) s
  | equity {k s} (x : ℚ) : Ends (k x) s → Ends (.equity k) s
  | buy {symbol qty ts price k s} (ok : Bool) : Ends (k ok) s → Ends (.buy symbol qty ts price k) s
  | sell {symbol qty reason ts price k s} (ok : Bool) :
    Ends (k ok) s → Ends (.sell symbol qty reason ts price k) s

/-- All that a script asks for is in `P`, all its ends are in `Q`. -/
def Always (P : Request → Prop) (Q : S → Prop) : Script S → Prop
  | done s => Q s
  | fail _ => True
  | read k => ∀ v, (k v).Always P Q
  | equity k => ∀ x, (k x).Always P Q
  | buy symbol qty ts _ k => P (.buy symbol qty ts) ∧ ∀ ok, (k ok).Always P Q
  | sell symbol qty reason ts _ k => P (.sell symbol qty reason ts) ∧ ∀ ok, (k ok).Always P Q

variable {script : Script S} {P : Request → Prop} {Q : S → Prop} {r : Request} {s : S}

theorem Submits.of_always (h : script.Submits r) (ha : script.Always P Q) : P r := by
  induction h with
  | read v _ ih => exact ih (ha v)
  | equity x _ ih => exact ih (ha x)
  | buy => exact ha.1
  | sell => exact ha.1
  | afterBuy ok _ ih => exact ih (ha.2 ok)
  | afterSell ok _ ih => exact ih (ha.2 ok)

theorem Ends.of_always (h : script.Ends s) (ha : script.Always P Q) : Q s := by
  induction h with
  | done s => exact ha
  | read v _ ih => exact ih (ha v)
  | equity x _ ih => exact ih (ha x)
  | buy ok _ ih => exact ih (ha.2 ok)
  | sell ok _ ih => exact ih (ha.2 ok)

theorem Ends.of_exec {cfg : EngineConfig} {e e' : Engine} (h : script.exec cfg e = .ok (s, e')) :
    script.Ends s := by
  induction script generalizing e with
  | done s' =>
    cases h
    exact .done _
  | fail err => cases h
  | read k ih => exact .read e.view (ih _ h)
  | equity k ih =>
    obtain ⟨x, -, h⟩ := Transition.bind_ok_iff.mp h
    exact .equity x (ih _ h)
  | buy symbol qty ts price k ih =>
    obtain ⟨⟨e₁, ok⟩, -, h⟩ := Transition.bind_ok_iff.mp h
    exact .buy ok (ih _ h)
  | sell symbol qty reason ts price k ih =>
    obtain ⟨⟨e₁, ok⟩, -, h⟩ := Transition.bind_ok_iff.mp h
    exact .sell ok (ih _ h)

end Script

namespace Disciplined

variable {X : Type} {c : Context} {rules : Rules} {st : State X} {sym : String} {price now : ℚ}
  {P : Request → Prop} {Q : State X → Prop}

/-- The reasons of `liquidation_reason`. -/
def liquidations : List String := ["STOP", "TAKE", "TRAIL"]

theorem mem_liquidations {pnl peak : ℚ} {reason : String}
    (h : liquidationReason c rules pnl peak = .ok (some reason)) : reason ∈ liquidations := by
  unfold liquidationReason at h
  split_ifs at h
  · cases h
    decide
  · cases h
    decide
  · obtain ⟨x, -, h⟩ := Transition.bind_ok_iff.mp h
    split_ifs at h
    · cases h
      decide
    · cases h
  · cases h

/-- A state of the same prices and signal. -/
def Kin (st st' : State X) : Prop := st'.prices = st.prices ∧ st'.own = st.own

theorem always_checkLiquidations {k : State X → Script (State X)}
    (hsell : ∀ qty, ∀ reason ∈ liquidations, P (.sell sym qty reason now))
    (hk : ∀ st', Kin st st' → (k st').Always P Q) :
    (checkLiquidations c rules st sym price now k).Always P Q := by
  intro v
  dsimp only
  split_ifs with hidle
  · exact hk _ ⟨rfl, rfl⟩
  · cases pnl c price (v.positionAvg sym) with
    | error err => exact trivial
    | ok x =>
      dsimp only
      cases hreason : liquidationReason c rules x (raise (st.peak sym) x) with
      | error err => exact trivial
      | ok reason =>
        cases reason with
        | none => exact hk _ ⟨rfl, rfl⟩
        | some reason =>
          refine ⟨hsell _ _ (mem_liquidations hreason), fun ok => ?_⟩
          cases ok with
          | false => exact hk _ ⟨rfl, rfl⟩
          | true => exact hk _ ⟨rfl, rfl⟩

theorem always_act {action : Action}
    (hbuy : ∀ allowed fraction, action = .enter allowed fraction → ∀ qty, P (.buy sym qty now))
    (hsell : ∀ reason, action = .exit reason → ∀ qty, P (.sell sym qty reason now))
    (hq : ∀ st', Kin st st' → Q st') :
    (act c rules st sym price now action).Always P Q := by
  have hdone : (Script.done st).Always P Q := hq st ⟨rfl, rfl⟩
  cases action with
  | stay => exact hdone
  | enter allowed fraction =>
    change (enter c rules st sym price now allowed fraction).Always P Q
    unfold enter
    split_ifs
    · exact hdone
    · intro v
      dsimp only
      split_ifs
      · exact hdone
      · cases entryQty c price fraction v.cash with
        | error err => exact trivial
        | ok qty =>
          cases qty with
          | none => exact hdone
          | some qty =>
            refine ⟨hbuy _ _ rfl qty, fun ok => ?_⟩
            cases ok with
            | false => exact hdone
            | true => exact hq _ ⟨rfl, rfl⟩
  | exit reason =>
    change (exit rules st sym now reason).Always P Q
    unfold exit
    split_ifs
    · exact hdone
    · intro v
      dsimp only
      split_ifs
      · exact hdone
      · refine ⟨hsell _ rfl _, fun ok => ?_⟩
        cases ok with
        | false => exact hdone
        | true => exact hq _ ⟨rfl, rfl⟩

end Disciplined

open Disciplined

/-! ## Runs -/

def history (sym : String) (ticks : List Tick) : List ℚ :=
  (ticks.filter fun t => t.symbol = sym).map Tick.price

/-- An order of a tick is what the indicator says of all prices of its symbol, or a liquidation. -/
def Justified (indicator : List ℚ → Option Side) (ticks : List Tick) (t : Tick) : Request → Prop
  | .buy symbol _ ts =>
    symbol = t.symbol ∧ ts = t.ts ∧ indicator (history t.symbol ticks) = some .buy
  | .sell symbol _ reason ts => symbol = t.symbol ∧ ts = t.ts ∧
    (reason ∈ liquidations ∨ reason = "SIGNAL" ∧ indicator (history t.symbol ticks) = some .sell)

theorem history_concat {ticks : List Tick} {t : Tick} : (history · (ticks ++ [t])) =
    Function.update (history · ticks) t.symbol (history t.symbol ticks ++ [t.price]) := by
  ext1 sym
  by_cases h : t.symbol = sym
  · simp [history, h]
  · simp [history, h, Function.update_of_ne (Ne.symm h)]

namespace DisciplinedStrategy

variable {X : Type} {c : Context} {d : DisciplinedStrategy X} {own₀ : X}
  {indicator : List ℚ → Option Side} {Owns : X → (String → List ℚ) → Prop} {ticks : List Tick}
  {t : Tick} {st : State X} {r : Request}

/-- The states that a strategy may be in after some ticks. -/
inductive Reaches (c : Context) (d : DisciplinedStrategy X) (own₀ : X) : List Tick → State X → Prop
  | init : Reaches c d own₀ [] (.init own₀)
  | tick {ticks t st st'} : Reaches c d own₀ ticks st → (d.onTick c st t).Ends st' →
    Reaches c d own₀ (ticks ++ [t]) st'

/-- The signal on the window is an indicator of all prices, given what the own state keeps of
them. -/
structure Computes (d : DisciplinedStrategy X) (own₀ : X) (indicator : List ℚ → Option Side)
    (Owns : X → (String → List ℚ) → Prop) : Prop where
  init : Owns own₀ fun _ => []
  signal : ∀ {own prices} (sym price), Owns own prices → ∃ own',
    d.signal own sym (last d.window (prices sym ++ [price])) =
        .ok (own', indicator (prices sym ++ [price])) ∧
      Owns own' (Function.update prices sym (prices sym ++ [price]))

/-- What a state keeps of the ticks. -/
structure Tracks (d : DisciplinedStrategy X) (Owns : X → (String → List ℚ) → Prop)
    (ticks : List Tick) (st : State X) : Prop where
  prices : ∀ sym, st.prices sym = last d.window (history sym ticks)
  own : Owns st.own (history · ticks)

theorem Tracks.tick (hd : d.Computes own₀ indicator Owns) (h : d.Tracks Owns ticks st) :
    (d.onTick c st t).Always (Justified indicator (ticks ++ [t]) t)
      (d.Tracks Owns (ticks ++ [t])) := by
  have hnow : history t.symbol (ticks ++ [t]) = history t.symbol ticks ++ [t.price] := by
    simp [history]
  have hprices : ∀ sym, (st.observe d.window t).prices sym =
      last d.window (history sym (ticks ++ [t])) := by
    intro sym
    by_cases hsym : sym = t.symbol
    · subst hsym
      rw [hnow, ← Strategy.last_concat, ← h.prices]
      simp [State.observe, push, last]
    · rw [show history sym (ticks ++ [t]) = history sym ticks by simp [history, Ne.symm hsym]]
      simpa [State.observe, hsym] using h.prices sym
  obtain ⟨own', hsignal, hown⟩ := hd.signal t.symbol t.price h.own
  unfold onTick Disciplined.onTick
  refine always_checkLiquidations (fun qty reason hreason => ⟨rfl, rfl, .inl hreason⟩) ?_
  rintro st' ⟨hprices', hown'⟩
  rw [← history_concat] at hown
  have hdecision : ∃ action, d.decision st'.own t.symbol (st'.prices t.symbol) =
      .ok (own', action) ∧ (∀ allowed fraction, action = .enter allowed fraction →
        indicator (history t.symbol (ticks ++ [t])) = some .buy) ∧
      ∀ reason, action = .exit reason → reason = "SIGNAL" ∧
        indicator (history t.symbol (ticks ++ [t])) = some .sell := by
    rw [decision, hown', hprices', hprices, hnow]
    change ∃ action, (d.signal st.own _ _ >>= _) = _ ∧ _
    rw [hsignal]
    cases indicator (history t.symbol ticks ++ [t.price]) with
    | none => exact ⟨.stay, rfl, by simp, by simp⟩
    | some side =>
      cases side with
      | buy => exact ⟨.enter true (.ok d.orderFraction), rfl, fun _ _ _ => rfl, by simp⟩
      | sell =>
        refine ⟨.exit "SIGNAL", rfl, by simp, ?_⟩
        rintro reason ⟨⟩
        exact ⟨rfl, rfl⟩
  obtain ⟨action, hdecision, hbuy, hsell⟩ := hdecision
  rw [hdecision]
  refine always_act (fun _ _ ha qty => ⟨rfl, rfl, hbuy _ _ ha⟩)
    (fun _ ha qty => ⟨rfl, rfl, .inr (hsell _ ha)⟩) ?_
  rintro st'' ⟨hprices'', hown''⟩
  refine ⟨fun sym => ?_, ?_⟩
  · rw [hprices'']
    exact (congrFun hprices' sym).trans (hprices sym)
  · rw [hown'']
    exact hown

theorem Reaches.tracks (hd : d.Computes own₀ indicator Owns) (h : d.Reaches c own₀ ticks st) :
    d.Tracks Owns ticks st := by
  induction h with
  | init => exact ⟨fun _ => List.drop_nil.symm, hd.init⟩
  | tick _ hends ih => exact hends.of_always (ih.tick hd)

theorem Reaches.justified (hd : d.Computes own₀ indicator Owns) (h : d.Reaches c own₀ ticks st)
    (hr : (d.onTick c st t).Submits r) : Justified indicator (ticks ++ [t]) t r :=
  hr.of_always ((h.tracks hd).tick hd)

end DisciplinedStrategy

/-! ## The indicator strategies -/

inductive Indicator
  | rsi
  | bollinger
  | breakout
  | macd
  deriving DecidableEq, Repr

namespace Indicator

variable (F : Type)

/-- What a strategy keeps beside the prices: `_state` of `MACDStrategy`. -/
def Own : Indicator → Type
  | macd => String → Option (MacdState F)
  | _ => Unit

def fresh : (i : Indicator) → i.Own F
  | rsi | bollinger | breakout => ()
  | macd => fun _ => none

variable [PyMath F]

def advice : Indicator → List ℚ → Option Side
  | rsi => rsiSignal F
  | bollinger => bollingerSignal F
  | breakout => breakoutSignal F
  | macd => macdSignal F

/-- `_signal` of `MACDStrategy`, on the last of the prices. -/
def macdStep (own : String → Option (MacdState F)) (sym : String) (prices : List ℚ) :
    (String → Option (MacdState F)) × Option Side :=
  match prices.getLast? with
  | none => (own, none)
  | some price =>
    let (st, side) := ((own sym).getD .new).step price
    (Function.update own sym (some st), side)

/-- `RSIStrategy`, `BollingerStrategy`, `BreakoutStrategy` and `MACDStrategy`. -/
def strategy (rules : Rules) (orderFraction : ℚ) : (i : Indicator) → DisciplinedStrategy (i.Own F)
  | rsi => ⟨rules, 15, orderFraction, fun _ _ prices => .ok ((), rsiSignal F prices)⟩
  | bollinger => ⟨rules, 20, orderFraction, fun _ _ prices => .ok ((), bollingerSignal F prices)⟩
  | breakout => ⟨rules, 21, orderFraction, fun _ _ prices => .ok ((), breakoutSignal F prices)⟩
  | macd => ⟨rules, 2, orderFraction, fun own sym prices => .ok (macdStep F own sym prices)⟩

variable {F} {rules : Rules} {orderFraction : ℚ}

/-- The states of the MACD are those of all prices of their symbols. -/
def MacdOwns (own : String → Option (MacdState F)) (prices : String → List ℚ) : Prop :=
  ∀ sym, (own sym).getD .new = .after (floats (prices sym))

theorem MacdOwns.step {own : String → Option (MacdState F)} {prices : String → List ℚ}
    (h : MacdOwns own prices) (sym : String) (price : ℚ) : ∃ own',
      macdStep F own sym (last 2 (prices sym ++ [price])) =
          (own', macdSignal F (prices sym ++ [price])) ∧
        MacdOwns own' (Function.update prices sym (prices sym ++ [price])) := by
  refine ⟨Function.update own sym (some (.after (floats (prices sym ++ [price])))), ?_, ?_⟩
  · rw [macdStep, getLast?_last (by decide), List.getLast?_concat]
    simp only [h sym, MacdState.step_after]
  · intro s
    by_cases hs : s = sym
    · subst hs
      simp
    · simpa [hs] using h s

def Owns : (i : Indicator) → i.Own F → (String → List ℚ) → Prop
  | rsi | bollinger | breakout => fun _ _ => True
  | macd => MacdOwns

theorem computes (i : Indicator) :
    (i.strategy F rules orderFraction).Computes (i.fresh F) (i.advice F) i.Owns := by
  cases i with
  | rsi =>
    refine ⟨trivial, fun sym price _ => ⟨(), ?_, trivial⟩⟩
    change Except.ok ((), rsiSignal F (last (14 + 1) _)) = _
    rw [rsiSignal, rsi_last]
    rfl
  | bollinger =>
    refine ⟨trivial, fun sym price _ => ⟨(), ?_, trivial⟩⟩
    change Except.ok ((), bollingerSignal F (last 20 _)) = _
    rw [bollingerSignal, bollinger_last, getLast?_last (by decide)]
    rfl
  | breakout =>
    refine ⟨trivial, fun sym price _ => ⟨(), ?_, trivial⟩⟩
    change Except.ok ((), breakoutSignal F (last (20 + 1) _)) = _
    rw [breakoutSignal, donchian_last, getLast?_last (by decide)]
    rfl
  | macd =>
    refine ⟨fun _ => rfl, fun sym price h => ?_⟩
    obtain ⟨own', hstep, hown⟩ := MacdOwns.step h sym price
    exact ⟨own', congrArg Except.ok hstep, hown⟩

end Indicator

namespace DisciplinedStrategy

variable {X : Type} {d : DisciplinedStrategy X} {own₀ : X} {st : State X}

theorem Reaches.of_journaled {cfg : ReplayConfig} {cash : ℚ} {ticks : List Tick} {r : Replay}
    {j : Journal} (h : Replay.journaled cfg (d.onTick cfg.context) (.init own₀) cash ticks =
      .ok ((st, r), j)) : d.Reaches cfg.context own₀ ticks st := by
  rw [← Replay.journaled_ticks h]
  refine Replay.journaled_induction
    (P := fun st _ j => d.Reaches cfg.context own₀ (j.map Prod.fst) st) .init ?_ h
  rintro st r j t st' r' j' - hreach htick
  obtain ⟨e, e', fills, -, -, hexec, -, rfl⟩ := Replay.tickFills_cases htick
  rw [List.map_append]
  have hexec' : (d.onTick cfg.context st t).exec cfg.engine e = .ok (st', e') := by
    rw [Script.exec_eq, hexec]
    rfl
  exact hreach.tick (.of_exec hexec')

end DisciplinedStrategy

/-- Whatever the broker shows and answers in a run of one of the indicator strategies, a buy of a
tick is what the indicator says of all prices of the symbol so far, a sale is what it says or a
liquidation. -/
theorem orders_justified {F : Type} [PyMath F] (i : Indicator) (c : Context) (rules : Rules)
    (orderFraction : ℚ) {ticks : List Tick} {t : Tick} {st : State (i.Own F)} {r : Request}
    (h : (i.strategy F rules orderFraction).Reaches c (i.fresh F) ticks st)
    (hr : ((i.strategy F rules orderFraction).onTick c st t).Submits r) :
    Justified (i.advice F) (ticks ++ [t]) t r :=
  h.justified i.computes hr

section Demo

/-- What a script asks a broker for that shows one view and refuses every order. -/
def Script.asks {S : Type} (v : BrokerView) : Script S → List Request
  | done _ | fail _ => []
  | read k => (k v).asks v
  | equity k => (k v.cash).asks v
  | buy symbol qty ts _ k => .buy symbol qty ts :: (k false).asks v
  | sell symbol qty reason ts _ k => .sell symbol qty reason ts :: (k false).asks v

theorem Script.submits_of_mem_asks {S : Type} {v : BrokerView} {script : Script S} {r : Request}
    (h : r ∈ script.asks v) : script.Submits r := by
  induction script with
  | done s => cases h
  | fail err => cases h
  | read k ih => exact .read v (ih v h)
  | equity k ih => exact .equity v.cash (ih _ h)
  | buy symbol qty ts price k ih =>
    rcases List.mem_cons.mp h with rfl | h
    · exact .buy
    · exact .afterBuy false (ih false h)
  | sell symbol qty reason ts price k ih =>
    rcases List.mem_cons.mp h with rfl | h
    · exact .sell
    · exact .afterSell false (ih false h)

local instance rationalMath : PyMath ℚ where
  toPyFloat := .rational
  pow x _ := x * x

def breakout : DisciplinedStrategy Unit := Indicator.breakout.strategy ℚ eager.rules (1 / 2)

/-- The price breaks out of a flat channel. -/
theorem orders_justified_demo : ∃ st,
    breakout.Reaches minutely.context () (demoTicks (List.replicate 20 100)) st ∧
      Justified (breakoutSignal ℚ) (demoTicks (List.replicate 20 100) ++ [⟨"KRW-A", 110, 1200⟩])
        ⟨"KRW-A", 110, 1200⟩ (.buy "KRW-A" (90909090909 / 20000000) 1200) := by
  have hasks : (fun x => (breakout.onTick minutely.context x.1.1 ⟨"KRW-A", 110, 1200⟩).asks
      x.1.2.view) <$> Replay.journaled minutely (breakout.onTick minutely.context) (.init ())
        1000000 (demoTicks (List.replicate 20 100)) =
          .ok [.buy "KRW-A" (90909090909 / 20000000) 1200] := by
    decide +kernel
  obtain ⟨⟨⟨st, r⟩, j⟩, hrun, hasks⟩ := Transition.map_ok_iff.mp hasks
  have hreach := DisciplinedStrategy.Reaches.of_journaled hrun
  exact ⟨st, hreach, orders_justified (F := ℚ) .breakout minutely.context eager.rules (1 / 2) hreach
    (Script.submits_of_mem_asks (hasks ▸ List.mem_cons_self))⟩

end Demo

end QuantTrader.Backtest
