import QuantTrader.Strategy.TrendSignal

/-! # The live ensemble

The state machine of the signal worker: `prime` feeds a daily history to every
load, `onTick` closes a UTC day when a tick of a later day arrives. `fed` is the
history of the closes fed for each symbol; no function reads it.
-/

namespace QuantTrader.Strategy

/-- A parsed ISO time: microseconds of its own clock, and the offset if it has one. -/
structure Timestamp where
  wall : ℤ
  offset : Option ℤ
  deriving DecidableEq

namespace Timestamp

/-- Microseconds since the epoch; a naive time counts as UTC. -/
def instant (t : Timestamp) : ℤ := t.wall - t.offset.getD 0

/-- `utc_day`, as a number of days since the epoch. -/
def utcDay (t : Timestamp) : ℤ := t.instant / 86400000000

theorem utcDay_mono {s t : Timestamp} (h : s.instant ≤ t.instant) : s.utcDay ≤ t.utcDay :=
  Int.ediv_le_ediv (by decide) h

end Timestamp

structure Tick where
  symbol : String
  price : ℚ
  ts : Timestamp
  deriving DecidableEq

/-- A daily bar: its UTC day and its close. -/
abbrev Bar := ℤ × ℚ

def Tick.bar (t : Tick) : Bar := (t.ts.utcDay, t.price)

/-- A named signal with its state. -/
structure Load (F : Type) where
  name : String
  signal : TrendSignal F
  books : String → Memory F

/-- `LiveEnsemble`; the symbols are a set, `current` is `cur_day` with its `day_close`. -/
structure LiveEnsemble (F : Type) where
  symbols : List String
  nodup : symbols.Nodup
  loads : List (Load F)
  current : String → Option Bar
  fed : String → List ℚ

/-- The targets of the loads, by name. -/
abbrev Targets := List (String × ℚ)

namespace LiveEnsemble

variable {F : Type} [PyFloat F]

/-- The constructor: fresh signals, no day. -/
def init (symbols : List String) (nodup : symbols.Nodup) (specs : List (String × TrendSignal F)) :
    LiveEnsemble F where
  symbols := symbols
  nodup := nodup
  loads := specs.map fun spec => ⟨spec.1, spec.2, TrendSignal.fresh⟩
  current _ := none
  fed _ := []

/-- `_targets`: feed one close to every load. -/
def targets (le : LiveEnsemble F) (symbol : String) (close : ℚ) : LiveEnsemble F × Targets :=
  ({ le with
      loads := le.loads.map fun l => { l with books := (l.signal.update l.books symbol close).1 }
      fed := Function.update le.fed symbol (le.fed symbol ++ [close]) },
    le.loads.map fun l => (l.name, (l.signal.update l.books symbol close).2))

/-- Feed a history of one symbol; the targets of its last bar. -/
def warm (symbol : String) (le : LiveEnsemble F) (bars : List Bar) :
    LiveEnsemble F × Option Targets :=
  bars.foldl (fun acc bar => ((acc.1.targets symbol bar.2).1, some (acc.1.targets symbol bar.2).2))
    (le, none)

/-- The current day of a symbol and the price that will close it. -/
def setDay (le : LiveEnsemble F) (symbol : String) (bar : Bar) : LiveEnsemble F :=
  { le with current := Function.update le.current symbol (some bar) }

/-- `prime` for one symbol. -/
def primeSymbol (le : LiveEnsemble F) (symbol : String) (bars : List Bar) :
    LiveEnsemble F × Option (String × ℤ × Targets) :=
  match le.warm symbol bars, bars.getLast? with
  | (le, some targets), some bar => (le.setDay symbol bar, some (symbol, bar.1, targets))
  | (le, _), _ => (le, none)

/-- `prime`, over the symbols in some order; a symbol without a history has an empty one. -/
def primeAll (history : String → List Bar) (le : LiveEnsemble F) (symbols : List String) :
    LiveEnsemble F × List (String × ℤ × Targets) :=
  symbols.foldl (fun acc symbol =>
    let (le, out) := acc.1.primeSymbol symbol (history symbol)
    (le, acc.2 ++ out.toList)) (le, [])

def prime (le : LiveEnsemble F) (history : String → List Bar) :
    LiveEnsemble F × List (String × ℤ × Targets) :=
  le.primeAll history le.symbols

/-- `on_tick`: a tick of a later day closes the current one. -/
def onTick (le : LiveEnsemble F) (t : Tick) : LiveEnsemble F × Option (String × ℤ × Targets) :=
  if t.symbol ∉ le.symbols then (le, none)
  else
    match le.current t.symbol with
    | none => (le.setDay t.symbol t.bar, none)
    | some cur =>
      if t.bar.1 ≤ cur.1 then
        (if t.bar.1 = cur.1 then le.setDay t.symbol t.bar else le, none)
      else
        let (le, targets) := le.targets t.symbol cur.2
        (le.setDay t.symbol t.bar, some (t.symbol, cur.1, targets))

/-- The ticks after the history. -/
def live (le : LiveEnsemble F) (ticks : List Tick) : LiveEnsemble F :=
  ticks.foldl (fun le t => (le.onTick t).1) le

@[simp] theorem live_snoc (le : LiveEnsemble F) (ticks : List Tick) (t : Tick) :
    le.live (ticks ++ [t]) = ((le.live ticks).onTick t).1 := by
  simp [live, List.foldl_append]

end LiveEnsemble

end QuantTrader.Strategy
