import Mathlib.Data.Rat.Floor
import Mathlib.Logic.Function.Basic
import QuantTrader.Decimal.Rounding

/-! # Trend signals

A price series becomes a target weight: two moving averages with a latch, sized
by realised volatility. The signals compute in floats, whose operations are a
parameter; closes are finite decimals.
-/

namespace QuantTrader.Strategy

/-- The float operations the indicators use, and the conversions from and to decimals. -/
class PyFloat (F : Type) extends Add F, Sub F, Mul F, Div F where
  ofNat : ℕ → F
  ofDecimal : ℚ → F
  toDecimal : F → ℚ
  log : F → F
  sqrt : F → F
  sum : List F → F
  lt : F → F → Bool
  le : F → F → Bool

/-- An ordered field as floats, with any logarithm and square root. -/
@[reducible] def PyFloat.ofField {K : Type} [Field K] [LinearOrder K] (toDecimal : K → ℚ)
    (log sqrt : K → K) : PyFloat K where
  ofNat := Nat.cast
  ofDecimal := Rat.cast
  toDecimal := toDecimal
  log := log
  sqrt := sqrt
  sum := List.sum
  lt x y := decide (x < y)
  le x y := decide (x ≤ y)

/-- Exact numbers; the logarithm of a return is its excess over one. -/
@[reducible] def PyFloat.rational : PyFloat ℚ := .ofField id (fun x => x - 1) id

section Indicators

variable {F : Type} [PyFloat F]

open PyFloat

/-- `_sma`: the mean of the last `n` closes. -/
def sma (closes : List F) (n : ℕ) : F := sum (closes.drop (closes.length - n)) / ofNat n

def logReturns : List F → List F
  | a :: b :: closes => log (b / a) :: logReturns (b :: closes)
  | _ => []

/-- `_ann_vol`: the annualised deviation of the last `lookback` returns. -/
def annVol (closes : List F) (lookback barsPerYear : ℕ) : Option F :=
  if closes.length < lookback + 1 then none
  else
    let rets := logReturns (closes.drop (closes.length - (lookback + 1)))
    let mean := sum rets / ofNat rets.length
    let var := sum (rets.map fun r => (r - mean) * (r - mean)) / ofNat rets.length
    some (sqrt var * sqrt (ofNat barsPerYear))

/-- `target_weight`; the quotient has the 28 digits of the decimal context. -/
def targetWeight (annVol : Option F) (volTarget : F) (maxWeight : ℚ) : ℚ :=
  match annVol with
  | none => maxWeight
  | some v =>
    if le v (ofNat 0) then maxWeight
    else min maxWeight (Nearest.halfEven.toDigits 28 (toDecimal volTarget / toDecimal v))

end Indicators

/-- The parameters of a `TrendSignal`, whose constructor refuses `short >= long`. -/
structure TrendSignal (F : Type) where
  short : ℕ
  long : ℕ
  entryBand : F
  volTarget : F
  volLookback : ℕ
  maxWeight : ℚ
  regimeMaxVol : F
  barsPerYear : ℕ
  short_lt : short < long

/-- An entry of `last`. -/
structure Diagnosis (F : Type) where
  smaS : Option F
  smaL : Option F
  annVol : Option F
  long : Bool
  target : ℚ

/-- What a signal keeps for one symbol: the price buffer, the latch, the last diagnosis. -/
structure Memory (F : Type) where
  prices : List F
  longState : Bool
  last : Option (Diagnosis F)

namespace TrendSignal

variable {F : Type} [PyFloat F] (s : TrendSignal F)

open PyFloat

def warmupBars : ℕ := max (max s.short s.long) (s.volLookback + 1)

/-- `deque.append` with `maxlen`. -/
def push (maxlen : ℕ) (xs : List F) (x : F) : List F := (xs ++ [x]).drop (xs.length + 1 - maxlen)

/-- The latch after the averages and the volatility of a bar. -/
def latch (long : Bool) (smaS smaL : F) (annVol : Option F) : Bool :=
  let extreme := annVol.any fun v => lt s.regimeMaxVol v
  let trendUp := lt (smaL * (ofNat 1 + s.entryBand)) smaS
  let trendDown := lt smaS (smaL * (ofNat 1 - s.entryBand))
  if long && (extreme || trendDown) then false
  else if !long && trendUp && !extreme then true
  else long

/-- `update` on the memory of the symbol. -/
def observe (m : Memory F) (price : ℚ) : Memory F × ℚ :=
  let prices := push (s.warmupBars + 1) m.prices (ofDecimal price)
  if prices.length < s.warmupBars then
    (⟨prices, m.longState, some ⟨none, none, none, false, 0⟩⟩, 0)
  else
    let smaS := sma prices s.short
    let smaL := sma prices s.long
    let vol := annVol prices s.volLookback s.barsPerYear
    let long := s.latch m.longState smaS smaL vol
    let target := if long then targetWeight vol s.volTarget s.maxWeight else 0
    (⟨prices, long, some ⟨some smaS, some smaL, vol, long, target⟩⟩, target)

def fresh : String → Memory F := fun _ => ⟨[], false, none⟩

/-- `update`: the state of one symbol moves, and the target weight is returned. -/
def update (books : String → Memory F) (symbol : String) (price : ℚ) :
    (String → Memory F) × ℚ :=
  let (m, target) := s.observe (books symbol) price
  (Function.update books symbol m, target)

/-- The state and the last target after feeding closes of one symbol. -/
def replay (symbol : String) (closes : List ℚ) : (String → Memory F) × ℚ :=
  closes.foldl (fun acc close => s.update acc.1 symbol close) (fresh, 0)

@[simp] theorem replay_snoc (symbol : String) (closes : List ℚ) (close : ℚ) :
    s.replay symbol (closes ++ [close]) = s.update (s.replay symbol closes).1 symbol close := by
  simp [replay, List.foldl_append]

theorem update_congr {books books' : String → Memory F} {symbol : String} (price : ℚ)
    (h : books symbol = books' symbol) :
    (s.update books symbol price).1 symbol = (s.update books' symbol price).1 symbol ∧
      (s.update books symbol price).2 = (s.update books' symbol price).2 := by
  simp [update, h]

theorem update_of_ne {books : String → Memory F} {symbol other : String} (price : ℚ)
    (h : other ≠ symbol) : (s.update books symbol price).1 other = books other := by
  simp [update, h]

end TrendSignal

end QuantTrader.Strategy
