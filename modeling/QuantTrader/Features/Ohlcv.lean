import Mathlib.Data.String.Basic
import Mathlib.Data.Rat.Defs
import QuantTrader.Frames.Groups

/-! # Features of daily candles

`_per_symbol` computes its columns from the candles of one symbol in the order of
their dates, `compute_features` does so for every symbol of a panel. The columns are
causal operations, so the features up to a date are those of the candles up to it.
-/

namespace QuantTrader.Features

open Series

/-- Floats with NaN and infinities, and the statistics of the finite numbers of a window. -/
class Floats (F : Type) extends Add F, Sub F, Mul F, Div F, Neg F where
  ofRat : ℚ → F
  /-- The value of a finite number. -/
  toRat : F → ℚ
  nan : F
  isNan : F → Bool
  isFinite : F → Bool
  lt : F → F → Bool
  abs : F → F
  log : F → F
  exp : F → F
  sqrt : F → F
  sum : List F → F
  mean : List F → F
  var : List F → F
  std : List F → F
  min : List F → F
  max : List F → F
  skew : List F → F
  kurt : List F → F
  cov : List (F × F) → F
  corr : List (F × F) → F
  isFinite_nan : isFinite nan = false
  nan_div : ∀ x : F, nan / x = nan

open Floats

/-- A row of the panel, with the date in days. -/
structure Candle (F : Type) where
  symbol : String
  date : ℤ
  openPrice : F
  high : F
  low : F
  close : F
  volume : F

section Columns

variable {F : Type} [Floats F] {α : Type}

instance : Add (Causal α F) := ⟨Causal.zipWith (· + ·)⟩
instance : Sub (Causal α F) := ⟨Causal.zipWith (· - ·)⟩
instance : Mul (Causal α F) := ⟨Causal.zipWith (· * ·)⟩
instance : Div (Causal α F) := ⟨Causal.zipWith (· / ·)⟩
instance : Neg (Causal α F) := ⟨Causal.comp (Causal.map (-·))⟩

/-- The same number in every row. -/
def lit (x : ℚ) : Causal α F := .map fun _ => ofRat x

def EPS : Causal α F := lit (1 / 10 ^ 12)

/-- An operation on the numbers of a column. -/
def cells (f : F → F) (x : Causal α F) : Causal α F := (Causal.map f).comp x

/-- `np.maximum`: NaN if one of the two is. -/
def maximum (x y : F) : F := if isNan x then x else if isNan y then y else if lt x y then y else x

/-- `np.minimum`. -/
def minimum (x y : F) : F := if isNan x then x else if isNan y then y else if lt y x then y else x

/-- `np.sign`. -/
def sign (x : F) : F :=
  if isNan x then x else if lt x (ofRat 0) then ofRat (-1) else if lt (ofRat 0) x then ofRat 1
  else ofRat 0

/-- `clip(lower=0)`. -/
def clipLower (x : F) : F := if lt x (ofRat 0) then ofRat 0 else x

/-- `clip(upper=0)`. -/
def clipUpper (x : F) : F := if lt (ofRat 0) x then ofRat 0 else x

/-- `x > 0` as a number. -/
def positive (x : F) : F := if lt (ofRat 0) x then ofRat 1 else ofRat 0

/-- `x < 0` as a number. -/
def negative (x : F) : F := if lt x (ofRat 0) then ofRat 1 else ofRat 0

/-- `x ** 2`. -/
def square (x : F) : F := x * x

/-- `shift(k)`. -/
def shift (k : ℕ) (x : Causal α F) : Causal α F := x.shift k nan

/-- `diff()`. -/
def diff (x : Causal α F) : Causal α F := x - shift 1 x

/-- `rolling(w, min_periods)` and a statistic of the finite numbers of the window. -/
def rolling (w minPeriods : ℕ) (stat : List F → F) (x : Causal α F) : Causal α F :=
  x.rolling w fun win =>
    let vals := win.filter isFinite
    if vals.length < minPeriods then nan else stat vals

/-- `rolling(w, min_periods)` and a statistic of the rows of the window in which both are finite. -/
def rollingPair (w minPeriods : ℕ) (stat : List (F × F) → F) (x y : Causal α F) : Causal α F :=
  (Causal.zipWith Prod.mk x y).rolling w fun win =>
    let vals := win.filter fun v => isFinite v.1 && isFinite v.2
    if vals.length < minPeriods then nan else stat vals

/-- What `ewm` keeps. -/
structure Ewm (F : Type) where
  weighted : F
  oldWt : F
  nobs : ℕ

/-- One row of `ewm`: a missing value ages the weights and is not counted. -/
def Ewm.step (alpha : F) (s : Ewm F) (cur : F) : Ewm F :=
  if !isFinite cur then
    if isNan s.weighted then s else { s with oldWt := s.oldWt * (ofRat 1 - alpha) }
  else if isNan s.weighted then { s with weighted := cur, nobs := s.nobs + 1 }
  else
    let oldWt := s.oldWt * (ofRat 1 - alpha)
    let weighted :=
      if lt s.weighted cur || lt cur s.weighted then
        (oldWt * s.weighted + cur) / (oldWt + ofRat 1)
      else s.weighted
    ⟨weighted, oldWt + ofRat 1, s.nobs + 1⟩

/-- `ewm(alpha, min_periods).mean()`. -/
def ewm (alpha : ℚ) (minPeriods : ℕ) (x : Causal α F) : Causal α F :=
  (Causal.onPrefix fun l =>
    let s := l.foldl (Ewm.step (ofRat alpha)) ⟨nan, ofRat 1, 0⟩
    if s.nobs < minPeriods then nan else s.weighted).comp x

/-- The smoothing factor of a span. -/
def spanAlpha (span : ℕ) : ℚ := 2 / (span + 1)

/-! ## The candles -/

def o : Causal (Candle F) F := .map Candle.openPrice
def h : Causal (Candle F) F := .map Candle.high
def l : Causal (Candle F) F := .map Candle.low
def c : Causal (Candle F) F := .map Candle.close
def v : Causal (Candle F) F := .map Candle.volume

/-- The return over `k` rows. -/
def ratio (x y : Causal (Candle F) F) : Causal (Candle F) F := x / y - lit 1

def ret : Causal (Candle F) F := ratio c (shift 1 c)

def dv : Causal (Candle F) F := c * v

/-- `_rsi`. -/
def rsi (n : ℕ) (close : Causal (Candle F) F) : Causal (Candle F) F :=
  let d := diff close
  let up := rolling n (n / 2) mean (cells clipLower d)
  let dn := rolling n (n / 2) mean (-cells clipUpper d)
  let rs := up / (dn + EPS)
  (lit 100 - lit 100 / (lit 1 + rs) - lit 50) / lit 50

/-- `_corwin_schultz`. -/
def corwinSchultz (high low : Causal (Candle F) F) (win : ℕ) : Causal (Candle F) F :=
  let lh := cells square (cells log (high / low))
  let beta := lh + shift 1 lh
  let hi2 := Causal.zipWith maximum high (shift 1 high)
  let lo2 := Causal.zipWith minimum low (shift 1 low)
  let gamma := cells square (cells log (hi2 / lo2))
  let k := lit 3 - lit 2 * cells sqrt (lit 2)
  let alpha := (cells sqrt (lit 2 * beta) - cells sqrt beta) / k - cells sqrt (gamma / k)
  let s := lit 2 * (cells exp alpha - lit 1) / (lit 1 + cells exp alpha)
  rolling win (win / 2) mean (cells clipLower s)

/-- `_yang_zhang`. -/
def yangZhang (o h l c : Causal (Candle F) F) (n : ℕ) : Causal (Candle F) F :=
  let cc := shift 1 c
  let overnight := cells log (o / cc)
  let u := cells log (h / o)
  let d := cells log (l / o)
  let cl := cells log (c / o)
  let rs := u * (u - cl) + d * (d - cl)
  let vo := rolling n (n / 2) var overnight
  let vc := rolling n (n / 2) var cl
  let vrs := rolling n (n / 2) mean rs
  let k := lit (34 / 100) / (lit (134 / 100) + lit ((n + 1) / (n - 1)))
  cells sqrt (cells clipLower (vo + k * vc + (lit 1 - k) * vrs))

/-- The largest of the numbers among three. -/
def nanMax (x y z : F) : F :=
  let vals := [x, y, z].filter fun v => !isNan v
  if vals.isEmpty then nan else max vals

def trueRange : Causal (Candle F) F :=
  Causal.zipWith (fun xy z => nanMax xy.1 xy.2 z)
    (Causal.zipWith Prod.mk (h - l) (cells Floats.abs (h - shift 1 c)))
    (cells Floats.abs (l - shift 1 c))

def mom12m : Causal (Candle F) F := ratio (shift 21 c) (shift 252 c)

def rv21 : Causal (Candle F) F := rolling 21 10 std ret

def momentum : List (String × Causal (Candle F) F) :=
  let hmax := rolling 252 120 max h
  let lmin := rolling 252 120 min l
  let pret := ratio (shift 1 c) (shift 63 c)
  let posFrac := shift 1 (rolling 63 30 mean (cells positive ret))
  [("mom1m_rev", -ratio c (shift 21 c)),
    ("mom6m", ratio (shift 21 c) (shift 126 c)),
    ("mom12m", mom12m),
    ("mom36m_rev", -ratio (shift 273 c) (shift 756 c)),
    ("chmom", ratio (shift 21 c) (shift 126 c) - ratio (shift 126 c) (shift 252 c)),
    ("rev_1w", -ratio c (shift 5 c)),
    ("high52", c / hmax),
    ("pos252", (c - lmin) / (hmax - lmin + EPS)),
    ("overnight21", rolling 21 10 mean (cells log (o / shift 1 c))),
    ("intraday21", rolling 21 10 mean (cells log (c / o))),
    ("fip", cells sign pret * ((lit 1 - posFrac) - posFrac))]

def volatility : List (String × Causal (Candle F) F) :=
  let hl := cells square (cells log (h / l))
  let yz20 := yangZhang o h l c 20
  let yz60 := yangZhang o h l c 60
  let r2 := cells square ret
  let semiUp := rolling 21 10 sum (r2 * cells positive ret)
  let semiDn := rolling 21 10 sum (r2 * cells negative ret)
  [("retvol21", rv21),
    ("retvol63", rolling 63 30 std ret),
    ("parkinson21", rolling 21 10 mean (lit (361 / 1000) * hl)),
    ("garman_klass21", rolling 21 10 mean
      (lit (1 / 2) * hl - lit (386 / 1000) * cells square (cells log (c / o)))),
    ("yang_zhang20", yz20),
    ("vol_termstruct", yz20 / (yz60 + EPS)),
    ("atr14", ewm (1 / 14) 7 trueRange / c),
    ("volofvol", rolling 63 30 std rv21),
    ("skew21", rolling 21 10 skew ret),
    ("kurt21", rolling 21 10 kurt ret),
    ("signed_jump", (semiUp - semiDn) / (semiUp + semiDn + EPS)),
    ("maxret", rolling 21 10 max ret),
    ("mom_volscaled", mom12m / (rv21 * cells sqrt (lit 252) + EPS))]

def liquidity : List (String × Causal (Candle F) F) :=
  let dp := diff c
  let cov := rollingPair 21 10 cov dp (shift 1 dp)
  [("amihud21", rolling 21 10 mean (cells Floats.abs ret / (dv + EPS))),
    ("dolvol21", cells log (rolling 21 10 mean dv + lit 1)),
    ("std_dolvol", rolling 21 10 std (cells log (dv + lit 1))),
    ("vol_zscore", (v - rolling 21 10 mean v) / (rolling 21 10 std v + EPS)),
    ("corwin_schultz", corwinSchultz h l 21),
    ("roll_spread", lit 2 * cells sqrt (cells clipLower (-cov)) / c),
    ("signed_dolvol", rolling 21 10 sum (cells sign ret * dv) / (rolling 21 10 sum dv + EPS))]

/-- The columns of one candle. -/
def kbar : List (String × Causal (Candle F) F) :=
  [("kmid", (c - o) / (o + EPS)),
    ("klen", (h - l) / (o + EPS)),
    ("kmid2", (c - o) / (h - l + EPS)),
    ("kup", (h - Causal.zipWith maximum o c) / (o + EPS)),
    ("klow", (Causal.zipWith minimum o c - l) / (o + EPS)),
    ("ksft", (lit 2 * c - h - l) / (o + EPS))]

/-- The name of a column with its window. -/
def column (before : String) (w : ℕ) (after : String) : String := before ++ toString w ++ after

/-- The columns of a window. -/
def windowed (w : ℕ) : List (String × Causal (Candle F) F) :=
  let rmin := rolling w (w / 2) min l
  let rmax := rolling w (w / 2) max h
  let dc := diff c
  let wv := cells Floats.abs ret * v
  [(column "ma" w "_ratio", rolling w (w / 2) mean c / c),
    (column "std" w "", rolling w (w / 2) std c / c),
    (column "rsv" w "", (c - rmin) / (rmax - rmin + EPS)),
    (column "corr" w "", rollingPair w (w / 2) corr c (cells log (v + lit 1))),
    (column "sump" w "", rolling w (w / 2) sum (cells clipLower dc) /
      (rolling w (w / 2) sum (cells Floats.abs dc) + EPS)),
    (column "wvma" w "", rolling w (w / 2) std wv / (rolling w (w / 2) mean wv + EPS))]

/-- The columns of the technical indicators. -/
def technical : List (String × Causal (Candle F) F) :=
  let macd := ewm (spanAlpha 12) 6 c - ewm (spanAlpha 26) 13 c
  let ma20 := rolling 20 10 mean c
  let sd20 := rolling 20 10 std c
  [("rsi14", rsi 14 c),
    ("macd_hist", (macd - ewm (spanAlpha 9) 5 macd) / c),
    ("bb_pctb", (c - (ma20 - lit 2 * sd20)) / (lit 4 * sd20 + EPS))]

def columns : List (String × Causal (Candle F) F) :=
  momentum ++ volatility ++ liquidity ++ kbar ++ [10, 20, 60].flatMap windowed ++ technical

structure FeatureRow (F : Type) where
  symbol : String
  date : ℤ
  values : List (String × F)

/-- A column beside the rows it was computed from. -/
def beside {β δ : Type} (f : Candle F → β → δ) (x : Causal (Candle F) β) : Causal (Candle F) δ :=
  .zipWith f (.map id) x

/-- `_per_symbol`, on candles in the order of their dates. -/
def perSymbol : Causal (Candle F) (FeatureRow F) :=
  beside (fun r values => ⟨r.symbol, r.date, values⟩) (.table columns)

example : (columns (F := F)).length = 58 := rfl

end Columns

/-! ## The panel -/

/-- The panel of `load_ohlcv`: a market has one row for a symbol and a date. -/
structure Panel (F : Type) where
  rows : List (Candle F)
  keyed : Frames.Keyed Candle.symbol Candle.date rows

section Panels

variable {F : Type} {S : Frames.Sorting} {p : Panel F} {d : ℤ}

/-- The panel as it was at the end of a date. -/
def Panel.upTo (p : Panel F) (d : ℤ) : Panel F where
  rows := p.rows.filter fun r => r.date ≤ d
  keyed := p.keyed.filter _

/-- `groupby("symbol").apply`. -/
def Panel.applyGroups (S : Frames.Sorting) (p : Panel F) {β : Type}
    (f : List (Candle F) → List β) : List β :=
  Frames.applyGroups S Candle.symbol Candle.date p.rows f

/-- `compute_features`. -/
def computeFeatures [Floats F] (S : Frames.Sorting) (p : Panel F) : List (FeatureRow F) :=
  p.applyGroups S perSymbol.run

theorem map_beside {β δ ε : Type} {f : Candle F → β → δ} {x : Causal (Candle F) β} {g : δ → ε}
    {k : Candle F → ε} (hk : ∀ r b, g (f r b) = k r) (l : List (Candle F)) :
    ((beside f x).run l).map g = l.map k := by
  rw [beside, Causal.map_run_zipWith _ _ hk]
  exact congrArg (List.map k) (List.map_id l)

theorem applyGroups_upTo {β δ : Type} {f : Candle F → β → δ} (x : Causal (Candle F) β)
    {date : δ → ℤ} (hdate : ∀ r b, date (f r b) = r.date) :
    (p.upTo d).applyGroups S (beside f x).run =
      (p.applyGroups S (beside f x).run).filter fun r => date r ≤ d :=
  Frames.applyGroups_upTo p.keyed _ date (map_beside hdate)

/-- The features of a date are computed from the candles up to it: those of the panel as it was at
the end of a date are the features up to that date. -/
theorem computeFeatures_upTo [Floats F] (S : Frames.Sorting) (p : Panel F) (d : ℤ) :
    computeFeatures S (p.upTo d) = (computeFeatures S p).filter fun r => r.date ≤ d :=
  applyGroups_upTo (.table columns) fun _ _ => rfl

end Panels

end QuantTrader.Features
