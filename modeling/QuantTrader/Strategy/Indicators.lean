import QuantTrader.Strategy.TrendSignal
import QuantTrader.Ledger.Tables

/-! # Indicators

The pure indicators read the last prices of a series only. An exponential average is
kept as a state instead; the MACD that is updated with every price is the one of the
whole series.
-/

namespace QuantTrader.Strategy

open PyFloat
open Ledger (Side)

/-- Floats with `**`. -/
class PyMath (F : Type) extends PyFloat F where
  pow : F → F → F

/-- `xs[-n:]` for a positive `n`. -/
def last {α : Type*} (n : ℕ) (xs : List α) : List α := xs.drop (xs.length - n)

section Definitions

variable {F : Type} [PyMath F]

/-- `x == y`. -/
def eq (x y : F) : Bool := le x y && le y x

/-- `_floats`. -/
def floats (prices : List ℚ) : List F := prices.map ofDecimal

/-- The loop body of `rsi`, on the gains and the losses. -/
def rsiStep (acc : F × F) (change : F) : F × F :=
  if le (ofNat 0) change then (acc.1 + change, acc.2) else (acc.1, acc.2 - change)

def rsi (prices : List ℚ) (period : ℕ) : Option F :=
  let p : List F := floats prices
  if p.length < period + 1 then none
  else
    let window := last (period + 1) p
    let changes := List.zipWith (· - ·) window.tail window
    let (gains, losses) := changes.foldl rsiStep (ofNat 0, ofNat 0)
    let avgGain := gains / ofNat period
    let avgLoss := losses / ofNat period
    if eq avgLoss (ofNat 0) then some (if lt (ofNat 0) avgGain then ofNat 100 else ofNat 50)
    else some (ofNat 100 - ofNat 100 / (ofNat 1 + avgGain / avgLoss))

/-- The lower band, the mean and the upper band. -/
def bollinger (prices : List ℚ) (window : ℕ) (k : F) : Option (F × F × F) :=
  let p : List F := floats prices
  if p.length < window then none
  else
    let w := last window p
    let mid := sum w / ofNat window
    let var := sum (w.map fun x => PyMath.pow (x - mid) (ofNat 2)) / ofNat window
    let sd := PyMath.pow var (ofDecimal (1 / 2))
    some (mid - k * sd, mid, mid + k * sd)

/-- `min` of floats, which raises on none. -/
def pyMin : List F → Option F
  | [] => none
  | x :: xs => some (xs.foldl (fun m y => if lt y m then y else m) x)

/-- `max` of floats. -/
def pyMax : List F → Option F
  | [] => none
  | x :: xs => some (xs.foldl (fun m y => if lt m y then y else m) x)

/-- The lowest and the highest of the prices before the last one. -/
def donchian (prices : List ℚ) (lookback : ℕ) : Option (F × F) :=
  let p : List F := floats prices
  if p.length < lookback + 1 then none
  else
    let prior := (last (lookback + 1) p).dropLast
    (pyMin prior).bind fun low => (pyMax prior).map fun high => (low, high)

/-! ## Exponential averages -/

/-- `Ema`. -/
structure Ema (F : Type) where
  k : F
  value : Option F

namespace Ema

def new (span : ℕ) : Ema F := ⟨ofNat 2 / (ofNat span + ofNat 1), none⟩

/-- The value after a price. -/
def next (k : F) (value : Option F) (x : F) : F :=
  match value with
  | none => x
  | some v => x * k + v * (ofNat 1 - k)

def update (e : Ema F) (x : F) : Ema F × F := (⟨e.k, some (next e.k e.value x)⟩, next e.k e.value x)

end Ema

/-! ## Signals -/

section Signals

variable (F)

/-- `_signal` of `RSIStrategy`. -/
def rsiSignal (prices : List ℚ) : Option Side :=
  (rsi prices 14).bind fun r : F =>
    if le r (ofNat 30) then some .buy else if le (ofNat 70) r then some .sell else none

/-- `_signal` of `BollingerStrategy`. -/
def bollingerSignal (prices : List ℚ) : Option Side :=
  (bollinger prices 20 (ofNat 2)).bind fun (lower, _, upper) =>
    if le upper lower then none
    else
      prices.getLast?.bind fun price =>
        if le (ofDecimal price : F) lower then some .buy
        else if le upper (ofDecimal price) then some .sell else none

/-- `_signal` of `BreakoutStrategy`. -/
def breakoutSignal (prices : List ℚ) : Option Side :=
  (donchian prices 20).bind fun (low, high) =>
    prices.getLast?.bind fun price =>
      if lt high (ofDecimal price : F) then some .buy
      else if lt (ofDecimal price) low then some .sell else none

end Signals

/-- An upward or a downward crossing of zero. -/
def crossing (prev hist : F) : Option Side :=
  if le prev (ofNat 0) && lt (ofNat 0) hist then some .buy
  else if le (ofNat 0) prev && lt hist (ofNat 0) then some .sell else none

/-- What `MACDStrategy` keeps for a symbol. -/
structure MacdState (F : Type) where
  fast : Ema F
  slow : Ema F
  sig : Ema F
  prev : Option F
  n : ℕ

def MacdState.new : MacdState F := ⟨.new 12, .new 26, .new 9, none, 0⟩

/-- `_signal` of `MACDStrategy` on the state of the symbol. -/
def MacdState.step (st : MacdState F) (price : ℚ) : MacdState F × Option Side :=
  let (fast, f) := st.fast.update (ofDecimal price)
  let (slow, s) := st.slow.update (ofDecimal price)
  let (sig, line) := st.sig.update (f - s)
  let hist := f - s - line
  (⟨fast, slow, sig, some hist, st.n + 1⟩,
    if st.n + 1 < 26 then none else st.prev.bind fun prev => crossing prev hist)

/-! ## The MACD of a series -/

/-- The exponential average of a series. -/
def ema (span : ℕ) (xs : List F) : Option F :=
  xs.foldl (fun value x => some (Ema.next (Ema.new span).k value x)) none

/-- The difference of the fast and the slow average. -/
def macd (xs : List F) : Option F := (ema 12 xs).bind fun f => (ema 26 xs).map fun s => f - s

/-- The differences at every price of a series. -/
def macdLine (xs : List F) : List F :=
  (List.range xs.length).filterMap fun i => macd (xs.take (i + 1))

/-- The difference to the average of the differences. -/
def histogram (xs : List F) : Option F :=
  (macd xs).bind fun m => (ema 9 (macdLine xs)).map fun s => m - s

variable (F) in
/-- The crossing of zero by the histograms of the last two prices, from the 26th price on. -/
def macdSignal (prices : List ℚ) : Option Side :=
  let xs : List F := floats prices
  if xs.length < 26 then none
  else (histogram xs.dropLast).bind fun prev => (histogram xs).bind fun hist => crossing prev hist

end Definitions

/-! ## Windows -/

section Windows

variable {α β : Type*} {n m : ℕ} {xs : List α}

theorem length_last : (last n xs).length = min n xs.length := by
  rw [last, List.length_drop]
  omega

theorem last_last (h : n ≤ m) : last n (last m xs) = last n xs := by
  rw [last, length_last, last, last, List.drop_drop]
  congr 1
  omega

theorem last_map (f : α → β) : last n (xs.map f) = (last n xs).map f := by
  rw [last, last, List.length_map, List.map_drop]

theorem getLast?_last (h : 0 < n) : (last n xs).getLast? = xs.getLast? := by
  rw [last, List.getLast?_drop]
  split_ifs with hlen
  · have hnil : xs = [] := List.eq_nil_of_length_eq_zero (by omega)
    rw [hnil]
    rfl
  · rfl

theorem length_last_lt : (last n xs).length < n ↔ xs.length < n := by
  rw [length_last]
  omega

theorem last_concat {x : α} : last n (last n xs ++ [x]) = last n (xs ++ [x]) := by
  rcases Nat.lt_or_ge xs.length n with h | h
  · rw [show last n xs = xs by rw [last, Nat.sub_eq_zero_of_le h.le, List.drop_zero]]
  · have hlen : (last n xs).length = n := by rw [length_last, min_eq_left h]
    have hdrop : last n xs ++ [x] = (xs ++ [x]).drop (xs.length - n) := by
      rw [List.drop_append_of_le_length (by omega), last]
    unfold last at hdrop hlen ⊢
    rw [hdrop, List.drop_drop, ← hdrop, List.length_append, hlen, List.length_append,
      List.length_singleton]
    congr 1
    omega

end Windows

section Signals

variable {F : Type} [PyMath F] {prices : List ℚ}

theorem floats_last {n : ℕ} : floats (F := F) (last n prices) = last n (floats prices) :=
  (last_map _).symm

theorem rsi_last {period : ℕ} :
    rsi (F := F) (last (period + 1) prices) period = rsi prices period := by
  simp only [rsi, floats_last, length_last_lt, last_last le_rfl]

theorem bollinger_last {window : ℕ} {k : F} :
    bollinger (last window prices) window k = bollinger prices window k := by
  simp only [bollinger, floats_last, length_last_lt, last_last le_rfl]

theorem donchian_last {lookback : ℕ} :
    donchian (F := F) (last (lookback + 1) prices) lookback = donchian prices lookback := by
  simp only [donchian, floats_last, length_last_lt, last_last le_rfl]

/-! ## The incremental MACD -/

variable {xs : List F} {x : F}

theorem ema_concat {span : ℕ} :
    ema span (xs ++ [x]) = some (Ema.next (Ema.new span).k (ema span xs) x) := by
  rw [ema, List.foldl_append]
  rfl

theorem macd_concat (xs : List F) (x : F) : macd (xs ++ [x]) = some
    (Ema.next (Ema.new 12).k (ema 12 xs) x - Ema.next (Ema.new 26).k (ema 26 xs) x) := by
  rw [macd, ema_concat, ema_concat]
  rfl

theorem macdLine_concat : macdLine (xs ++ [x]) = macdLine xs ++ (macd (xs ++ [x])).toList := by
  have htake : ∀ i ∈ List.range xs.length, (xs ++ [x]).take (i + 1) = xs.take (i + 1) := by
    intro i hi
    rw [List.mem_range] at hi
    exact List.take_append_of_le_length (by omega)
  rw [macdLine, macdLine, List.length_append, List.length_singleton, List.range_succ,
    List.filterMap_append, List.filterMap_congr fun i hi => by rw [htake i hi]]
  have hall : (xs ++ [x]).take (xs.length + 1) = xs ++ [x] := List.take_of_length_le (by simp)
  cases h : macd (xs ++ [x]) <;> simp [hall, h]

theorem histogram_concat {m : F} (hm : macd (xs ++ [x]) = some m) : histogram (xs ++ [x]) =
    some (m - Ema.next (Ema.new 9).k (ema 9 (macdLine xs)) m) := by
  rw [histogram, macdLine_concat, hm, Option.toList_some, ema_concat]
  rfl

/-- The state after a series. -/
def MacdState.after (xs : List F) : MacdState F where
  fast := ⟨(Ema.new 12).k, ema 12 xs⟩
  slow := ⟨(Ema.new 26).k, ema 26 xs⟩
  sig := ⟨(Ema.new 9).k, ema 9 (macdLine xs)⟩
  prev := histogram xs
  n := xs.length

theorem MacdState.step_after {price : ℚ} :
    (MacdState.after (floats (F := F) prices)).step price =
      (.after (floats (prices ++ [price])), macdSignal F (prices ++ [price])) := by
  have hfloats : floats (F := F) (prices ++ [price]) = floats prices ++ [ofDecimal price] := by
    simp [floats]
  have hlen : (floats (F := F) prices ++ [ofDecimal price]).length =
      (floats (F := F) prices).length + 1 := by simp
  have hmacd := macd_concat (floats (F := F) prices) (ofDecimal price)
  rw [macdSignal, hfloats]
  simp only [hlen, List.dropLast_concat, histogram_concat hmacd, MacdState.step, MacdState.after,
    Ema.update, ema_concat, macdLine_concat, hmacd, Option.toList_some, Option.bind_some]
  rfl

end Signals

end QuantTrader.Strategy
