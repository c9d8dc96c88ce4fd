import QuantTrader.Backtest.Sampling
import QuantTrader.Backtest.WalkForward

/-! # What an evaluation reports

`_evaluate` lets a strategy see the bars of a first window without trading and
replays a second one on a fresh account. It reads the return off the last sample of
the curve, whose equity is older than the bar that reached the stamp. Returns are
exact here.
-/

namespace QuantTrader.Backtest.Evaluate

open Sampling Transition

variable {S : Type}

/-- The returns of consecutive samples. -/
def returns : List ℚ → List ℚ
  | a :: b :: eqVals =>
    if 0 < a then (b / a - 1) :: returns (b :: eqVals) else returns (b :: eqVals)
  | _ => []

section Definitions

variable (cfg : ReplayConfig) (onTick : S → Tick → Script S) (s : S) (initial : ℚ)
  (bars : List Tick) (primeStart evalStart evalEnd : ℚ)

def prime : Except Signal S :=
  (window primeStart evalStart bars).foldlM (fun s t => (onTick s t).execNull) s

/-- The return of a fresh account; a division by zero raises. -/
def ret (equityCurve : List (ℚ × ℚ)) : Except Signal ℚ :=
  let final := (equityCurve.getLast?.map Prod.snd).getD initial
  if initial = 0 then .error .divisionByZero else return final / initial - 1

/-- `_evaluate`, with a strategy as `factory` makes it. -/
def evaluate : Except Failure (Evaluation ℚ) := do
  let s ← decimals (prime onTick s bars primeStart evalStart)
  let (_, r) ← Replay.run cfg onTick s (.init initial) (window evalStart evalEnd bars)
  let ret ← decimals (ret initial r.equityCurve)
  let charges ← decimals (r.closedTrades.mapM fun t => cfg.context.finish (t.buyFee + t.sellFee))
  let fees ← decimals (total cfg.context charges)
  let tax ← decimals (total cfg.context (r.closedTrades.map ClosedTrade.sellTax))
  return ⟨ret, returns (r.equityCurve.map Prod.snd), r.closedTrades.length, fees, tax⟩

end Definitions

/-! ## The last stamp -/

def lastStamp (sec : ℚ) (bars : List Tick) : Option ℚ := do
  let first ← bars.head?
  let latest ← (bars.map Tick.ts).max?
  return first.ts + gridIndex sec first.ts latest * sec

section Stamps

variable {sec first latest initial : ℚ} {trace : List (ℚ × ℚ)} {n m : ℕ}

theorem stamp_le (hsec : 0 < sec) (h : LastStamp sec first trace n)
    (h' : LastStamp sec first trace m) : n ≤ m := by
  obtain ⟨x, hx, hle⟩ := h.reached
  have hlt := h'.within x hx
  have hlt : (n : ℚ) * sec < (m + 1) * sec := by linarith
  have hlt := lt_of_mul_lt_mul_right hlt hsec.le
  exact Nat.lt_succ_iff.mp (by exact_mod_cast hlt)

theorem lastStamp_latest (hsec : 0 < sec) (hfirst : first ∈ trace.map Prod.fst)
    (hlatest : (trace.map Prod.fst).max? = some latest) :
    LastStamp sec first trace (gridIndex sec first latest) := by
  obtain ⟨hmem, hmax⟩ := List.max?_eq_some_iff.mp hlatest
  constructor
  · rcases Nat.eq_zero_or_pos (gridIndex sec first latest) with hz | hpos
    · obtain ⟨x, hx, rfl⟩ := List.mem_map.mp hfirst
      exact ⟨x, hx, by simp [hz]⟩
    · obtain ⟨x, hx, rfl⟩ := List.mem_map.mp hmem
      exact ⟨x, hx, gridIndex_stamp_le hsec hpos⟩
  · intro x hx
    exact (hmax x.1 (List.mem_map_of_mem hx)).trans_lt (lt_gridIndex_succ hsec)

end Stamps

/-! ## The return -/

section Return

variable {cfg : ReplayConfig} {onTick : S → Tick → Script S} {s₀ s s' : S} {r : Replay}
  {initial primeStart evalStart evalEnd : ℚ} {bars : List Tick} {trace : List (ℚ × ℚ)}
  {res : Evaluation ℚ}

/-- The equity before the first bar that reaches the last stamp; the final one without a bar. -/
def sampledLast (sec initial : ℚ) (bars : List Tick) (trace : List (ℚ × ℚ)) : ℚ :=
  ((lastStamp sec bars).map (before initial trace)).getD initial

theorem grid_getLast? {cash sec first : ℚ} {n : ℕ} : (grid cash sec first trace n).getLast? =
    some (first + n * sec, before cash trace (first + n * sec)) := by
  rw [grid, List.range_succ, List.map_append, List.getLast?_append]
  rfl

theorem getLast?_curve (h : Replay.run cfg onTick s (.init initial) bars = .ok (s', r))
    (htraced : traced cfg onTick s initial bars = .ok ((s', r), trace)) :
    (r.equityCurve.getLast?.map Prod.snd).getD initial =
      sampledLast cfg.equitySampleSec initial bars trace := by
  obtain ⟨trace', htraced', hfst, hsampled⟩ := exists_traced h
  obtain ⟨-, rfl⟩ := Prod.mk.inj (Except.ok.inj (htraced.symm.trans htraced'))
  cases bars with
  | nil =>
    obtain ⟨rfl, rfl⟩ := Prod.mk.inj (Except.ok.inj h)
    rfl
  | cons first bars =>
    obtain ⟨n, hs⟩ := hsampled first rfl
    obtain ⟨latest, hlatest⟩ : ∃ latest, ((first :: bars).map Tick.ts).max? = some latest :=
      Option.isSome_iff_exists.mp (List.isSome_max?_of_ne_nil (List.cons_ne_nil _ _))
    have hstamp : LastStamp cfg.equitySampleSec first.ts trace
        (gridIndex cfg.equitySampleSec first.ts latest) := by
      apply lastStamp_latest cfg.sampleSec_pos
      · rw [hfst]
        exact List.mem_cons_self
      · rw [hfst, hlatest]
    have hn : n = gridIndex cfg.equitySampleSec first.ts latest :=
      le_antisymm (stamp_le cfg.sampleSec_pos hs.stamp hstamp)
        (stamp_le cfg.sampleSec_pos hstamp hs.stamp)
    rw [hs.curve, grid_getLast?, hn, sampledLast, lastStamp, hlatest]
    rfl

theorem ret_ok_iff {curve : List (ℚ × ℚ)} {x : ℚ} : ret initial curve = .ok x ↔
    initial ≠ 0 ∧ x = (curve.getLast?.map Prod.snd).getD initial / initial - 1 := by
  unfold ret
  split_ifs with h
  · simp [h]
  · simp only [h, ne_eq, not_false_eq_true, true_and]
    exact ⟨fun hx => (Except.ok.inj hx).symm, fun hx => congrArg _ hx.symm⟩

theorem evaluate_ret (hprime : prime onTick s₀ bars primeStart evalStart = .ok s)
    (hrun : Replay.run cfg onTick s (.init initial) (window evalStart evalEnd bars) = .ok (s', r))
    (heval : evaluate cfg onTick s₀ initial bars primeStart evalStart evalEnd = .ok res) :
    ret initial r.equityCurve = .ok res.ret := by
  unfold evaluate at heval
  rw [hprime] at heval
  obtain ⟨s₁, hs, heval⟩ := bind_ok_iff.mp heval
  obtain rfl := Except.ok.inj hs
  rw [hrun] at heval
  obtain ⟨_, hr, heval⟩ := bind_ok_iff.mp heval
  obtain rfl := Except.ok.inj hr
  obtain ⟨x, hx, heval⟩ := bind_ok_iff.mp heval
  obtain ⟨charges, -, heval⟩ := bind_ok_iff.mp heval
  obtain ⟨fees, -, heval⟩ := bind_ok_iff.mp heval
  obtain ⟨tax, -, heval⟩ := bind_ok_iff.mp heval
  obtain rfl := Except.ok.inj heval
  exact decimals_ok_iff.mp hx

/-- The return is the one of the engine exactly when the equity before the first bar that reaches
the last stamp is still the final one. -/
theorem ret_eq_final_iff (hprime : prime onTick s₀ bars primeStart evalStart = .ok s)
    (hrun : Replay.run cfg onTick s (.init initial) (window evalStart evalEnd bars) = .ok (s', r))
    (heval : evaluate cfg onTick s₀ initial bars primeStart evalStart evalEnd = .ok res) :
    ∃ trace, traced cfg onTick s initial (window evalStart evalEnd bars) = .ok ((s', r), trace) ∧
      (res.ret = r.finalEquity / initial - 1 ↔
        sampledLast cfg.equitySampleSec initial (window evalStart evalEnd bars) trace =
          r.finalEquity) := by
  obtain ⟨trace, htraced, -⟩ := exists_traced hrun
  refine ⟨trace, htraced, ?_⟩
  obtain ⟨hinitial, hret⟩ := ret_ok_iff.mp (evaluate_ret hprime hrun heval)
  rw [hret, getLast?_curve hrun htraced, sub_left_inj, div_left_inj' hinitial]

theorem day_pos : (0 : ℚ) < 86400 := by norm_num

def daily : ReplayConfig := ⟨.default, ⟨Rebalance.feeRate, 0⟩, 86400, day_pos⟩

def buyFirst (_ : Unit) (t : Tick) : Script Unit :=
  if t.ts = 0 then .buy t.symbol 1 t.ts none fun _ => .done () else .done ()

def doubled : List Tick := [⟨"KRW-BTC", 500, 0⟩, ⟨"KRW-BTC", 1000, 86400⟩]

/-- The evaluation reports a loss, the engine a gain of half the cash. -/
theorem doubled_ret : ∃ r res, Replay.run daily buyFirst () (.init 1000) (window 0 172800 doubled) =
      .ok ((), r) ∧
    evaluate daily buyFirst () 1000 doubled 0 0 172800 = .ok res ∧
    res.ret = -1 / 4000 ∧ r.finalEquity / 1000 - 1 = 1999 / 4000 := by
  have hrun : (fun x => x.2.finalEquity) <$>
      Replay.run daily buyFirst () (.init 1000) (window 0 172800 doubled) = .ok (5999 / 4) := by
    decide +kernel
  have heval : Evaluation.ret <$> evaluate daily buyFirst () 1000 doubled 0 0 172800 =
      .ok (-1 / 4000) := by decide +kernel
  obtain ⟨⟨⟨⟩, r⟩, hrun, hfinal⟩ := map_ok_iff.mp hrun
  obtain ⟨res, heval, hret⟩ := map_ok_iff.mp heval
  refine ⟨r, res, hrun, heval, hret, ?_⟩
  dsimp only at hfinal
  rw [hfinal]
  norm_num

/-- The price has doubled before the bar that reaches the last stamp, and stays. -/
def reached : List Tick :=
  [⟨"KRW-BTC", 500, 0⟩, ⟨"KRW-BTC", 1000, 80000⟩, ⟨"KRW-BTC", 1000, 86400⟩]

/-- The evaluation and the engine tell the same gain. -/
theorem ret_eq_final_iff_reached : ∃ r res,
    Replay.run daily buyFirst () (.init 1000) (window 0 172800 reached) = .ok ((), r) ∧
    evaluate daily buyFirst () 1000 reached 0 0 172800 = .ok res ∧
    r.finalEquity = 5999 / 4 ∧ res.ret = r.finalEquity / 1000 - 1 := by
  have hrun : (fun x => x.2.finalEquity) <$>
      Replay.run daily buyFirst () (.init 1000) (window 0 172800 reached) = .ok (5999 / 4) := by
    decide +kernel
  have heval : (fun _ => ()) <$> evaluate daily buyFirst () 1000 reached 0 0 172800 = .ok () := by
    decide +kernel
  have hsampled : (fun x => sampledLast 86400 1000 (window 0 172800 reached) x.2) <$>
      traced daily buyFirst () 1000 (window 0 172800 reached) = .ok (5999 / 4) := by
    decide +kernel
  have hprime : prime buyFirst () reached 0 0 = .ok () := by decide +kernel
  obtain ⟨⟨⟨⟩, r⟩, hrun, hfinal⟩ := map_ok_iff.mp hrun
  obtain ⟨res, heval, -⟩ := map_ok_iff.mp heval
  obtain ⟨trace, htraced, hiff⟩ := ret_eq_final_iff hprime hrun heval
  rw [htraced] at hsampled
  refine ⟨r, res, hrun, heval, hfinal, hiff.mpr ?_⟩
  exact (Except.ok.inj hsampled).trans hfinal.symm

end Return

end QuantTrader.Backtest.Evaluate
