import Mathlib.Data.List.ReduceOption
import QuantTrader.Backtest.Trend

/-! # Walk-forward selection

Every fold picks the spans with the best return before its out-of-sample part, and
is evaluated on that part. The choice of a fold reads no bar from its start on.
-/

namespace QuantTrader.Backtest

open Strategy (PyFloat TrendSettings Spec)

open Strategy.PyFloat Transition

/-! ## Evaluation -/

/-- What `run_walkforward` is given besides the bars; a `fuel` bounds the steps of its loops. -/
structure WalkForwardConfig (F : Type) where
  context : Context
  fl : ℚ → ℚ
  fills : FillModel
  initial : ℚ
  sampleSec : ℚ
  isSec : ℚ
  oosSec : ℚ
  stepSec : ℚ
  settings : TrendSettings F
  rebalanceBand : ℚ

/-- The result of `_evaluate`. -/
structure Evaluation (F : Type) where
  ret : F
  rets : List F
  numTrades : ℕ
  fees : ℚ
  tax : ℚ

/-- `_GRID_SHORT` and `_GRID_LONG`. -/
def gridShort : List ℕ := [5, 10, 20]

def gridLong : List ℕ := [30, 40, 60]

/-- `_combos`. -/
def combos : List Spec :=
  gridShort.flatMap fun s => gridLong.filterMap fun l => if h : s < l then some ⟨(s, l), h⟩ else none

/-- The bars of `[start, stop)`. -/
def window (start stop : ℚ) (bars : List Tick) : List Tick :=
  bars.filter fun t => start ≤ t.ts ∧ t.ts < stop

section Evaluation

variable {F : Type} [PyFloat F] (cfg : WalkForwardConfig F)

def WalkForwardConfig.engine : EngineConfig :=
  ⟨cfg.context, cfg.fl, cfg.fills, cfg.sampleSec⟩

/-- `TrendStrategy(short=s, long=l)`. -/
def WalkForwardConfig.strategy (spec : Spec) : TrendStrategy F :=
  ⟨cfg.settings.signal spec, cfg.rebalanceBand⟩

/-- `rets`: the returns of consecutive samples. -/
def sampleReturns : List F → List F
  | a :: b :: eqVals =>
    if lt (ofNat 0) a then (b / a - ofNat 1) :: sampleReturns (b :: eqVals)
    else sampleReturns (b :: eqVals)
  | _ => []

/-- `sum` of decimals. -/
def total (c : Context) (xs : List ℚ) : Except Signal ℚ := xs.foldlM (fun s x => c.finish (s + x)) 0

/-- What `_evaluate` reads off an engine that has run. -/
def report (e : Engine) : Except Signal (Evaluation F) := do
  let eqVals : List F := e.equityCurve.map fun p => ofDecimal p.2
  let final := eqVals.getLast?.getD (ofDecimal cfg.initial)
  let charges ← e.closedTrades.mapM fun t => cfg.context.finish (t.buyFee + t.sellFee)
  return {
    ret := final / ofDecimal cfg.initial - ofNat 1
    rets := sampleReturns eqVals
    numTrades := e.closedTrades.length
    fees := ← total cfg.context charges
    tax := ← total cfg.context (e.closedTrades.map ClosedTrade.sellTax) }

def prime (spec : Spec) (bars : List Tick) : Except Signal (String → List F) := do
  let (prices, _) ← bars.foldlM ((cfg.strategy spec).onTick cfg.context nullBroker) (fun _ => [], ())
  return prices

/-- `_evaluate`. -/
def evaluate (fuel : ℕ) (bars : List Tick) (spec : Spec) (primeStart evalStart evalEnd : ℚ) :
    Except Failure (Evaluation F) := do
  let prices ← decimals (prime cfg spec (window primeStart evalStart bars))
  let e ← (Engine.init cfg.initial).run cfg.engine fuel (cfg.strategy spec) prices
    (window evalStart evalEnd bars)
  decimals (report cfg e)

end Evaluation

/-! ## Folds -/

structure FoldBounds where
  isPrime : ℚ
  isStart : ℚ
  oosPrime : ℚ
  oosStart : ℚ
  oosEnd : ℚ
  deriving DecidableEq

/-- An entry of `folds`. -/
structure FoldResult (F : Type) where
  fold : ℕ
  params : Spec
  isReturn : F
  oos : Evaluation F

/-- The result without its aggregate. -/
structure WalkForward (F : Type) where
  folds : List (FoldResult F)
  error : Option String

section Folds

variable {F : Type} (cfg : WalkForwardConfig F) (primeSec : ℚ)

/-- An entry of `_folds`. -/
def bounds (oosStart : ℚ) : FoldBounds where
  isPrime := cfg.fl (cfg.fl (oosStart - cfg.isSec) - primeSec)
  isStart := cfg.fl (oosStart - cfg.isSec)
  oosPrime := cfg.fl (oosStart - primeSec)
  oosStart := oosStart
  oosEnd := cfg.fl (oosStart + cfg.oosSec)

/-- The `while` of `_folds`. -/
def foldsFrom (t1 : ℚ) : ℕ → ℚ → Except Failure (List FoldBounds)
  | 0, _ => .error .endless
  | fuel + 1, oosStart =>
    if cfg.fl (oosStart + cfg.oosSec) ≤ t1 then do
      let rest ← foldsFrom t1 fuel (cfg.fl (oosStart + cfg.stepSec))
      return bounds cfg primeSec oosStart :: rest
    else return []

def firstStart (t0 : ℚ) : ℚ := cfg.fl (cfg.fl (t0 + primeSec) + cfg.isSec)

/-- `_folds`. -/
def folds (fuel : ℕ) (t0 t1 : ℚ) : Except Failure (List FoldBounds) :=
  foldsFrom cfg primeSec t1 fuel (firstStart cfg primeSec t0)

end Folds

section WalkForward

variable {F : Type} [PyFloat F] (cfg : WalkForwardConfig F)

/-- `prime_sec`. -/
def primeSec : ℚ :=
  let primeBars := (combos.map fun spec => (cfg.settings.signal spec).warmupBars).foldl max 0
  cfg.fl (primeBars * cfg.sampleSec)

/-- A spec replaces the best one when its return is greater. -/
def better (best : Option (Spec × F)) (spec : Spec) (ret : F) : Option (Spec × F) :=
  match best with
  | none => some (spec, ret)
  | some (s, score) => if lt score ret then some (spec, ret) else some (s, score)

/-- The loop over `combos`. -/
def select (fuel : ℕ) (bars : List Tick) (b : FoldBounds) : Except Failure (Option (Spec × F)) :=
  combos.foldlM (fun best spec => do
    let isr ← evaluate cfg fuel bars spec b.isPrime b.isStart b.oosStart
    return better best spec isr.ret) none

/-- A fold of the loop; one without out-of-sample returns is skipped. -/
def runFold (fuel : ℕ) (bars : List Tick) (i : ℕ) (b : FoldBounds) :
    Except Failure (Option (FoldResult F)) := do
  match ← select cfg fuel bars b with
  | none => .error .typeError
  | some (best, score) =>
    let oosr ← evaluate cfg fuel bars best b.oosPrime b.oosStart b.oosEnd
    return if oosr.rets.isEmpty then none else some ⟨i, best, score, oosr⟩

/-- `run_walkforward` for the strategy `trend`. -/
def runWalkforward (fuel : ℕ) (bars : List Tick) : Except Failure (WalkForward F) :=
  match bars with
  | [] => return ⟨[], some "no bars"⟩
  | first :: rest => do
    let folds ← folds cfg (primeSec cfg) fuel first.ts ((first :: rest).getLast (List.cons_ne_nil _ _)).ts
    if folds = [] then return ⟨[], some "기간이 짧아 fold 없음(IS+OOS+prime > 데이터)"⟩
    let results ← (folds.zipIdx 1).mapM fun p => runFold cfg fuel (first :: rest) p.2 p.1
    return ⟨results.reduceOption, none⟩

end WalkForward

/-! ## Two runs -/

section Runs

variable {F : Type} [PyFloat F] {cfg : WalkForwardConfig F} {fuel fuel' : ℕ}
  {bars bars' : List Tick}

theorem sampleGrid_agree (cfg : EngineConfig) (ts lastEq last : ℚ) (curve : List (ℚ × ℚ)) :
    Agree (Engine.sampleGrid cfg ts lastEq fuel last curve)
      (Engine.sampleGrid cfg ts lastEq fuel' last curve) := by
  induction fuel generalizing fuel' last curve with
  | zero => exact fun _ _ h => nomatch h
  | succ fuel ih =>
    cases fuel' with
    | zero => exact fun _ _ _ h => nomatch h
    | succ fuel' =>
      unfold Engine.sampleGrid
      split_ifs
      · exact ih _ _
      · exact .refl _

theorem run_agree (cfg : EngineConfig) (e : Engine) (s : TrendStrategy F) (prices : String → List F)
    (ticks : List Tick) :
    Agree (e.run cfg fuel s prices ticks) (e.run cfg fuel' s prices ticks) := by
  have htick (acc : (String → List F) × Engine) (t : Tick) :
      Agree (Engine.tick cfg fuel s acc t) (Engine.tick cfg fuel' s acc t) := by
    refine (Agree.refl _).bind fun e => (Agree.refl _).bind fun r => (Agree.refl _).bind fun eq => ?_
    exact (sampleGrid_agree _ _ _ _ _).bind fun _ => .refl _
  exact (Agree.foldlM (fun t _ acc => htick acc t) _).bind fun _ => .refl _

/-- Bars that agree before an instant agree on every window that ends by then. -/
theorem window_congr {bound start stop : ℚ} (hle : stop ≤ bound)
    (h : (bars.filter fun t => t.ts < bound) = bars'.filter fun t => t.ts < bound) :
    window start stop bars = window start stop bars' := by
  have hsub (l : List Tick) :
      window start stop l = window start stop (l.filter fun t => t.ts < bound) := by
    unfold window
    rw [List.filter_filter]
    apply List.filter_congr
    intro t _
    by_cases ht : t.ts < stop
    · simp [ht, ht.trans_le hle]
    · simp [ht]
  rw [hsub bars, h, ← hsub]

theorem window_eq_nil {start stop : ℚ} (h : stop ≤ start) (bars : List Tick) :
    window start stop bars = [] := by
  apply List.filter_eq_nil_iff.mpr
  intro t _ ht
  obtain ⟨hstart, hstop⟩ := of_decide_eq_true ht
  exact absurd (hstop.trans_le h) hstart.not_gt

/-- An evaluation reads no bar from its end on: the priming bars lie before its start, and
if the start is not before the end there is nothing to evaluate. -/
theorem evaluate_agree {spec : Spec} {primeStart evalStart evalEnd : ℚ}
    (h : (bars.filter fun t => t.ts < evalEnd) = bars'.filter fun t => t.ts < evalEnd) :
    Agree (evaluate cfg fuel bars spec primeStart evalStart evalEnd)
      (evaluate cfg fuel' bars' spec primeStart evalStart evalEnd) := by
  unfold evaluate
  rcases le_total evalStart evalEnd with hle | hle
  · rw [window_congr hle h, window_congr le_rfl h]
    exact (Agree.refl _).bind fun prices => (run_agree _ _ _ _ _).bind fun e => .refl _
  · rw [window_eq_nil hle, window_eq_nil hle]
    -- whatever the buffers are, an engine without ticks stays as it was made
    intro r r' hr hr'
    obtain ⟨prices, -, hr⟩ := bind_ok_iff.mp hr
    obtain ⟨prices', -, hr'⟩ := bind_ok_iff.mp hr'
    exact Except.ok.inj (hr.symm.trans hr')

theorem select_agree {b : FoldBounds}
    (h : (bars.filter fun t => t.ts < b.oosStart) = bars'.filter fun t => t.ts < b.oosStart) :
    Agree (select cfg fuel bars b) (select cfg fuel' bars' b) :=
  Agree.foldlM (fun _ _ _ => (evaluate_agree h).bind fun _ => .refl _) _

/-! ## The folds of a run -/

/-- The out-of-sample starts, as the loop counts them. -/
def oosStart (cfg : WalkForwardConfig F) (t0 : ℚ) : ℕ → ℚ
  | 0 => firstStart cfg (primeSec cfg) t0
  | i + 1 => cfg.fl (oosStart cfg t0 i + cfg.stepSec)

omit [PyFloat F] in
theorem foldsFrom_getElem? {t0 t1 : ℚ} {bs : List FoldBounds} {i : ℕ}
    (h : foldsFrom cfg (primeSec cfg) t1 fuel (oosStart cfg t0 i) = .ok bs) {j : ℕ}
    {b : FoldBounds} (hb : bs[j]? = some b) :
    b = bounds cfg (primeSec cfg) (oosStart cfg t0 (i + j)) := by
  induction fuel generalizing i bs j with
  | zero => cases h
  | succ fuel ih =>
    unfold foldsFrom at h
    split_ifs at h
    · obtain ⟨rest, hrest, h⟩ := bind_ok_iff.mp h
      obtain rfl := Except.ok.inj h
      cases j with
      | zero => exact (Option.some.inj hb).symm
      | succ j =>
        rw [ih (i := i + 1) hrest hb]
        congr 2
        omega
    · obtain rfl := Except.ok.inj h
      cases hb

theorem select_of_mem_folds {r : WalkForward F} (h : runWalkforward cfg fuel bars = .ok r)
    {f : FoldResult F} (hf : f ∈ r.folds) :
    ∃ first, bars.head? = some first ∧
      select cfg fuel bars (bounds cfg (primeSec cfg) (oosStart cfg first.ts (f.fold - 1))) =
        .ok (some (f.params, f.isReturn)) := by
  cases bars with
  | nil =>
    obtain rfl := Except.ok.inj h
    cases hf
  | cons first rest =>
    refine ⟨first, rfl, ?_⟩
    obtain ⟨bs, hbs, h⟩ := bind_ok_iff.mp h
    split_ifs at h
    · obtain rfl := Except.ok.inj h
      cases hf
    · obtain ⟨results, hresults, h⟩ := bind_ok_iff.mp h
      obtain rfl := Except.ok.inj h
      obtain ⟨⟨b, i⟩, hmem, hfold⟩ :=
        exists_of_mem_mapM hresults (List.reduceOption_mem_iff.mp hf)
      obtain ⟨hle, hb⟩ := List.mk_mem_zipIdx_iff_le_and_getElem?_sub.mp hmem
      obtain ⟨best, hselect, hfold⟩ := bind_ok_iff.mp hfold
      cases best with
      | none => cases hfold
      | some best =>
        obtain ⟨oosr, -, hfold⟩ := bind_ok_iff.mp hfold
        have hfold := Except.ok.inj hfold
        split_ifs at hfold
        obtain rfl := Option.some.inj hfold
        have hbounds := foldsFrom_getElem? (i := 0) hbs hb
        rw [zero_add] at hbounds
        rw [← hbounds]
        exact hselect

/-- Walk-forward selection does not look ahead: runs that start at the same time and agree on
the bars before a fold's out-of-sample start choose the same for that fold. -/
theorem selection_no_look_ahead {r r' : WalkForward F} {first first' : Tick}
    (hrun : runWalkforward cfg fuel bars = .ok r) (hrun' : runWalkforward cfg fuel' bars' = .ok r')
    (hfirst : bars.head? = some first) (hfirst' : bars'.head? = some first')
    (hstart : first.ts = first'.ts) {f f' : FoldResult F} (hf : f ∈ r.folds) (hf' : f' ∈ r'.folds)
    (hfold : f.fold = f'.fold)
    (hbars : (bars.filter fun t => t.ts < oosStart cfg first.ts (f.fold - 1)) =
      bars'.filter fun t => t.ts < oosStart cfg first.ts (f.fold - 1)) :
    f.params = f'.params ∧ f.isReturn = f'.isReturn := by
  obtain ⟨a, ha, hselect⟩ := select_of_mem_folds hrun hf
  obtain ⟨b, hb, hselect'⟩ := select_of_mem_folds hrun' hf'
  obtain rfl := Option.some.inj (ha.symm.trans hfirst)
  obtain rfl := Option.some.inj (hb.symm.trans hfirst')
  rw [← hstart, ← hfold] at hselect'
  have hsame := select_agree hbars _ _ hselect hselect'
  exact Prod.mk.inj (Option.some.inj hsame)

end Runs

section Demo

attribute [local instance] PyFloat.rational

def foldConfig : WalkForwardConfig ℚ where
  context := .default
  fl := id
  fills := ⟨Rebalance.feeRate, 0⟩
  initial := 1000000
  sampleSec := 1
  isSec := 4
  oosSec := 2
  stepSec := 2
  settings := ⟨0, 1 / 2, 2, 1, 2, 365⟩
  rebalanceBand := 1 / 10

/-- Prices that rise, fall and rise up to the start of the second fold, which is 66, and stay the
same from then on. -/
def foldBars (later : ℚ) : List Tick :=
  ⟨"KRW-BTC", 100, 0⟩ ::
    ([(20, 100), (10, 110), (2, 90), (2, 100), (2, 130), (3, later)].flatMap fun p =>
      List.replicate p.1 p.2).zipIdx.map fun p => ⟨"KRW-BTC", p.1, p.2 + 30⟩

/-- The spans with thirty bars are warm, and the folds pick different ones of them. -/
theorem selection_no_look_ahead_demo : ∃ r r' f f',
    runWalkforward foldConfig 9 (foldBars 10) = .ok r ∧
    runWalkforward foldConfig 9 (foldBars 500) = .ok r' ∧
    r.folds.map (fun f => (f.params.1, f.isReturn)) =
      [((5, 30), 0), ((10, 30), 132573987 / 1000000000)] ∧
    f ∈ r.folds ∧ f' ∈ r'.folds ∧ f.fold = 2 ∧ f'.fold = 2 ∧ f.params = f'.params ∧
      f.isReturn = f'.isReturn := by
  have hfolds (later : ℚ) (h : later = 10 ∨ later = 500) :
      (fun r => (r.folds.map FoldResult.fold, r.folds.map fun f => (f.params.1, f.isReturn))) <$>
        runWalkforward foldConfig 9 (foldBars later) =
          .ok ([1, 2], [((5, 30), 0), ((10, 30), 132573987 / 1000000000)]) := by
    rcases h with rfl | rfl
    · decide +kernel
    · decide +kernel
  obtain ⟨r, hrun, hr⟩ := map_ok_iff.mp (hfolds 10 (.inl rfl))
  obtain ⟨r', hrun', hr'⟩ := map_ok_iff.mp (hfolds 500 (.inr rfl))
  obtain ⟨hnumbers, hspans⟩ := Prod.mk.inj hr
  obtain ⟨hnumbers', -⟩ := Prod.mk.inj hr'
  have hmem : 2 ∈ [1, 2] := by decide
  obtain ⟨f, hf, hfold⟩ := List.mem_map.mp (hnumbers ▸ hmem)
  obtain ⟨f', hf', hfold'⟩ := List.mem_map.mp (hnumbers' ▸ hmem)
  refine ⟨r, r', f, f', hrun, hrun', hspans, hf, hf', hfold, hfold', ?_⟩
  refine selection_no_look_ahead hrun hrun' rfl rfl rfl hf hf' (hfold.trans hfold'.symm) ?_
  rw [hfold]
  decide +kernel

end Demo

end QuantTrader.Backtest
