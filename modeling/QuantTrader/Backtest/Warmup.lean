import QuantTrader.Backtest.Evaluate
import QuantTrader.Series.Latest

/-! # Warm-up

Walk-forward counts a warm-up in bars and cuts it out in time: a strategy is primed with
the bars of a stretch as long as its warm-up would be if no bar were missing. It gets
enough of them exactly if its last bars before the out-of-sample start lie in the stretch.
-/

namespace QuantTrader.Backtest

open Strategy (PyFloat Spec EnsembleStrategy)
open Transition
open Ledger (Side)

/-! ## What is primed -/

/-- The first loop of `_evaluate`, with the bars that the strategy was given. -/
def primeLoop {S : Type} (observe : S → Tick → Except Signal S) (fresh : S) (bars : List Tick)
    (primeStart evalStart : ℚ) : Except Signal (S × List Tick) :=
  bars.foldlM (fun acc t =>
    if primeStart ≤ t.ts ∧ t.ts < evalStart then do
      return (← observe acc.1 t, acc.2 ++ [t])
    else return acc) (fresh, [])

/-- A strategy as `_evaluate` primes it: a new instance, its `on_tick` on `_NullBroker`, and
its `warmup_bars`, if it has any. -/
structure Primable where
  State : Type
  fresh : State
  observe : State → Tick → Except Signal State
  warmupBars : Option ℕ

def Primable.primed (p : Primable) (bars : List Tick) (primeStart evalStart : ℚ) :
    Except Signal (p.State × List Tick) :=
  primeLoop p.observe p.fresh bars primeStart evalStart

def Primable.ofScript {S : Type} (onTick : S → Tick → Script S) (fresh : S)
    (warmupBars : Option ℕ) : Primable :=
  ⟨S, fresh, fun s t => (onTick s t).execNull, warmupBars⟩

section Ensemble

variable {F : Type} [PyFloat F] (c : Context) (rebalanceBand : ℚ)

/-- `_order_to_target` of the ensemble. -/
def orderToTarget (e : EnsembleStrategy F) (t : Tick) (targetW : ℚ) : Script (EnsembleStrategy F) :=
  if t.price ≤ 0 then .done e
  else .read fun v =>
    let qty := v.positionQty t.symbol
    if targetW ≤ 0 then
      if 0 < qty then .sell t.symbol qty "SIGNAL" t.ts none fun _ => .done e else .done e
    else .equity fun equity =>
      match Rebalance.decide c qty t.price v.cash equity (viaFloat F targetW) rebalanceBand with
      | .error err => .fail err
      | .ok none => .done e
      | .ok (some (.buy, quantity)) => .buy t.symbol quantity t.ts none fun _ => .done e
      | .ok (some (.sell, quantity)) => .sell t.symbol quantity "REBAL" t.ts none fun _ => .done e

/-- `on_tick` of the ensemble. -/
def ensembleOnTick (e : EnsembleStrategy F) (t : Tick) : Script (EnsembleStrategy F) :=
  match e.combinedTarget c t.symbol t.price with
  | .error err => .fail err
  | .ok (e, combined) => orderToTarget c rebalanceBand e t combined

end Ensemble

/-! ## Walk-forward over any strategy -/

section Definitions

variable {F : Type} [PyFloat F] (cfg : WalkForwardConfig F)

/-- What a fold evaluates: `trend` with the spans it has picked, the ensemble with its band,
or the strategy of a factory. -/
inductive Choice
  | trend (spec : Spec)
  | ensemble (rebalanceBand : ℚ)
  | fixed (factory : Primable)

def longestWarmup (specs : List Spec) : ℕ :=
  (specs.map fun spec => (cfg.settings.signal spec).warmupBars).foldl max 0

/-- `on_tick` of a `TrendStrategy` on `_NullBroker`. -/
def observeTrend (spec : Spec) (prices : String → List F) (t : Tick) :
    Except Signal (String → List F) :=
  Prod.fst <$> (cfg.strategy spec).onTick cfg.context nullBroker (prices, ()) t

namespace Choice

def primable : Choice → Primable
  | trend spec => ⟨String → List F, fun _ => [], observeTrend cfg spec,
      some (cfg.settings.signal spec).warmupBars⟩
  | ensemble rebalanceBand =>
    .ofScript (ensembleOnTick cfg.context rebalanceBand) (.default cfg.settings) none
  | fixed factory => factory

/-- The bars that the strategy needs; the ensemble needs what its slowest signal does. -/
def warmupBars : Choice → ℕ
  | trend spec => (cfg.settings.signal spec).warmupBars
  | ensemble _ => longestWarmup cfg Strategy.defaultSpecs
  | fixed factory => factory.warmupBars.getD 1

/-- `prime_bars` -/
def primeBars : Choice → ℕ
  | trend _ => longestWarmup cfg combos
  | ensemble _ => longestWarmup cfg Strategy.defaultSpecs
  | fixed factory => factory.warmupBars.getD 1

/-- `prime_sec` -/
def primeSec (choice : Choice) : ℚ := cfg.fl (choice.primeBars cfg * cfg.sampleSec)

end Choice

/-- `_folds` over all bars, for the warm-up of a strategy. -/
def Choice.folds (choice : Choice) (fuel : ℕ) (bars : List Tick) :
    Except Failure (List FoldBounds) :=
  match bars with
  | [] => return []
  | first :: rest =>
    Backtest.folds cfg (choice.primeSec cfg) fuel first.ts
      ((first :: rest).getLast (List.cons_ne_nil _ _)).ts

def barsBefore (sym : String) (stop : ℚ) (bars : List Tick) : List Tick :=
  bars.filter fun t => t.symbol = sym ∧ t.ts < stop

/-- The bars of a symbol among those that a strategy was given. -/
def consumed (sym : String) (seen : List Tick) : ℕ := (seen.filter (·.symbol = sym)).length

/-- The strategy has had its warm-up of every symbol that has so many bars. -/
def Warm (choice : Choice) (bars : List Tick) (oosStart : ℚ) (seen : List Tick) : Prop :=
  ∀ sym, choice.warmupBars cfg ≤ (barsBefore sym oosStart bars).length →
    choice.warmupBars cfg ≤ consumed sym seen

/-- The last bars of a warm-up before the out-of-sample start are not older than the stretch
that primes: of every symbol the oldest of them is in it. -/
def Recent (choice : Choice) (bars : List Tick) (oosStart : ℚ) : Prop :=
  ∀ sym ts, 0 < choice.warmupBars cfg →
    (Series.latest ((barsBefore sym oosStart bars).map Tick.ts))[choice.warmupBars cfg - 1]? =
      some ts → cfg.fl (oosStart - choice.primeSec cfg) ≤ ts

end Definitions

/-! ## Priming -/

section Priming

variable {S : Type} {observe : S → Tick → Except Signal S} {fresh s : S} {bars seen : List Tick}
  {start stop : ℚ}

theorem window_snoc (t : Tick) : window start stop (bars ++ [t]) =
    if start ≤ t.ts ∧ t.ts < stop then window start stop bars ++ [t]
    else window start stop bars := by
  by_cases h : start ≤ t.ts ∧ t.ts < stop <;> simp [window, h]

theorem primeLoop_ok_iff : primeLoop observe fresh bars start stop = .ok (s, seen) ↔
    seen = window start stop bars ∧
      (window start stop bars).foldlM observe fresh = .ok s := by
  induction bars using List.reverseRecOn generalizing s seen with
  | nil =>
    constructor
    · rintro h
      obtain ⟨rfl, rfl⟩ := Prod.mk.inj (Except.ok.inj h)
      exact ⟨rfl, rfl⟩
    · rintro ⟨rfl, h⟩
      obtain rfl := Except.ok.inj h
      rfl
  | append_singleton bars t ih =>
    unfold primeLoop at ih ⊢
    rw [List.foldlM_append, bind_ok_iff, window_snoc]
    simp only [List.foldlM_cons, List.foldlM_nil, bind_pure]
    by_cases ht : start ≤ t.ts ∧ t.ts < stop
    · simp only [if_pos ht, List.foldlM_append, List.foldlM_cons, List.foldlM_nil, bind_pure]
      constructor
      · rintro ⟨⟨s₁, seen₁⟩, hrun, h⟩
        obtain ⟨s₂, hobserve, h⟩ := bind_ok_iff.mp h
        obtain ⟨rfl, rfl⟩ := Prod.mk.inj (Except.ok.inj h)
        obtain ⟨rfl, hfold⟩ := ih.mp hrun
        exact ⟨rfl, bind_ok_iff.mpr ⟨s₁, hfold, hobserve⟩⟩
      · rintro ⟨rfl, h⟩
        obtain ⟨s₁, hfold, hobserve⟩ := bind_ok_iff.mp h
        exact ⟨(s₁, _), ih.mpr ⟨rfl, hfold⟩, bind_ok_iff.mpr ⟨s, hobserve, rfl⟩⟩
    · simp only [if_neg ht]
      constructor
      · rintro ⟨⟨s₁, seen₁⟩, hrun, h⟩
        obtain ⟨rfl, rfl⟩ := Prod.mk.inj (Except.ok.inj h)
        exact ih.mp hrun
      · rintro h
        exact ⟨(s, seen), ih.mpr h, rfl⟩

theorem primeLoop_fst_iff : (window start stop bars).foldlM observe fresh = .ok s ↔
    ∃ seen, primeLoop observe fresh bars start stop = .ok (s, seen) := by
  simp only [primeLoop_ok_iff, exists_eq_left]

/-- This is how an evaluation of a script primes it. -/
theorem evaluate_prime_ok_iff {onTick : S → Tick → Script S} :
    Evaluate.prime onTick fresh bars start stop = .ok s ↔
      ∃ seen, primeLoop (fun s t => (onTick s t).execNull) fresh bars start stop =
        .ok (s, seen) :=
  primeLoop_fst_iff

end Priming

section Trend

variable {F : Type} [PyFloat F] {cfg : WalkForwardConfig F} {bars : List Tick} {start stop : ℚ}
  {spec : Spec}

theorem foldlM_observeTrend (prices : String → List F) :
    bars.foldlM (observeTrend cfg spec) prices =
      Prod.fst <$>
        bars.foldlM ((cfg.strategy spec).onTick cfg.context nullBroker) (prices, ()) := by
  induction bars generalizing prices with
  | nil => rfl
  | cons t bars ih =>
    rw [List.foldlM_cons, List.foldlM_cons, observeTrend]
    cases (cfg.strategy spec).onTick cfg.context nullBroker (prices, ()) t with
    | error err => rfl
    | ok x => exact ih x.1

/-- This is how walk-forward primes a trend strategy. -/
theorem prime_ok_iff {prices : String → List F} :
    prime cfg spec (window start stop bars) = .ok prices ↔
      ∃ seen, primeLoop (observeTrend cfg spec) (fun _ => []) bars start stop =
        .ok (prices, seen) := by
  rw [← primeLoop_fst_iff, foldlM_observeTrend]
  rfl

end Trend

/-! ## Enough bars -/

section Bars

variable {bars : List Tick} {start stop : ℚ} {sym : String} {w : ℕ}

theorem consumed_window : consumed sym (window start stop bars) =
    ((barsBefore sym stop bars).map Tick.ts).countP (start ≤ ·) := by
  unfold consumed window barsBefore
  rw [List.countP_map, List.countP_eq_length_filter, List.filter_filter, List.filter_filter]
  congr 2
  ext t
  simp only [Function.comp, Bool.decide_and]
  grind

/-- There are enough bars in a stretch exactly if the oldest of the last ones is in it. -/
theorem enough_iff :
    (w ≤ (barsBefore sym stop bars).length → w ≤ consumed sym (window start stop bars)) ↔
      ∀ ts, 0 < w → (Series.latest ((barsBefore sym stop bars).map Tick.ts))[w - 1]? = some ts →
        start ≤ ts := by
  rw [consumed_window]
  by_cases hw : w ≤ (barsBefore sym stop bars).length
  · rw [Series.le_countP_iff (by rwa [List.length_map])]
    exact ⟨fun h => h hw, fun h _ => h⟩
  · refine ⟨fun _ ts hpos hts => ?_, fun _ h => absurd h hw⟩
    have hlt := (List.getElem?_eq_some_iff.mp hts).1
    rw [Series.length_latest, List.length_map] at hlt
    omega

end Bars

section Warmup

variable {F : Type} {cfg : WalkForwardConfig F} {choice : Choice} {bars : List Tick}
  {bs : List FoldBounds} {fuel : ℕ} {primeSec t1 oosStart : ℚ}

theorem oosPrime_of_mem_from (h : foldsFrom cfg primeSec t1 fuel oosStart = .ok bs) :
    ∀ b ∈ bs, b.oosPrime = cfg.fl (b.oosStart - primeSec) := by
  induction fuel generalizing oosStart bs with
  | zero => cases h
  | succ fuel ih =>
    unfold foldsFrom at h
    split_ifs at h
    · obtain ⟨rest, hrest, h⟩ := bind_ok_iff.mp h
      obtain rfl := Except.ok.inj h
      rintro b hb
      rcases List.mem_cons.mp hb with rfl | hb
      · rfl
      · exact ih hrest b hb
    · obtain rfl := Except.ok.inj h
      simp

theorem oosPrime_of_mem (h : choice.folds cfg fuel bars = .ok bs) :
    ∀ b ∈ bs, b.oosPrime = cfg.fl (b.oosStart - choice.primeSec cfg) := by
  cases bars with
  | nil =>
    obtain rfl := Except.ok.inj h
    simp
  | cons first rest => exact oosPrime_of_mem_from h

theorem le_foldl_max (l : List ℕ) (m : ℕ) : m ≤ l.foldl max m ∧ ∀ n ∈ l, n ≤ l.foldl max m := by
  induction l generalizing m with
  | nil => simp
  | cons k l ih =>
    obtain ⟨hm, hl⟩ := ih (max m k)
    refine ⟨(le_max_left m k).trans hm, ?_⟩
    rintro n hn
    rcases List.mem_cons.mp hn with rfl | hn
    · exact (le_max_right m n).trans hm
    · exact hl n hn

theorem warmupBars_le_primeBars (h : ∀ spec, choice = .trend spec → spec ∈ combos) :
    choice.warmupBars cfg ≤ choice.primeBars cfg := by
  cases choice with
  | trend spec => exact (le_foldl_max _ 0).2 _ (List.mem_map_of_mem (h spec rfl))
  | ensemble rebalanceBand => exact le_rfl
  | fixed factory => exact le_rfl

/-- On a calendar without gaps the last bars of a warm-up are recent: every symbol has a bar
at most a step before the start, and before each of its bars another one. -/
theorem recent_of_dense (hsec : 0 ≤ cfg.sampleSec)
    (hfl : cfg.fl (oosStart - choice.primeSec cfg) ≤
      oosStart - choice.primeBars cfg * cfg.sampleSec)
    (hchoice : ∀ spec, choice = .trend spec → spec ∈ combos)
    (hdense : ∀ sym, (oosStart :: Series.latest ((barsBefore sym oosStart bars).map
      Tick.ts)).IsChain fun a b => a - cfg.sampleSec ≤ b) :
    Recent cfg choice bars oosStart := by
  rintro sym ts hpos hts
  have hle := Series.le_of_isChain (hdense sym) hts
  have hbars : ((choice.warmupBars cfg - 1 : ℕ) + 1 : ℚ) ≤ choice.primeBars cfg := by
    have hnat : choice.warmupBars cfg - 1 + 1 ≤ choice.primeBars cfg := by
      rw [Nat.sub_add_cancel hpos]
      exact warmupBars_le_primeBars hchoice
    exact_mod_cast hnat
  have hmul := mul_le_mul_of_nonneg_right hbars hsec
  linarith

end Warmup

/-- At every fold a strategy is warm exactly if the last bars of its warm-up are recent. -/
theorem warm_iff_recent {F : Type} [PyFloat F] {cfg : WalkForwardConfig F} {choice : Choice}
    {bars : List Tick} {fuel : ℕ} {bs : List FoldBounds}
    (hfolds : choice.folds cfg fuel bars = .ok bs) :
    ∀ b ∈ bs, ∀ s seen,
      (choice.primable cfg).primed bars b.oosPrime b.oosStart = .ok (s, seen) →
        (Warm cfg choice bars b.oosStart seen ↔ Recent cfg choice bars b.oosStart) := by
  rintro b hb s seen hprimed
  obtain ⟨rfl, -⟩ := primeLoop_ok_iff.mp hprimed
  have hprime := oosPrime_of_mem hfolds b hb
  refine forall_congr' fun sym => ?_
  rw [enough_iff, hprime]

section Demo

attribute [local instance] PyFloat.rational

/-- Daily bars, thirty days to choose the spans and five to trade them. -/
def dailyConfig : WalkForwardConfig ℚ :=
  ⟨.default, id, ⟨Rebalance.feeRate, 0⟩, 1000000, 86400, 30 * 86400, 5 * 86400, 5 * 86400,
    ⟨0, 1 / 2, 20, 1, 2, 365⟩, 0⟩

/-- The daily bars of a stock: none on the last two days of a week. -/
def weekdays : List Tick :=
  ((List.range 96).filter fun day => day % 7 < 5).map fun day => ⟨"AAPL", 100, 86400 * day⟩

/-- `TrendStrategy(short=5, long=60)`. -/
def slowTrend : Choice := .trend ⟨(5, 60), by decide⟩

def weekdayFold : FoldBounds := ⟨0, 60 * 86400, 30 * 86400, 90 * 86400, 95 * 86400⟩

theorem weekdays_folds : slowTrend.folds dailyConfig 3 weekdays = .ok [weekdayFold] := by
  decide +kernel

theorem weekdays_primed : ∃ s seen, (slowTrend.primable dailyConfig).primed weekdays
    weekdayFold.oosPrime weekdayFold.oosStart = .ok (s, seen) ∧ consumed "AAPL" seen = 43 := by
  have hview : (fun x => consumed "AAPL" x.2) <$> (slowTrend.primable dailyConfig).primed weekdays
      weekdayFold.oosPrime weekdayFold.oosStart = .ok 43 := by decide +kernel
  obtain ⟨⟨s, seen⟩, hprimed, hseen⟩ := map_ok_iff.mp hview
  exact ⟨s, seen, hprimed, hseen⟩

/-- The bars of a coin that misses a day every week only while the spans are picked. -/
def dense : List Tick :=
  ((List.range 96).filter fun day => 30 ≤ day ∨ day % 7 < 5).map fun day =>
    ⟨"KRW-BTC", 100, 86400 * day⟩

theorem dense_recent : Recent dailyConfig slowTrend dense weekdayFold.oosStart := by
  have hlatest : (Series.latest ((barsBefore "KRW-BTC" weekdayFold.oosStart dense).map
      Tick.ts))[slowTrend.warmupBars dailyConfig - 1]? = some (30 * 86400) := by decide +kernel
  rintro sym ts - hts
  by_cases hsym : sym = "KRW-BTC"
  · rw [hsym, hlatest] at hts
    rw [← Option.some.inj hts]
    decide +kernel
  · have hnone : barsBefore sym weekdayFold.oosStart dense = [] := by
      refine List.filter_eq_nil_iff.mpr fun t ht h => hsym ?_
      obtain ⟨day, -, rfl⟩ := List.mem_map.mp ht
      exact (of_decide_eq_true h).1.symm
    rw [hnone] at hts
    simp [Series.latest] at hts

/-- Where no day of the stretch is missing the strategy is warm. -/
theorem warm_iff_recent_dense : ∃ s seen,
    (slowTrend.primable dailyConfig).primed dense weekdayFold.oosPrime weekdayFold.oosStart =
      .ok (s, seen) ∧ Warm dailyConfig slowTrend dense weekdayFold.oosStart seen := by
  have hfolds : slowTrend.folds dailyConfig 3 dense = .ok [weekdayFold] := by decide +kernel
  have hview : (fun _ => ()) <$> (slowTrend.primable dailyConfig).primed dense
      weekdayFold.oosPrime weekdayFold.oosStart = .ok () := by decide +kernel
  obtain ⟨⟨s, seen⟩, hprimed, -⟩ := map_ok_iff.mp hview
  exact ⟨s, seen, hprimed, (warm_iff_recent hfolds weekdayFold (List.mem_singleton_self _) s seen
    hprimed).mpr dense_recent⟩

/-- Sixty days of a stock have 43 bars, though it has 65 before the out-of-sample start. -/
theorem weekdays_not_warm : ¬ ∀ (choice : Choice) (bars : List Tick) (fuel : ℕ)
    (bs : List FoldBounds), choice.folds dailyConfig fuel bars = .ok bs → ∀ b ∈ bs, ∀ s seen,
      (choice.primable dailyConfig).primed bars b.oosPrime b.oosStart = .ok (s, seen) →
        Warm dailyConfig choice bars b.oosStart seen := by
  intro h
  obtain ⟨s, seen, hprimed, hseen⟩ := weekdays_primed
  have hbefore : slowTrend.warmupBars dailyConfig ≤
      (barsBefore "AAPL" weekdayFold.oosStart weekdays).length := by decide +kernel
  have hle := h slowTrend weekdays 3 _ weekdays_folds weekdayFold (List.mem_singleton_self _) s
    seen hprimed "AAPL" hbefore
  rw [hseen] at hle
  revert hle
  decide +kernel

end Demo

end QuantTrader.Backtest
