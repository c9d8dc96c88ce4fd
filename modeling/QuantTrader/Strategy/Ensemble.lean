import Mathlib.Data.Prod.Lex
import Mathlib.Data.String.Basic
import QuantTrader.Decimal.Context
import QuantTrader.Frames.Sorting
import QuantTrader.Strategy.LiveEnsemble

/-! # The ensemble strategy

Several trend signals of different speeds, combined into one target weight: the
strategy of the backtests, and the dashboard that feeds it the daily closes of
one symbol.
-/

namespace QuantTrader.Strategy

open Frames

/-! ## Loads -/

/-- The settings that the loads share. -/
structure TrendSettings (F : Type) where
  entryBand : F
  volTarget : F
  volLookback : ℕ
  maxWeight : ℚ
  regimeMaxVol : F
  barsPerYear : ℕ

/-- A short and a long span; `TrendSignal` refuses others. -/
abbrev Spec := {spec : ℕ × ℕ // spec.1 < spec.2}

/-- `TrendSignal(short=s, long=l)`. -/
def TrendSettings.signal {F : Type} (cfg : TrendSettings F) (spec : Spec) : TrendSignal F :=
  ⟨spec.1.1, spec.1.2, cfg.entryBand, cfg.volTarget, cfg.volLookback, cfg.maxWeight,
    cfg.regimeMaxVol, cfg.barsPerYear, spec.2⟩

/-- `_DEFAULT_SPECS`. -/
def defaultSpecs : List Spec :=
  [⟨(5, 40), by decide⟩, ⟨(10, 60), by decide⟩, ⟨(20, 100), by decide⟩]

/-- `load_name`. -/
def loadName (short long : ℕ) : String := s!"trend-{short}-{long}"

/-- `default_loads`. -/
def defaultLoads {F : Type} (cfg : TrendSettings F) : List (String × TrendSignal F) :=
  defaultSpecs.map fun spec => (loadName spec.1.1 spec.1.2, cfg.signal spec)

/-- `roster`. -/
def defaultRoster : List String := defaultSpecs.map fun spec => loadName spec.1.1 spec.1.2

/-! ## Daily candles -/

/-- A row of `candles_1d`; `windowStart` counts seconds. -/
structure DailyCandle where
  symbol : String
  windowStart : ℤ
  close : ℚ
  deriving DecidableEq

/-- `candles_1d FINAL`: one row for each symbol and start. -/
structure DailyCandles where
  rows : List DailyCandle
  nodup : (rows.map fun r => (r.windowStart, r.symbol)).Nodup

/-- The UTC day of a candle. -/
def DailyCandle.day (r : DailyCandle) : ℤ := r.windowStart / 86400

def DailyCandle.order (r : DailyCandle) : ℤ ×ₗ String := toLex (r.windowStart, r.symbol)

/-- `daily_candles`. -/
def dailyCandles (S : Sorting) (table : DailyCandles) (symbols : List String) :
    List DailyCandle :=
  S.sort DailyCandle.order (table.rows.filter fun r => r.symbol ∈ symbols)

/-- The bars of one symbol in a stream. -/
def barsIn (rows : List DailyCandle) (symbol : String) : List Bar :=
  (rows.filter fun r => r.symbol = symbol).map fun r => (r.day, r.close)

/-! ## The strategy -/

/-- `EnsembleStrategy`: its signals with their states and a weight for each of them. -/
structure EnsembleStrategy (F : Type) where
  signals : List (TrendSignal F × (String → Memory F))
  weights : List F

namespace EnsembleStrategy

variable {F : Type} [PyFloat F]

open PyFloat

/-- `EnsembleStrategy()`: the default specs with weights of one. -/
def default (cfg : TrendSettings F) : EnsembleStrategy F where
  signals := defaultSpecs.map fun spec => (cfg.signal spec, TrendSignal.fresh)
  weights := defaultSpecs.map fun _ => ofNat 1

/-- A term of the weighted sum. -/
def addTo (c : Context) (total : ℚ) (wt : F × ℚ) : Except Signal ℚ := do
  c.finish (total + (← c.finish (toDecimal wt.1 * wt.2)))

/-- `combined_target`: every signal sees the price, and the targets are averaged by weight. -/
def combinedTarget (c : Context) (e : EnsembleStrategy F) (symbol : String) (price : ℚ) :
    Except Signal (EnsembleStrategy F × ℚ) := do
  let updated := e.signals.map fun s => (s.1, s.1.update s.2 symbol price)
  let targets := updated.map fun s => s.2.2
  let total ← (e.weights.zip targets).foldlM (addTo c) 0
  let combined ← c.divFin total (toDecimal (sum e.weights))
  return ({ e with signals := updated.map fun s => (s.1, s.2.1) }, combined)

/-- A bar of a stream, and the last target of each symbol. -/
def feed (c : Context) (acc : EnsembleStrategy F × (String → Option ℚ)) (row : DailyCandle) :
    Except Signal (EnsembleStrategy F × (String → Option ℚ)) := do
  let (e, target) ← acc.1.combinedTarget c row.symbol row.close
  return (e, Function.update acc.2 row.symbol (some target))

/-- The strategy after a stream. -/
def feedAll (c : Context) (e : EnsembleStrategy F) (rows : List DailyCandle) :
    Except Signal (EnsembleStrategy F × (String → Option ℚ)) :=
  rows.foldlM (feed c) (e, fun _ => none)

end EnsembleStrategy

/-! ## The dashboard -/

inductive Stance
  | long | cash
  deriving DecidableEq

def Stance.of (long : Bool) : Stance := if long then .long else .cash

/-- An entry of `compute_ensemble`. -/
structure EnsembleState (F : Type) where
  symbol : String
  targetWeight : F
  trendState : Stance
  maxWeight : F
  barTs : Option ℤ
  bars : ℕ
  speeds : List (ℕ × ℕ × Stance)

/-- The variables of the loop over the candles of a symbol. -/
structure EnsembleLoop (F : Type) where
  ens : EnsembleStrategy F
  combined : F
  lastDay : Option ℤ
  bars : ℕ

section Dashboard

variable {F : Type} [PyFloat F] (c : Context)

open PyFloat

def EnsembleLoop.next (symbol : String) (s : EnsembleLoop F) (row : DailyCandle) :
    Except Signal (EnsembleLoop F) := do
  let (ens, combined) ← s.ens.combinedTarget c symbol row.close
  return ⟨ens, ofDecimal combined, some row.day, s.bars + 1⟩

/-- The loop body of `compute_ensemble`. -/
def computeSymbol (S : Sorting) (cfg : TrendSettings F) (table : DailyCandles) (symbol : String) :
    Except Signal (EnsembleState F) := do
  let s ← (dailyCandles S table [symbol]).foldlM (EnsembleLoop.next c symbol)
    ⟨.default cfg, ofNat 0, none, 0⟩
  return {
    symbol
    targetWeight := s.combined
    trendState := .of (lt (ofNat 0) s.combined)
    maxWeight := ofDecimal cfg.maxWeight
    barTs := s.lastDay
    bars := s.bars
    speeds := s.ens.signals.map fun sig =>
      (sig.1.short, sig.1.long, .of (sig.2 symbol).longState) }

/-- `compute_ensemble`. -/
def computeEnsemble (S : Sorting) (cfg : TrendSettings F) (table : DailyCandles)
    (symbols : List String) : Except Signal (List (EnsembleState F)) :=
  symbols.mapM (computeSymbol c S cfg table)

end Dashboard

/-! ## One symbol of a stream -/

section Streams

variable {S : Sorting} {table : DailyCandles} {symbols : List String} {symbol : String}

theorem dailyCandles_singleton_symbol {r : DailyCandle} (h : r ∈ dailyCandles S table [symbol]) :
    r.symbol = symbol := by
  have hmem := (List.mem_filter.mp (Sorting.mem_sort.mp h)).2
  simpa using hmem

/-- The candles of a symbol come in one order, whatever is streamed with them. -/
theorem filter_dailyCandles (h : symbol ∈ symbols) :
    (dailyCandles S table symbols).filter (fun r => r.symbol = symbol) =
      dailyCandles S table [symbol] := by
  have hrows : (table.rows.filter fun r => r.symbol ∈ symbols).filter (fun r => r.symbol = symbol) =
      table.rows.filter fun r => r.symbol ∈ [symbol] := by
    rw [List.filter_filter]
    apply List.filter_congr
    intro r _
    by_cases hr : r.symbol = symbol
    · simp [hr, h]
    · simp [hr]
  have hperm : ((dailyCandles S table symbols).filter fun r => r.symbol = symbol).Perm
      (dailyCandles S table [symbol]) := by
    refine ((S.perm _ _).filter _).trans ?_
    rw [hrows]
    exact (S.perm _ _).symm
  have hsorted : ((dailyCandles S table symbols).filter fun r => r.symbol = symbol).Pairwise
      fun a b => a.order ≤ b.order := (S.sorted _ _).filter _
  refine hperm.eq_of_pairwise ?_ hsorted (S.sorted _ _)
  intro a b ha hb hab hba
  have hmem (r : DailyCandle) (hr : r ∈ dailyCandles S table [symbol]) : r ∈ table.rows :=
    List.mem_of_mem_filter (Sorting.mem_sort.mp hr)
  refine List.inj_on_of_nodup_map table.nodup (hmem a (hperm.mem_iff.mp ha)) (hmem b hb) ?_
  exact congrArg ofLex (le_antisymm hab hba)

theorem barsIn_dailyCandles (h : symbol ∈ symbols) :
    barsIn (dailyCandles S table symbols) symbol =
      (dailyCandles S table [symbol]).map fun r => (r.day, r.close) := by
  rw [barsIn, filter_dailyCandles h]

theorem getLast?_barsIn (h : symbol ∈ symbols) :
    (barsIn (dailyCandles S table symbols) symbol).getLast?.map Prod.fst =
      (dailyCandles S table [symbol]).getLast?.map DailyCandle.day := by
  rw [barsIn_dailyCandles h, List.getLast?_map, Option.map_map]
  rfl

end Streams

/-! ## Exact arithmetic -/

/-- Floats that compute exactly on the values of decimals, and convert them both ways. -/
class ExactFloat (F : Type) [PyFloat F] : Prop where
  ofNat_eq : ∀ n : ℕ, PyFloat.ofNat n = (PyFloat.ofDecimal n : F)
  add : ∀ x y : ℚ, (PyFloat.ofDecimal x + PyFloat.ofDecimal y : F) = PyFloat.ofDecimal (x + y)
  mul : ∀ x y : ℚ, (PyFloat.ofDecimal x * PyFloat.ofDecimal y : F) = PyFloat.ofDecimal (x * y)
  div : ∀ x y : ℚ, (PyFloat.ofDecimal x / PyFloat.ofDecimal y : F) = PyFloat.ofDecimal (x / y)
  sum : ∀ xs : List ℚ, PyFloat.sum (xs.map PyFloat.ofDecimal : List F) = PyFloat.ofDecimal xs.sum
  le : ∀ x y : ℚ, PyFloat.le (PyFloat.ofDecimal x : F) (PyFloat.ofDecimal y) = decide (x ≤ y)
  toDecimal_ofDecimal : ∀ x : ℚ, PyFloat.toDecimal (PyFloat.ofDecimal x : F) = x

theorem ExactFloat.ofField {K : Type} [Field K] [LinearOrder K] [IsStrictOrderedRing K]
    {toDecimal : K → ℚ} (h : ∀ x : ℚ, toDecimal x = x) (log sqrt : K → K) :
    @ExactFloat K (.ofField toDecimal log sqrt) := by
  let := PyFloat.ofField toDecimal log sqrt
  exact
    { ofNat_eq := fun n => (Rat.cast_natCast n).symm
      add := fun x y => (Rat.cast_add x y).symm
      mul := fun x y => (Rat.cast_mul x y).symm
      div := fun x y => (Rat.cast_div x y).symm
      sum := fun xs => (map_list_sum (Rat.castHom K) xs).symm
      le := fun x y => decide_eq_decide.mpr Rat.cast_le
      toDecimal_ofDecimal := h }

section Exact

variable {F : Type} [PyFloat F] [ExactFloat F]

open PyFloat

/-- The mean of the targets of the loads. -/
def meanTarget (targets : List ℚ) : ℚ := targets.sum / targets.length

/-- The targets of fresh signals after closes of one symbol. -/
def replayTargets (specs : List (TrendSignal F)) (symbol : String) (closes : List ℚ) : List ℚ :=
  specs.map fun s => (s.replay symbol closes).2

/-- The closes of one symbol in a stream. -/
def closesIn (rows : List DailyCandle) (symbol : String) : List ℚ :=
  (barsIn rows symbol).map Prod.snd

theorem closesIn_snoc (rows : List DailyCandle) (r : DailyCandle) :
    closesIn (rows ++ [r]) =
      Function.update (closesIn rows) r.symbol (closesIn rows r.symbol ++ [r.close]) := by
  funext symbol
  by_cases h : symbol = r.symbol
  · subst h
    simp [closesIn, barsIn, List.filter_append]
  · rw [Function.update_of_ne h]
    simp [closesIn, barsIn, List.filter_append, Ne.symm h]

theorem foldlM_exact (targets : List ℚ) (x : ℚ) :
    (targets.map fun t => ((ofNat 1 : F), t)).foldlM (EnsembleStrategy.addTo .exact) x =
      .ok (x + targets.sum) := by
  induction targets generalizing x with
  | nil => simp [pure, Except.pure]
  | cons t targets ih =>
    have hstep : EnsembleStrategy.addTo .exact x ((ofNat 1 : F), t) = .ok (x + t) := by
      have hone : toDecimal (ofNat 1 : F) = 1 := by
        rw [ExactFloat.ofNat_eq, ExactFloat.toDecimal_ofDecimal, Nat.cast_one]
      rw [EnsembleStrategy.addTo, hone, one_mul]
      rfl
    rw [List.map_cons, List.foldlM_cons, hstep, List.sum_cons, ← add_assoc]
    exact ih (x + t)

namespace EnsembleStrategy

variable {e : EnsembleStrategy F} {specs : List (TrendSignal F)} {closes : String → List ℚ}

/-- Every signal is a fresh one that has seen the closes, and the weights are one. -/
structure Fed (specs : List (TrendSignal F)) (closes : String → List ℚ) (e : EnsembleStrategy F) :
    Prop where
  signals : e.signals.map Prod.fst = specs
  weights : e.weights = specs.map fun _ => ofNat 1
  books : ∀ s ∈ e.signals, ∀ symbol, s.2 symbol = (s.1.replay symbol (closes symbol)).1 symbol

omit [ExactFloat F] in
theorem fed_default (cfg : TrendSettings F) :
    Fed (defaultSpecs.map cfg.signal) (fun _ => []) (.default cfg) where
  signals := by simp [default, Function.comp_def]
  weights := by simp [default, Function.comp_def]
  books s hs symbol := by
    obtain ⟨spec, -, rfl⟩ := List.mem_map.mp hs
    rfl

omit [ExactFloat F] in
theorem Fed.targets (h : Fed specs closes e) (symbol : String) (close : ℚ) :
    (e.signals.map fun s => (s.1.update s.2 symbol close).2) =
      replayTargets specs symbol (closes symbol ++ [close]) := by
  rw [replayTargets, ← h.signals, List.map_map]
  apply List.map_congr_left
  intro s hs
  simp only [Function.comp_apply, TrendSignal.replay_snoc]
  exact (s.1.update_congr close (h.books s hs symbol)).2

/-- A bar returns the mean target of its symbol and moves that symbol only. -/
theorem Fed.combinedTarget (h : Fed specs closes e) (hne : specs ≠ []) (symbol : String)
    (close : ℚ) :
    ∃ e', e.combinedTarget .exact symbol close =
        .ok (e', meanTarget (replayTargets specs symbol (closes symbol ++ [close]))) ∧
      Fed specs (Function.update closes symbol (closes symbol ++ [close])) e' := by
  set targets := replayTargets specs symbol (closes symbol ++ [close]) with htargets
  have hlen : targets.length = specs.length := by simp [htargets, replayTargets]
  have hzip : e.weights.zip targets = targets.map fun t => ((ofNat 1 : F), t) := by
    rw [h.weights]
    apply List.ext_getElem
    · simp [hlen]
    · simp
  have hsum : toDecimal (sum e.weights) = (specs.length : ℚ) := by
    have hone : (specs.map fun _ => (ofNat 1 : F)) =
        (specs.map fun _ => (1 : ℚ)).map ofDecimal := by
      rw [List.map_map]
      apply List.map_congr_left
      intro _ _
      simpa using ExactFloat.ofNat_eq (F := F) 1
    rw [h.weights, hone, ExactFloat.sum, ExactFloat.toDecimal_ofDecimal]
    simp
  have hlength : (specs.length : ℚ) ≠ 0 := by
    exact_mod_cast fun hzero => hne (List.length_eq_zero_iff.mp hzero)
  refine ⟨⟨e.signals.map fun s => (s.1, (s.1.update s.2 symbol close).1), e.weights⟩, ?_, ?_⟩
  · have hmap : (e.signals.map fun s => (s.1.update s.2 symbol close).2) = targets :=
      h.targets symbol close
    have hmean : Context.exact.divFin targets.sum specs.length = .ok (meanTarget targets) := by
      rw [meanTarget, hlen, Context.divFin, if_neg hlength]
      rfl
    simp only [EnsembleStrategy.combinedTarget, List.map_map, Function.comp_def, hmap, hzip,
      foldlM_exact, zero_add, bind, Except.bind, hsum, hmean]
    rfl
  · refine ⟨by rw [List.map_map]; exact h.signals, h.weights, ?_⟩
    intro s hs other
    obtain ⟨s, hmem, rfl⟩ := List.mem_map.mp hs
    have hb := h.books s hmem
    rcases eq_or_ne other symbol with rfl | hother
    · rw [Function.update_self, TrendSignal.replay_snoc]
      exact (s.1.update_congr close (hb other)).1
    · rw [Function.update_of_ne hother]
      exact (s.1.update_of_ne close hother).trans (hb other)

/-- The strategy after a stream: each symbol's last target is the mean of its loads. -/
theorem feedAll_exact (h : Fed specs (fun _ => []) e) (hne : specs ≠ [])
    (rows : List DailyCandle) :
    ∃ e' last, e.feedAll .exact rows = .ok (e', last) ∧ Fed specs (closesIn rows) e' ∧
      ∀ symbol, closesIn rows symbol ≠ [] →
        last symbol = some (meanTarget (replayTargets specs symbol (closesIn rows symbol))) := by
  induction rows using List.reverseRecOn with
  | nil => exact ⟨e, fun _ => none, rfl, h, fun _ hnil => absurd rfl hnil⟩
  | append_singleton rows r ih =>
    obtain ⟨e₁, last, hrun, hfed, hlast⟩ := ih
    obtain ⟨e₂, hstep, hfed₂⟩ := hfed.combinedTarget hne r.symbol r.close
    have hrun₂ : e.feedAll .exact (rows ++ [r]) = .ok (e₂, Function.update last r.symbol
        (some (meanTarget (replayTargets specs r.symbol (closesIn rows r.symbol ++ [r.close]))))) := by
      rw [feedAll] at hrun
      simp only [feedAll, List.foldlM_append, hrun, List.foldlM_cons, List.foldlM_nil, feed, hstep,
        bind, Except.bind, pure, Except.pure]
    refine ⟨_, _, hrun₂, closesIn_snoc rows r ▸ hfed₂, ?_⟩
    intro symbol hcloses
    rw [closesIn_snoc] at hcloses ⊢
    rcases eq_or_ne symbol r.symbol with rfl | hother
    · rw [Function.update_self, Function.update_self]
    · rw [Function.update_of_ne hother] at hcloses ⊢
      rw [Function.update_of_ne hother]
      exact hlast symbol hcloses

end EnsembleStrategy

/-! ## The dashboard with exact arithmetic -/

section

variable {S : Sorting} {cfg : TrendSettings F} {table : DailyCandles} {symbol : String}
  {specs : List (TrendSignal F)} {e : EnsembleStrategy F}

/-- The closes of a symbol, in order. -/
def closesOf (S : Sorting) (table : DailyCandles) (symbol : String) : List ℚ :=
  closesIn (dailyCandles S table [symbol]) symbol

omit [PyFloat F] [ExactFloat F] in
theorem closesOf_ne_nil (h : ∃ r ∈ table.rows, r.symbol = symbol) : closesOf S table symbol ≠ [] := by
  obtain ⟨r, hr, rfl⟩ := h
  have hmem : r ∈ dailyCandles S table [r.symbol] :=
    Sorting.mem_sort.mpr (List.mem_filter.mpr ⟨hr, by simp⟩)
  rw [closesOf, closesIn, barsIn_dailyCandles (List.mem_singleton_self _)]
  simpa using List.ne_nil_of_mem hmem

theorem loop_exact (h : EnsembleStrategy.Fed specs (fun _ => []) e) (hne : specs ≠ [])
    {rows : List DailyCandle} (hrows : ∀ r ∈ rows, r.symbol = symbol) :
    ∃ s, rows.foldlM (EnsembleLoop.next .exact symbol) ⟨e, ofNat 0, none, 0⟩ = .ok s ∧
      EnsembleStrategy.Fed specs (closesIn rows) s.ens ∧
      s.lastDay = rows.getLast?.map DailyCandle.day ∧
      (rows ≠ [] →
        s.combined = ofDecimal (meanTarget (replayTargets specs symbol (closesIn rows symbol)))) := by
  induction rows using List.reverseRecOn with
  | nil => exact ⟨_, rfl, h, rfl, fun hnil => absurd rfl hnil⟩
  | append_singleton rows r ih =>
    obtain ⟨s, hrun, hfed, -, -⟩ := ih fun r hr => hrows r (List.mem_append_left _ hr)
    obtain rfl : r.symbol = symbol := hrows r (by simp)
    obtain ⟨e', hstep, hfed'⟩ := hfed.combinedTarget hne r.symbol r.close
    refine ⟨⟨e', ofDecimal (meanTarget (replayTargets specs r.symbol
      (closesIn rows r.symbol ++ [r.close]))), some r.day, s.bars + 1⟩, ?_, ?_, ?_, ?_⟩
    · simp only [List.foldlM_append, hrun, List.foldlM_cons, List.foldlM_nil, EnsembleLoop.next,
        hstep, bind, Except.bind, pure, Except.pure]
    · rw [closesIn_snoc]
      exact hfed'
    · rw [List.getLast?_concat]
      rfl
    · intro _
      rw [closesIn_snoc, Function.update_self]

omit [PyFloat F] [ExactFloat F] in
theorem defaultSpecs_ne_nil : defaultSpecs.map cfg.signal ≠ [] := by
  simp [defaultSpecs]

/-- The dashboard reports the mean of the replayed loads, on the day of the last candle. -/
theorem computeSymbol_exact (S : Sorting) (cfg : TrendSettings F) (table : DailyCandles)
    (symbol : String) :
    ∃ r, computeSymbol .exact S cfg table symbol = .ok r ∧ r.symbol = symbol ∧
      r.barTs = (dailyCandles S table [symbol]).getLast?.map DailyCandle.day ∧
      (closesOf S table symbol ≠ [] → r.targetWeight = ofDecimal (meanTarget
        (replayTargets (defaultSpecs.map cfg.signal) symbol (closesOf S table symbol)))) := by
  obtain ⟨s, hrun, -, hday, hcombined⟩ := loop_exact (EnsembleStrategy.fed_default cfg)
    defaultSpecs_ne_nil fun r hr => dailyCandles_singleton_symbol hr
  refine ⟨_, by rw [computeSymbol, hrun]; rfl, rfl, hday, fun hcloses => hcombined ?_⟩
  rintro hnil
  rw [closesOf, hnil] at hcloses
  exact hcloses rfl

end

end Exact

end QuantTrader.Strategy
