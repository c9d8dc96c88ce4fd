import Mathlib.Algebra.BigOperators.Ring.List
import QuantTrader.Rebalance.TradeOnce
import QuantTrader.Strategy.Ensemble
import QuantTrader.Strategy.Replay

/-! # The targets of the daily job

`compute_targets` primes the live ensemble with the daily candles and combines the
loads of each symbol. With exact arithmetic and equal weights its targets are the
ones of the ensemble strategy, in a backtest and on the dashboard.
-/

namespace QuantTrader.Rebalance

open Frames Strategy Strategy.PyFloat Transition

variable {F : Type} [PyFloat F]

/-- An entry of `signals_for`. -/
structure LoadSignal (F : Type) where
  load : String
  target : F
  smaS : Option F
  smaL : Option F
  annVol : Option F
  state : Stance

/-- `signals_for`: the last diagnosis of every load that has one. -/
def signalsFor (le : LiveEnsemble F) (symbol : String) : List (LoadSignal F) :=
  le.loads.filterMap fun l => (l.books symbol).last.map fun d =>
    ⟨l.name, ofDecimal d.target, d.smaS, d.smaL, d.annVol, .of d.long⟩

/-- `load_weights`, with the rows of `strategy_weights` for the names. -/
def loadWeights (adaptive : Bool) (rows : List (String × F)) (names : List String) :
    String → Option F :=
  let equal : String → Option F := fun n => if n ∈ names then some (ofNat 1) else none
  let out : String → F := fun n => ((rows.reverse.lookup n)).getD (ofNat 0)
  if !adaptive then equal
  else if rows.length < names.length ∨ le (sum (names.map out)) (ofNat 0) then equal
  else fun n => if n ∈ names then some (out n) else none

/-- `{n: (str(day), float(t)) for n, t in per_load}`; the day itself stands for its text. -/
def latestOf (day : ℤ) (perLoad : Targets) (n : String) : Option (ℤ × F) :=
  (perLoad.reverse.lookup n).map fun t => (day, ofDecimal t)

def analyse (ens : LiveEnsemble F) (weights : String → Option F) (p : String × ℤ × Targets) :
    Analysis ℤ (LoadSignal F) where
  target := (combinedForBar (latestOf p.2.1 p.2.2) defaultRoster p.2.1 weights).map toDecimal
  barDate := some p.2.1
  signals := signalsFor ens p.1

/-- `compute_targets`; `order` is the order of the set of symbols. -/
def computeTargets (S : Sorting) (cfg : TrendSettings F) (table : DailyCandles)
    (symbols order : List String) (nodup : order.Nodup) (adaptive : Bool)
    (strategyWeights : List (String × F)) : String → Option (Analysis ℤ (LoadSignal F)) :=
  let hist := fun s => if s ∈ symbols then barsIn (dailyCandles S table symbols) s else []
  let primed := (LiveEnsemble.init order nodup (defaultLoads cfg)).prime hist
  let weights := loadWeights adaptive strategyWeights defaultRoster
  primed.2.foldl (fun out p => Function.update out p.1 (some (analyse primed.1 weights p)))
    fun s => if s ∈ symbols then some ⟨none, none, []⟩ else none

/-! ## Priming -/

section Priming

variable {specs : List (String × TrendSignal F)} {le : LiveEnsemble F} {symbols : List String}

/-- What `prime` returns for a symbol with a history. -/
def primedEntry (specs : List (String × TrendSignal F)) (history : String → List Bar)
    (symbol : String) : Option (String × ℤ × Targets) :=
  (history symbol).getLast?.map fun bar =>
    (symbol, bar.1, freshTargets specs symbol ((history symbol).map Prod.snd))

theorem primeSymbol_out (h : InStep specs le) {symbol : String} (hfed : le.fed symbol = [])
    (history : String → List Bar) :
    (le.primeSymbol symbol (history symbol)).2 = primedEntry specs history symbol := by
  unfold primedEntry
  rcases List.eq_nil_or_concat (history symbol) with hnil | ⟨bars, bar, hbars⟩
  · rw [hnil]
    rfl
  · have hwarm := (Prod.mk.inj (LiveEnsemble.view_warm symbol le bars)).2
    rw [hbars, List.concat_eq_append, LiveEnsemble.primeSymbol_snoc, List.getLast?_concat,
      (h.warm symbol bars).snd_targets, hwarm, hfed]
    simp

/-- The symbols with a history, each with the targets of signals that have replayed it. -/
theorem primeAll_out (h : InStep specs le) (hnodup : symbols.Nodup)
    (hfed : ∀ s ∈ symbols, le.fed s = []) (history : String → List Bar) :
    (le.primeAll history symbols).2 = symbols.filterMap (primedEntry specs history) := by
  induction symbols using List.reverseRecOn with
  | nil => rfl
  | append_singleton symbols symbol ih =>
    rw [List.nodup_append] at hnodup
    have hnot : symbol ∉ symbols := fun hmem =>
      hnodup.2.2 _ hmem _ (List.mem_singleton_self _) rfl
    have hview : (le.primeAll history symbols).1.view symbol = le.view symbol :=
      LiveEnsemble.view_primeAll_of_notMem hnot history
    have hempty : (le.primeAll history symbols).1.fed symbol = [] :=
      (Prod.mk.inj hview).2.trans (hfed symbol (by simp))
    rw [LiveEnsemble.primeAll_snoc, List.filterMap_append,
      ih hnodup.1 fun s hs => hfed s (List.mem_append_left _ hs),
      primeSymbol_out (h.primeAll history symbols) hempty]
    cases hentry : primedEntry specs history symbol with
    | none => simp [hentry]
    | some entry => simp [hentry]

end Priming

/-! ## Combining -/

section Combining

variable [ExactFloat F] {day : ℤ} {targets : Targets} {roster : List String}
  {weights : String → Option F}

theorem lookup_reverse {α : Type*} {l : List (String × α)} (hnodup : (l.map Prod.fst).Nodup)
    {n : String} {a : α} (h : (n, a) ∈ l) : l.reverse.lookup n = some a := by
  obtain ⟨before, after, rfl⟩ := List.append_of_mem h
  rw [List.lookup_eq_some_iff]
  refine ⟨after.reverse, before.reverse, by simp, ?_⟩
  intro p hp
  rw [List.map_append, List.map_cons, List.nodup_append, List.nodup_cons] at hnodup
  have hne : n ≠ p.1 := by
    intro heq
    exact hnodup.2.1.1 (List.mem_map.mpr ⟨p, List.mem_reverse.mp hp, heq.symm⟩)
  simpa using hne

omit [ExactFloat F] in
theorem latestOf_eq (hnodup : (targets.map Prod.fst).Nodup) {t : String × ℚ} (h : t ∈ targets) :
    latestOf day targets t.1 = some (day, (ofDecimal t.2 : F)) := by
  rw [latestOf, lookup_reverse hnodup h]
  rfl

/-- Equal weights give the mean of the targets. -/
theorem combinedForBar_exact (hnodup : (targets.map Prod.fst).Nodup) (hne : targets ≠ []) {w : ℚ}
    (hw : 0 < w) (hweights : ∀ n ∈ targets.map Prod.fst, weights n = some (ofDecimal w)) :
    combinedForBar (latestOf day targets) (targets.map Prod.fst) day weights =
      some (ofDecimal (meanTarget (targets.map Prod.snd)) : F) := by
  have hready : rosterReady (latestOf day targets : String → Option (ℤ × F))
      (targets.map Prod.fst) day = true := by
    rw [rosterReady_iff]
    intro n hn
    obtain ⟨t, ht, rfl⟩ := List.mem_map.mp hn
    rw [latestOf_eq hnodup ht]
    rfl
  have hwsum : sum ((targets.map Prod.fst).map (weight weights)) =
      (ofDecimal (targets.length * w) : F) := by
    have hmap : (targets.map Prod.fst).map (weight weights) =
        (targets.map fun _ => w).map ofDecimal := by
      rw [List.map_map, List.map_map]
      apply List.map_congr_left
      intro t ht
      simp only [Function.comp_apply, weight, hweights t.1 (List.mem_map_of_mem ht), Option.getD_some]
    rw [hmap, ExactFloat.sum]
    simp
  have hterms : sum ((targets.map Prod.fst).map fun n =>
      weight weights n * loadTarget (latestOf day targets) n) =
        (ofDecimal (w * (targets.map Prod.snd).sum) : F) := by
    have hmap : ((targets.map Prod.fst).map fun n =>
        weight weights n * loadTarget (latestOf day targets) n) =
          (targets.map fun t => w * t.2).map ofDecimal := by
      rw [List.map_map, List.map_map]
      apply List.map_congr_left
      intro t ht
      simp only [Function.comp_apply, weight, hweights t.1 (List.mem_map_of_mem ht), loadTarget,
        latestOf_eq hnodup ht, Option.map_some, Option.getD_some, ExactFloat.mul]
    rw [hmap, ExactFloat.sum, ← List.sum_map_mul_left]
  have hlength : (0 : ℚ) < targets.length := by
    exact_mod_cast List.length_pos_iff.mpr hne
  have hzero : (ofNat 0 : F) = ofDecimal 0 := by simpa using ExactFloat.ofNat_eq (F := F) 0
  have hpos : le (ofDecimal (targets.length * w) : F) (ofNat 0) = false := by
    rw [hzero, ExactFloat.le]
    exact decide_eq_false (not_le.mpr (mul_pos hlength hw))
  rw [combinedForBar, if_pos hready]
  simp only [hwsum, hpos, hterms, ExactFloat.div]
  rw [meanTarget, List.length_map, mul_comm (targets.length : ℚ) w, mul_div_mul_left _ _ hw.ne']
  rfl

end Combining

/-! ## The three ensembles -/

section Agreement

variable {S : Sorting} {cfg : TrendSettings F} {table : DailyCandles} {symbols order : List String}
  {nodup : order.Nodup} {adaptive : Bool} {strategyWeights : List (String × F)} {symbol : String}

/-- Without adaptive weights every load weighs one. -/
theorem loadWeights_equal [ExactFloat F] (names : List String) (rows : List (String × F)) :
    ∀ n ∈ names, loadWeights false rows names n = some (ofDecimal 1) := by
  intro n hn
  have hone : (ofNat 1 : F) = ofDecimal 1 := by simpa using ExactFloat.ofNat_eq (F := F) 1
  simp [loadWeights, hn, hone]

theorem foldl_update {β V : Type*} (f : String × β → V) {l : List (String × β)}
    (hnodup : (l.map Prod.fst).Nodup) {p : String × β} (hp : p ∈ l) (out : String → Option V) :
    (l.foldl (fun (out : String → Option V) p => Function.update out p.1 (some (f p))) out) p.1 =
      some (f p) := by
  induction l using List.reverseRecOn with
  | nil => cases hp
  | append_singleton l last ih =>
    rw [List.map_append, List.nodup_append] at hnodup
    rw [List.foldl_append, List.foldl_cons, List.foldl_nil]
    rcases List.mem_append.mp hp with hp | hp
    · have hne : p.1 ≠ last.1 :=
        hnodup.2.2 _ (List.mem_map_of_mem hp) _ (by simp)
      rw [Function.update_of_ne hne, ih hnodup.1 hp]
    · rw [List.mem_singleton.mp hp, Function.update_self]

omit [PyFloat F] in
theorem defaultLoads_names (cfg : TrendSettings F) : (defaultLoads cfg).map Prod.fst = defaultRoster := by
  simp [defaultLoads, defaultRoster, Function.comp_def]

theorem freshTargets_names (cfg : TrendSettings F) (symbol : String) (closes : List ℚ) :
    (freshTargets (defaultLoads cfg) symbol closes).map Prod.fst = defaultRoster := by
  rw [freshTargets, List.map_map, ← defaultLoads_names cfg]
  rfl

theorem freshTargets_targets (cfg : TrendSettings F) (symbol : String) (closes : List ℚ) :
    (freshTargets (defaultLoads cfg) symbol closes).map Prod.snd =
      replayTargets (defaultSpecs.map cfg.signal) symbol closes := by
  simp [freshTargets, replayTargets, defaultLoads, Function.comp_def]

theorem defaultRoster_nodup : defaultRoster.Nodup := by decide +kernel

theorem primedEntry_names {specs : List (String × TrendSignal F)} {history : String → List Bar}
    (hnodup : order.Nodup) : ((order.filterMap (primedEntry specs history)).map Prod.fst).Nodup := by
  rw [List.map_filterMap]
  refine hnodup.filterMap fun a a' b ha ha' => ?_
  simp only [primedEntry, Option.map_map, Option.mem_def, Option.map_eq_some_iff,
    Function.comp_apply] at ha ha'
  obtain ⟨-, -, rfl⟩ := ha
  obtain ⟨-, -, h⟩ := ha'
  exact h.symm

variable (S cfg nodup) in
/-- The job's target is the mean of the replayed loads, on the day of the last candle. -/
theorem computeTargets_exact [ExactFloat F] (horder : ∀ s, s ∈ order ↔ s ∈ symbols) {w : ℚ}
    (hw : 0 < w) (hweights : ∀ n ∈ defaultRoster,
      loadWeights adaptive strategyWeights defaultRoster n = some (ofDecimal w))
    (hin : symbol ∈ symbols) (hhist : closesOf S table symbol ≠ []) :
    ∃ a, computeTargets S cfg table symbols order nodup adaptive strategyWeights symbol = some a ∧
      a.target = some (meanTarget
        (replayTargets (defaultSpecs.map cfg.signal) symbol (closesOf S table symbol))) ∧
      a.barDate = (dailyCandles S table [symbol]).getLast?.map DailyCandle.day := by
  set hist : String → List Bar :=
    fun s => if s ∈ symbols then barsIn (dailyCandles S table symbols) s else [] with hhistdef
  have hbars : hist symbol = barsIn (dailyCandles S table symbols) symbol := by
    rw [hhistdef]
    exact if_pos hin
  have hcloses : (hist symbol).map Prod.snd = closesOf S table symbol := by
    rw [hbars, closesOf, closesIn, barsIn_dailyCandles hin,
      barsIn_dailyCandles (List.mem_singleton_self _)]
  have hne : hist symbol ≠ [] := by
    intro hnil
    exact hhist (by rw [← hcloses, hnil]; rfl)
  obtain ⟨bar, hbar⟩ : ∃ bar, (hist symbol).getLast? = some bar :=
    ⟨_, List.getLast?_eq_some_getLast hne⟩
  set perLoad := freshTargets (defaultLoads cfg) symbol (closesOf S table symbol) with hper
  have hentry : primedEntry (defaultLoads cfg) hist symbol = some (symbol, bar.1, perLoad) := by
    rw [primedEntry, hbar, hcloses]
    rfl
  have hprimed : ((LiveEnsemble.init order nodup (defaultLoads cfg)).prime hist).2 =
      order.filterMap (primedEntry (defaultLoads cfg) hist) :=
    primeAll_out InStep.init nodup (fun _ _ => rfl) hist
  have hmem : (symbol, bar.1, perLoad) ∈ order.filterMap (primedEntry (defaultLoads cfg) hist) :=
    List.mem_filterMap.mpr ⟨symbol, (horder symbol).mpr hin, hentry⟩
  have hcombined : combinedForBar (latestOf bar.1 perLoad) defaultRoster bar.1
      (loadWeights adaptive strategyWeights defaultRoster) =
        some (ofDecimal (meanTarget
          (replayTargets (defaultSpecs.map cfg.signal) symbol (closesOf S table symbol))) : F) := by
    have hnames : perLoad.map Prod.fst = defaultRoster := freshTargets_names cfg symbol _
    have hne : perLoad ≠ [] := by simp [hper, freshTargets, defaultLoads, defaultSpecs]
    rw [← hnames] at hweights ⊢
    rw [combinedForBar_exact (hnames ▸ defaultRoster_nodup) hne hw (hnames ▸ hweights), hper,
      freshTargets_targets]
  have hday : (hist symbol).getLast?.map Prod.fst = some bar.1 := by rw [hbar]; rfl
  rw [hbars, getLast?_barsIn hin] at hday
  rw [← hprimed] at hmem
  have hnames : ((order.filterMap (primedEntry (defaultLoads cfg) hist)).map Prod.fst).Nodup :=
    primedEntry_names nodup
  rw [← hprimed] at hnames
  refine ⟨_, foldl_update (analyse _ _) hnames hmem _, ?_, hday.symm⟩
  simp only [analyse, hcombined, Option.map_some, ExactFloat.toDecimal_ofDecimal]

/-- Batch, backtest and dashboard agree on the target of every symbol with a candle. -/
theorem targets_agree [ExactFloat F] (horder : ∀ s, s ∈ order ↔ s ∈ symbols) {w : ℚ} (hw : 0 < w)
    (hweights : ∀ n ∈ defaultRoster,
      loadWeights adaptive strategyWeights defaultRoster n = some (ofDecimal w))
    (hin : symbol ∈ symbols) (hhist : ∃ r ∈ table.rows, r.symbol = symbol) :
    ∃ (target : ℚ) (day : ℤ),
      (∃ a, computeTargets S cfg table symbols order nodup adaptive strategyWeights symbol =
        some a ∧ a.target = some target ∧ a.barDate = some day) ∧
      (∀ rows, closesIn rows symbol = closesOf S table symbol →
        ∃ e last, (EnsembleStrategy.default cfg).feedAll .exact rows = .ok (e, last) ∧
          last symbol = some target) ∧
      ∃ states, computeEnsemble .exact S cfg table symbols = .ok states ∧
        (∃ r ∈ states, r.symbol = symbol) ∧
        ∀ r ∈ states, r.symbol = symbol → r.targetWeight = ofDecimal target ∧ r.barTs = some day := by
  have hcloses : closesOf S table symbol ≠ [] := closesOf_ne_nil hhist
  obtain ⟨a, ha, htarget, hdate⟩ := computeTargets_exact S cfg nodup horder hw hweights hin hcloses
  obtain ⟨day, hday⟩ : ∃ day, (dailyCandles S table [symbol]).getLast?.map DailyCandle.day =
      some day := by
    rw [← getLast?_barsIn (List.mem_singleton_self symbol)]
    have hne : barsIn (dailyCandles S table [symbol]) symbol ≠ [] :=
      fun hnil => hcloses (by rw [closesOf, closesIn, hnil]; rfl)
    rw [List.getLast?_eq_some_getLast hne]
    exact ⟨_, rfl⟩
  refine ⟨_, day, ⟨a, ha, htarget, hdate.trans hday⟩, ?_, ?_⟩
  · intro rows hrows
    obtain ⟨e, last, hrun, -, hlast⟩ :=
      EnsembleStrategy.feedAll_exact (EnsembleStrategy.fed_default cfg) defaultSpecs_ne_nil rows
    rw [← hrows] at hcloses ⊢
    exact ⟨e, last, hrun, hlast symbol hcloses⟩
  · obtain ⟨states, hrun, hleft⟩ := exists_mapM_ok (l := symbols)
      (g := computeSymbol .exact S cfg table) fun s _ =>
        (computeSymbol_exact S cfg table s).imp fun _ h => h.1
    refine ⟨states, hrun, ?_, ?_⟩
    · obtain ⟨r, hr, hok⟩ := hleft symbol hin
      obtain ⟨r', hok', hname, -⟩ := computeSymbol_exact S cfg table symbol
      obtain rfl := Except.ok.inj (hok.symm.trans hok')
      exact ⟨r, hr, hname⟩
    · rintro r hr rfl
      obtain ⟨s, -, hok⟩ := exists_of_mem_mapM hrun hr
      obtain ⟨r', hok', hname, hbar, hweight⟩ := computeSymbol_exact S cfg table s
      obtain rfl := Except.ok.inj (hok.symm.trans hok')
      rw [← hname] at hbar hweight
      exact ⟨hweight hcloses, hbar.trans hday⟩

end Agreement

section Demo

attribute [local instance] PyFloat.rational

local instance rationalFloat_exact : ExactFloat ℚ := .ofField (fun _ => rfl) _ _

def demoSettings : TrendSettings ℚ where
  entryBand := 0
  volTarget := 2
  volLookback := 2
  maxWeight := 1
  regimeMaxVol := 10
  barsPerYear := 365

/-- One symbol rises for a hundred days and falls for three; another one has three candles, the
last of them a day later. -/
def demoRows : List DailyCandle :=
  ((List.range 103).map fun n : ℕ =>
    ⟨"KRW-ETH", 86400 * n, if n < 100 then 100 + n else 150⟩) ++
  (List.range 3).map fun n : ℕ => ⟨"KRW-BTC", 86400 * (n + 101), 300 - n⟩

theorem demoRows_nodup : (demoRows.map fun r => (r.windowStart, r.symbol)).Nodup := by
  rw [demoRows, List.map_append, List.map_map, List.map_map, List.nodup_append]
  refine ⟨List.nodup_range.map fun a b h => ?_, List.nodup_range.map fun a b h => ?_, ?_⟩
  · simpa using h
  · simpa using h
  · simp

def demoCandles : DailyCandles := ⟨demoRows, demoRows_nodup⟩

/-- The fastest of the three loads has left the market. -/
theorem targets_agree_demo : ∃ day : ℤ,
    (∃ a, computeTargets .insertion demoSettings demoCandles ["KRW-BTC", "KRW-ETH"]
        ["KRW-ETH", "KRW-BTC"] (by decide) false [] "KRW-ETH" = some a ∧
      a.target = some (2 / 3) ∧ a.barDate = some day) ∧
    (∀ rows, closesIn rows "KRW-ETH" = closesOf .insertion demoCandles "KRW-ETH" →
      ∃ e last, (EnsembleStrategy.default demoSettings).feedAll .exact rows = .ok (e, last) ∧
        last "KRW-ETH" = some (2 / 3)) ∧
    ∃ states, computeEnsemble .exact .insertion demoSettings demoCandles ["KRW-BTC", "KRW-ETH"] =
        .ok states ∧
      (∃ r ∈ states, r.symbol = "KRW-ETH") ∧
      ∀ r ∈ states, r.symbol = "KRW-ETH" → r.targetWeight = 2 / 3 ∧ r.barTs = some day := by
  obtain ⟨target, day, ⟨a, ha, htarget, hday⟩, hstrategy, hstates⟩ :=
    @targets_agree ℚ _ .insertion demoSettings demoCandles ["KRW-BTC", "KRW-ETH"]
      ["KRW-ETH", "KRW-BTC"] (by decide) false [] "KRW-ETH" _ (fun s => by simp [or_comm]) 1 one_pos
      (loadWeights_equal defaultRoster []) (by simp)
      ⟨⟨"KRW-ETH", 0, 100⟩, by simp [demoCandles, demoRows], rfl⟩
  have hvalue : ((computeTargets .insertion demoSettings demoCandles ["KRW-BTC", "KRW-ETH"]
      ["KRW-ETH", "KRW-BTC"] (by decide) false [] "KRW-ETH").bind fun a => a.target) =
        some (2 / 3) := by
    decide +kernel
  rw [ha, Option.bind_some, htarget] at hvalue
  obtain rfl := Option.some.inj hvalue
  exact ⟨day, ⟨a, ha, htarget, hday⟩, hstrategy, hstates⟩

end Demo

end QuantTrader.Rebalance
