import QuantTrader.Features.Joins

/-! # The other market as context

A Korean trading day is over before the American one of the same date begins, so
`cross_market` puts beside a Korean row the American market of the last date before
it. The context of a date is that of the Korean panel as it was at the end of the
date and of the American panel as it was at the end of the day before.
-/

namespace QuantTrader.Features

open Series Floats

section Market

variable {F : Type} [Floats F]

/-- The mean of the numbers of a group, NaN if there are none. -/
def groupMean (xs : List F) : F :=
  let vals := xs.filter fun x => !isNan x
  if vals.isEmpty then nan else mean vals

/-- The daily return of each row, in the order of symbols and dates. -/
def returns (S : Frames.Sorting) (p : Panel F) : List (Candle F × F) :=
  p.applyGroups S (beside Prod.mk ret).run

structure MarketDay (F : Type) where
  date : ℤ
  mktRet : F
  breadth : F

/-- The aggregation over the symbols of a date. -/
def marketDay (rows : List (Candle F × F)) (date : ℤ) : MarketDay F :=
  let rets := (rows.filter fun r => r.1.date = date).map Prod.snd
  ⟨date, groupMean rets, mean (rets.map positive)⟩

def marketColumns : List (String × Causal (MarketDay F) F) :=
  let mkt := Causal.map MarketDay.mktRet
  [("usx_mkt_ret", mkt),
    ("usx_breadth", .map MarketDay.breadth),
    ("usx_ret5", rolling 5 3 sum mkt),
    ("usx_ret21", rolling 21 10 sum mkt),
    ("usx_vol21", rolling 21 10 std mkt)]

/-- A date of the market with its columns. -/
structure MarketRow (F : Type) where
  date : ℤ
  mktRet : F
  values : List (String × F)

/-- The columns of the market beside its days, in the order of the dates. -/
def marketTable : Causal (MarketDay F) (MarketRow F) :=
  .zipWith (fun m values => ⟨m.date, m.mktRet, values⟩) (.map id) (.table marketColumns)

/-- `us_market_daily`. -/
def usMarketDaily (S : Frames.Sorting) (us : Panel F) : List (MarketRow F) :=
  let rows := returns S us
  marketTable.run ((Frames.groupKeys (fun r => r.1.date) rows).map (marketDay rows))

/-- A Korean row with its own return and that of the American market before it. -/
structure Paired (F : Type) where
  symbol : String
  date : ℤ
  krRet : F
  usRet : F

/-- `_b`: the sensitivity and the correlation over a window. -/
def betaOf (win : ℕ) : Causal (Paired F) (FeatureRow F) :=
  let x := Causal.map Paired.usRet
  let y := Causal.map Paired.krRet
  let cov := rollingPair win (win / 2) cov y x
  let var := rolling win (win / 2) var x
  let corr := rollingPair win (win / 2) corr y x
  .zipWith (fun r values => ⟨r.symbol, r.date, values⟩) (.map id)
    (.table [("usx_beta", cov / (var + EPS)), ("usx_corr", corr)])

/-- The row of `us_beta` before it is grouped. -/
def pairUp (e : (Candle F × F) × Option (MarketRow F)) : Paired F :=
  ⟨e.1.1.symbol, e.1.1.date, e.1.2, (e.2.map MarketRow.mktRet).getD nan⟩

/-- `us_beta`. -/
def usBeta (S : Frames.Sorting) (kr : Panel F) (usm : List (MarketRow F)) (win : ℕ) :
    List (FeatureRow F) :=
  let joined := Frames.mergeAsof S (fun r => r.1.date) MarketRow.date (returns S kr) usm
  Frames.applyGroups S Paired.symbol Paired.date (joined.map pairUp) (betaOf win).run

/-- The columns of the market beside a row, NaN before its first date. -/
def withMarket (e : FeatureRow F × Option (MarketRow F)) : FeatureRow F :=
  { e.1 with
    values := e.1.values ++
      (e.2.map MarketRow.values).getD ((marketColumns (F := F)).map fun col => (col.1, nan)) }

/-- `attach_us_context`. -/
def attachUsContext (S : Frames.Sorting) (feats : List (FeatureRow F)) (kr us : Panel F) :
    List (FeatureRow F) :=
  let usm := usMarketDaily S us
  let merged := (Frames.mergeAsof S FeatureRow.date MarketRow.date feats usm).map withMarket
  mergeLeft ["usx_beta", "usx_corr"] merged (usBeta S kr usm 60)

end Market

section UpTo

variable {F : Type} [Floats F] {S : Frames.Sorting} {p kr us : Panel F} {d : ℤ}
  {rows : List (Candle F × F)} {usm : List (MarketRow F)}

theorem returns_upTo : returns S (p.upTo d) = (returns S p).filter fun r => r.1.date ≤ d :=
  applyGroups_upTo ret fun _ _ => rfl

theorem marketDay_upTo {t : ℤ} (ht : t ≤ d) :
    marketDay (rows.filter fun r => r.1.date ≤ d) t = marketDay rows t := by
  have hsame : (rows.filter fun r => r.1.date ≤ d).filter (fun r => r.1.date = t) =
      rows.filter fun r => r.1.date = t := by
    rw [List.filter_filter]
    refine List.filter_congr fun r _ => ?_
    by_cases hr : r.1.date = t
    · simp [hr, ht]
    · simp [hr]
  rw [marketDay, marketDay, hsame]

theorem map_marketTable (l : List (MarketDay F)) :
    (marketTable.run l).map MarketRow.date = l.map MarketDay.date :=
  calc (marketTable.run l).map MarketRow.date
      = ((Causal.map id).run l).map MarketDay.date :=
        Causal.map_run_zipWith (g := MarketRow.date) (.map id) (.table marketColumns)
          (fun _ _ => by rfl) l
    _ = l.map MarketDay.date := congrArg (List.map MarketDay.date) (List.map_id l)

theorem map_date_usMarketDaily : (usMarketDaily S us).map MarketRow.date =
    Frames.groupKeys (fun r => r.1.date) (returns S us) := by
  rw [usMarketDaily, map_marketTable, List.map_map]
  exact List.map_id _

theorem usMarketDaily_nodup : ((usMarketDaily S us).map MarketRow.date).Nodup := by
  rw [map_date_usMarketDaily]
  exact Frames.groupKeys_pairwise.imp fun h => h.ne

/-- The market up to a date is that of the panel as it was at the end of the date. -/
theorem usMarketDaily_upTo :
    usMarketDaily S (us.upTo d) = (usMarketDaily S us).filter fun m => m.date ≤ d := by
  have hdays : (Frames.groupKeys (fun r => r.1.date) (returns S (us.upTo d))).map
        (marketDay (returns S (us.upTo d))) =
      ((Frames.groupKeys (fun r => r.1.date) (returns S us)).map (marketDay (returns S us))).filter
        fun m => m.date ≤ d := by
    rw [returns_upTo, Frames.times_upTo, List.filter_map]
    refine List.map_congr_left fun t ht => ?_
    exact marketDay_upTo (of_decide_eq_true (List.mem_filter.mp ht).2)
  rw [usMarketDaily, hdays, usMarketDaily]
  refine marketTable.run_filter ?_ ?_
  · have := congrArg (List.map fun t => decide (t ≤ d)) (map_marketTable
      ((Frames.groupKeys (fun r => r.1.date) (returns S us)).map (marketDay (returns S us))))
    rwa [List.map_map, List.map_map] at this
  · rw [List.pairwise_map]
    refine Frames.groupKeys_pairwise.imp fun hab hb => ?_
    exact decide_eq_true (hab.le.trans (of_decide_eq_true hb))

theorem usMarketDaily_before : usMarketDaily S (us.upTo (d - 1)) =
    (usMarketDaily S us).filter fun m => m.date < d := by
  rw [usMarketDaily_upTo]
  exact List.filter_congr fun m _ => decide_eq_decide.mpr Int.le_sub_one_iff

theorem returns_keyed : Frames.Keyed (fun r : Candle F × F => r.1.symbol) (fun r => r.1.date)
    (returns S p) := by
  have hp : ((returns S p).map fun r => (r.1.symbol, r.1.date)).Perm
      (p.rows.map fun r => (r.symbol, r.date)) :=
    Frames.map_applyGroups_perm p.keyed fun l => map_beside (fun _ _ => by rfl) l
  exact hp.nodup_iff.mpr p.keyed

/-- The rows of `us_beta` before they are grouped. -/
def paired (S : Frames.Sorting) (kr : Panel F) (usm : List (MarketRow F)) : List (Paired F) :=
  (Frames.mergeAsof S (fun r => r.1.date) MarketRow.date (returns S kr) usm).map pairUp

theorem paired_keyed : Frames.Keyed Paired.symbol Paired.date (paired S kr usm) := by
  have hp : ((paired S kr usm).map fun r => (r.symbol, r.date)).Perm
      ((returns S kr).map fun r => (r.1.symbol, r.1.date)) := by
    rw [paired, List.map_map]
    have hfst : ((Frames.mergeAsof S (fun r => r.1.date) MarketRow.date (returns S kr) usm).map
        Prod.fst).Perm (returns S kr) := Frames.mergeAsof_fst_perm
    have hmap := hfst.map fun r => (r.1.symbol, r.1.date)
    rwa [List.map_map] at hmap
  exact hp.nodup_iff.mpr returns_keyed

theorem paired_upTo (hn : (usm.map MarketRow.date).Nodup) :
    (paired S (kr.upTo d) (usm.filter fun m => m.date < d)).Perm
      ((paired S kr usm).filter fun r => r.date ≤ d) := by
  rw [paired, paired, List.filter_map]
  exact (Frames.mergeAsof_upTo hn (.of_eq returns_upTo)).map pairUp

theorem usBeta_upTo {win : ℕ} (hn : (usm.map MarketRow.date).Nodup) :
    usBeta S (kr.upTo d) (usm.filter fun m => m.date < d) win =
      (usBeta S kr usm win).filter fun r => r.date ≤ d := by
  have hdate : ∀ l, ((betaOf (F := F) win).run l).map FeatureRow.date = l.map Paired.date := by
    intro l
    calc ((betaOf win).run l).map FeatureRow.date
        = ((Causal.map id).run l).map Paired.date :=
          Causal.map_run_zipWith (g := FeatureRow.date) (.map id) (.table _) (fun _ _ => by rfl) l
      _ = l.map Paired.date := congrArg (List.map Paired.date) (List.map_id l)
  have hkeyed : Frames.Keyed Paired.symbol Paired.date (paired S kr usm) := paired_keyed
  have hperm := Frames.applyGroups_perm (S := S) (hkeyed.filter fun r => r.date ≤ d)
    (paired_upTo hn).symm (betaOf win).run
  exact hperm.symm.trans (Frames.applyGroups_upTo hkeyed (betaOf win) FeatureRow.date hdate)

/-- The context of a date is that of the Korean panel up to it and the American one before it. -/
theorem attachUsContext_upTo {feats feats' : List (FeatureRow F)}
    (hp : feats'.Perm (feats.filter fun r => r.date ≤ d)) :
    (attachUsContext S feats' (kr.upTo d) (us.upTo (d - 1))).Perm
      ((attachUsContext S feats kr us).filter fun r => r.date ≤ d) := by
  have hn : ((usMarketDaily S us).map MarketRow.date).Nodup := usMarketDaily_nodup
  have hmerged : ((Frames.mergeAsof S FeatureRow.date MarketRow.date feats'
        ((usMarketDaily S us).filter fun m => m.date < d)).map withMarket).Perm
      (((Frames.mergeAsof S FeatureRow.date MarketRow.date feats (usMarketDaily S us)).map
        withMarket).filter fun r => r.date ≤ d) := by
    rw [List.filter_map]
    exact (Frames.mergeAsof_upTo hn hp).map withMarket
  rw [attachUsContext, usMarketDaily_before, usBeta_upTo hn]
  exact mergeLeft_upTo hmerged

end UpTo

end QuantTrader.Features
