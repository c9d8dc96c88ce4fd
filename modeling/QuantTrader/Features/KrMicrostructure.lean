import QuantTrader.Features.Joins
import QuantTrader.Krx.Microstructure

/-! # Korean microstructure

The exchange settles the flows, foreign holdings and short sales of a date after its
close, so `daily_kr_microstructure_from_store` puts beside a row what they were on the
last date before it. The cells of a date are computed from rows of the days before.
-/

namespace QuantTrader.Features

open Series Floats
open Krx (FlowRow FlowNets ShortRow)

/-- The Korean tables read with `FINAL`: one row for a symbol and a date, of the flows one for
each investor. -/
structure KrxTables (F : Type) where
  flow : List (FlowRow F)
  holding : List (Krx.HoldingRow F)
  short : List (ShortRow F)
  holdingKeyed : Frames.Keyed Krx.HoldingRow.symbol Krx.HoldingRow.date holding
  shortKeyed : Frames.Keyed ShortRow.symbol ShortRow.date short

section Columns

variable {F : Type} [Floats F] {α : Type}

instance instZeroFloats : Zero F := ⟨ofRat 0⟩

/-- A date with its columns. -/
structure Dated (F : Type) where
  date : ℤ
  values : List (String × F)

/-- Columns beside the dates of their rows. -/
def dated (date : α → ℤ) (cols : List (String × Causal α F)) : Causal α (Dated F) :=
  .zipWith Dated.mk (.map date) (.table cols)

/-- `_asof_excl`, on rows in the order of their dates. -/
def asofExcl (S : Frames.Sorting) (date : α → ℤ) (cols : List (String × Causal α F))
    (rows : List α) (t : ℤ) : List (String × F) :=
  ((Frames.lastBefore S Dated.date ((dated date cols).run rows) t).map Dated.values).getD
    (cols.map fun col => (col.1, nan))

/-! ## Flows -/

/-- A sum over a cell of the pivot table skips NaN. -/
def skipNan (r : FlowRow F) : FlowRow F :=
  { r with netValue := if isNan r.netValue then 0 else r.netValue }

/-- A date of the flows of a symbol or of its candles, NaN where one of the two lacks it. -/
structure FlowDay (F : Type) where
  date : ℤ
  foreignNet : F
  instNet : F
  pensionNet : F
  dvol : F

/-- The outer merge of the flows of a symbol and its traded values. -/
def flowDays (nets : List (FlowNets F)) (g : List (Candle F)) : List (FlowDay F) :=
  (Frames.groupKeys id (nets.map FlowNets.date ++ g.map Candle.date)).map fun t =>
    let n := nets.find? fun n => n.date = t
    let r := g.find? fun r => r.date = t
    ⟨t, n.elim nan FlowNets.foreignNet, n.elim nan FlowNets.instNet, n.elim nan FlowNets.pensionNet,
      r.elim nan fun r => r.close * r.volume⟩

def flowColumns : List (String × Causal (FlowDay F) F) :=
  let den := rolling 20 10 sum (.map FlowDay.dvol)
  let flow20 := fun src : FlowDay F → F => rolling 20 10 sum (.map src) / (den + EPS)
  [("kr_foreign_flow20", flow20 FlowDay.foreignNet),
    ("kr_inst_flow20", flow20 FlowDay.instNet),
    ("kr_pension_flow20", flow20 FlowDay.pensionNet)]

/-! ## Holdings and short sales -/

def holdingColumns : List (String × Causal (Krx.HoldingRow F) F) :=
  let ratio := Causal.map Krx.HoldingRow.holdingRatio
  [("kr_fh_ratio", ratio), ("kr_fh_chg20", ratio - shift 20 ratio)]

/-- A balance is published two days later, so it is shifted by one more row. -/
def shortColumns : List (String × Causal (ShortRow F) F) :=
  let bal := Causal.map ShortRow.shortBalanceRatio
  [("kr_short_bal_ratio", shift 1 bal),
    ("kr_short_bal_chg20", shift 1 (bal - shift 20 bal)),
    ("kr_short_vol_ratio", .map ShortRow.shortVolumeRatio)]

/-! ## The frame -/

section Frame

variable (S : Frames.Sorting) (k : KrxTables F) (nets : List (FlowNets F)) (p : Panel F)
  (symbol : String)

def flowBy : List (FlowNets F) := nets.filter fun n => n.symbol = symbol

def holdBy : List (Krx.HoldingRow F) :=
  Frames.group S Krx.HoldingRow.symbol Krx.HoldingRow.date k.holding symbol

def shortBy : List (ShortRow F) := Frames.group S ShortRow.symbol ShortRow.date k.short symbol

def Panel.bars : List (Candle F) := Frames.group S Candle.symbol Candle.date p.rows symbol

/-- The columns of the frame of a symbol, those of the tables that have it. -/
def microColumns : List String :=
  (if (flowBy nets symbol).isEmpty then [] else (flowColumns (F := F)).map Prod.fst) ++
    (if (holdBy S k symbol).isEmpty then [] else (holdingColumns (F := F)).map Prod.fst) ++
      if (shortBy S k symbol).isEmpty then [] else (shortColumns (F := F)).map Prod.fst

/-- The cells of a symbol at a date. -/
def microCells (date : ℤ) : List (String × F) :=
  asofExcl S FlowDay.date flowColumns (flowDays (flowBy nets symbol) (p.bars S symbol)) date ++
    asofExcl S Krx.HoldingRow.date holdingColumns (holdBy S k symbol) date ++
      asofExcl S ShortRow.date shortColumns (shortBy S k symbol) date

/-- The frames of the symbols of the panel one after another; a cell of a column that the frame of
its symbol lacks is NaN. -/
def microFrame : Table F :=
  let names := ((Frames.groupKeys Candle.symbol p.rows).flatMap (microColumns S k nets)).eraseDups
  ⟨names, perRow S p fun r => some <| names.map fun name =>
    (name, if name ∈ microColumns S k nets r.symbol then
      ((microCells S k nets p r.symbol r.date).lookup name).getD nan else nan)⟩

/-- `daily_kr_microstructure_from_store`. -/
def dailyKrMicrostructureFromStore : Except String (Table F) :=
  if k.flow.isEmpty && k.holding.isEmpty && k.short.isEmpty then .ok ⟨[], []⟩
  else do
    let nets ← Krx.flowNets (k.flow.map skipNan)
    return microFrame S k nets p

end Frame

/-- The tables as they were at the end of a date. -/
def KrxTables.upTo (k : KrxTables F) (d : ℤ) : KrxTables F where
  flow := Krx.flowUpTo d k.flow
  holding := k.holding.filter fun r => r.date ≤ d
  short := k.short.filter fun r => r.date ≤ d
  holdingKeyed := k.holdingKeyed.filter _
  shortKeyed := k.shortKeyed.filter _

/-- Every investor of the flows has traded by a date. -/
def KrxTables.Begun (k : KrxTables F) (d : ℤ) : Prop :=
  ∀ i ∈ Krx.columns k.flow, i ∈ Krx.columns (k.upTo d).flow

end Columns

section UpTo

variable {F : Type} [Floats F] {S : Frames.Sorting} {k : KrxTables F} {nets : List (FlowNets F)}
  {p : Panel F} {symbol : String} {d t : ℤ} {α : Type} {date : α → ℤ}
  {cols : List (String × Causal α F)} {rows : List α}

/-! ## Lookups -/

omit [Floats F] in
theorem map_dated (l : List α) : ((dated date cols).run l).map Dated.date = l.map date :=
  calc ((dated date cols).run l).map Dated.date
      = ((Causal.map date).run l).map id :=
        Causal.map_run_zipWith (g := Dated.date) (.map date) (.table cols) (fun _ _ => by rfl) l
    _ = l.map date := List.map_id _

/-- What was last before a date is computed from the rows of the days before it. -/
theorem asofExcl_upTo (hn : (rows.map date).Nodup)
    (hs : rows.Pairwise fun a b => date a ≤ date b) (ht : t ≤ d) :
    asofExcl S date cols (rows.filter fun a => date a ≤ d - 1) t =
      asofExcl S date cols rows t := by
  have hrun : (dated date cols).run (rows.filter fun a => date a ≤ d - 1) =
      ((dated date cols).run rows).filter fun b => b.date < d := by
    have hcut : ((dated date cols).run rows).filter (fun b => b.date < d) =
        ((dated date cols).run rows).filter fun b => b.date ≤ d - 1 :=
      List.filter_congr fun b _ => decide_eq_decide.mpr Int.le_sub_one_iff.symm
    rw [hcut]
    refine (dated date cols).run_filter ?_ (hs.imp fun hab hb => ?_)
    · have := congrArg (List.map fun t : ℤ => decide (t ≤ d - 1))
        (map_dated rows : ((dated date cols).run rows).map Dated.date = rows.map date)
      rwa [List.map_map, List.map_map] at this
    · exact decide_eq_true (hab.trans (of_decide_eq_true hb))
  have hdates : (((dated date cols).run rows).map Dated.date).Nodup := by rwa [map_dated]
  unfold asofExcl
  rw [hrun, Frames.lastBefore_of_le hdates ht]

omit [Floats F] in
theorem group_dates_nodup {key : α → String} (h : Frames.Keyed key date rows) :
    ((Frames.group S key date rows symbol).map date).Nodup := by
  have hgroup : (Frames.group S key date rows symbol).Nodup :=
    (S.perm _ _).nodup_iff.mpr (h.of_map.filter _)
  refine List.Nodup.map_on (fun a ha b hb hab => ?_) hgroup
  obtain ⟨ha, hka⟩ := Frames.mem_group.mp ha
  obtain ⟨hb, hkb⟩ := Frames.mem_group.mp hb
  exact h.eq ha hb (hka.trans hkb.symm) hab

/-! ## Flows -/

theorem map_date_flowDays {g : List (Candle F)} :
    (flowDays nets g).map FlowDay.date =
      Frames.groupKeys id (nets.map FlowNets.date ++ g.map Candle.date) := by
  rw [flowDays, List.map_map]
  exact List.map_id _

theorem flowDays_upTo {g : List (Candle F)} :
    (flowDays nets g).filter (fun r => r.date ≤ d) =
      flowDays (nets.filter fun n => n.date ≤ d) (g.filter fun r => r.date ≤ d) := by
  have hdates : (nets.filter fun n => n.date ≤ d).map FlowNets.date ++
      (g.filter fun r => r.date ≤ d).map Candle.date =
        (nets.map FlowNets.date ++ g.map Candle.date).filter fun t => id t ≤ d := by
    rw [List.filter_append, List.filter_map, List.filter_map]
    rfl
  rw [flowDays, flowDays, hdates, Frames.times_upTo, List.filter_map]
  refine List.map_congr_left fun t ht => ?_
  have ht : t ≤ d := of_decide_eq_true (List.mem_filter.mp ht).2
  have hnets : (nets.filter fun n => n.date ≤ d).find? (fun n => n.date = t) =
      nets.find? fun n => n.date = t :=
    Frames.find?_upTo fun n hn => (of_decide_eq_true hn) ▸ ht
  have hbars : (g.filter fun r => r.date ≤ d).find? (fun r => r.date = t) =
      g.find? fun r => r.date = t := Frames.find?_upTo fun r hr => (of_decide_eq_true hr) ▸ ht
  rw [hnets, hbars]

theorem mem_run_rolling {w minPeriods : ℕ} {stat : List F → F} {x : Causal α F}
    (hmin : 0 < minPeriods) (h : ∀ b ∈ x.run rows, b = nan) :
    ∀ b ∈ (rolling w minPeriods stat x).run rows, b = nan := by
  intro b hb
  obtain ⟨i, -, rfl⟩ := List.mem_map.mp hb
  have hfinite : (((x.run rows).take (i + 1)).drop
      (((x.run rows).take (i + 1)).length - w)).filter isFinite = [] := by
    refine List.filter_eq_nil_iff.mpr fun c hc => ?_
    rw [h c (List.mem_of_mem_take (List.mem_of_mem_drop hc)), isFinite_nan]
    exact Bool.false_ne_true
  dsimp only
  rw [hfinite]
  exact if_pos hmin

theorem mem_run_div {x y : Causal α F} (h : ∀ b ∈ x.run rows, b = nan) :
    ∀ b ∈ (x / y).run rows, b = nan := by
  intro b hb
  obtain ⟨c, hc, c', -, rfl⟩ := Causal.exists_of_mem_zipWith hb
  rw [h c hc, nan_div]

theorem mem_run_flowColumns {g : List (Candle F)} :
    ∀ col ∈ flowColumns (F := F), ∀ b ∈ col.2.run (flowDays [] g), b = nan := by
  have hsrc : ∀ src : FlowDay F → F, (∀ r ∈ flowDays [] g, src r = nan) →
      ∀ b ∈ (rolling 20 10 sum (.map src) /
        (rolling 20 10 sum (.map FlowDay.dvol) + EPS)).run (flowDays [] g), b = nan := by
    intro src hnan
    refine mem_run_div (mem_run_rolling (by decide) fun b hb => ?_)
    obtain ⟨r, hr, rfl⟩ := List.mem_map.mp hb
    exact hnan r hr
  have hday : ∀ r ∈ flowDays [] g, r.foreignNet = nan ∧ r.instNet = nan ∧ r.pensionNet = nan := by
    intro r hr
    obtain ⟨t, -, rfl⟩ := List.mem_map.mp hr
    exact ⟨rfl, rfl, rfl⟩
  intro col hcol
  simp only [flowColumns, List.mem_cons, List.not_mem_nil, or_false] at hcol
  rcases hcol with rfl | rfl | rfl
  · exact hsrc _ fun r hr => (hday r hr).1
  · exact hsrc _ fun r hr => (hday r hr).2.1
  · exact hsrc _ fun r hr => (hday r hr).2.2

/-! ## The cells of a symbol -/

/-- A lookup that finds NaN at most. -/
def Blank (cells : List (String × F)) (name : String) : Prop :=
  cells.lookup name = none ∨ cells.lookup name = some nan

theorem Blank.append {cells cells' : List (String × F)} {name : String} (h : Blank cells name)
    (h' : Blank cells' name) : Blank (cells ++ cells') name := by
  unfold Blank
  rw [List.lookup_append]
  rcases h with h | h
  · rwa [h, Option.none_or]
  · rw [h, Option.some_or]
    exact .inr rfl

theorem Blank.getD {cells : List (String × F)} {name : String} (h : Blank cells name) :
    (cells.lookup name).getD nan = nan := by
  rcases h with h | h
  · rw [h, Option.getD_none]
  · rw [h, Option.getD_some]

theorem blank_nan {name : String} : Blank (cols.map fun col => (col.1, (nan : F))) name := by
  induction cols with
  | nil => exact .inl rfl
  | cons col cols ih =>
    unfold Blank
    rw [List.map_cons, List.lookup_cons]
    split
    · exact .inr rfl
    · exact ih

omit [Floats F] in
theorem values_mem_table {b : Dated F} (h : b ∈ (dated date cols).run rows) :
    b.values ∈ (Causal.table cols).run rows := by
  obtain ⟨t, -, values, hvalues, rfl⟩ := Causal.exists_of_mem_zipWith h
  exact hvalues

theorem asofExcl_cases : asofExcl S date cols rows t = (cols.map fun col => (col.1, nan)) ∨
    asofExcl S date cols rows t ∈ (Causal.table cols).run rows := by
  unfold asofExcl
  cases hlast : Frames.lastBefore S Dated.date ((dated date cols).run rows) t with
  | none => exact .inl rfl
  | some b =>
    have hmem : b ∈ (dated date cols).run rows :=
      Frames.Sorting.mem_sort.mp (List.mem_of_mem_filter (List.mem_of_getLast? hlast))
    exact .inr (values_mem_table hmem)

theorem asofExcl_of_nan (h : ∀ col ∈ cols, ∀ b ∈ col.2.run rows, b = nan) :
    asofExcl S date cols rows t = cols.map fun col => (col.1, nan) := by
  have hcases : asofExcl S date cols rows t = _ ∨ asofExcl S date cols rows t ∈ _ :=
    asofExcl_cases
  rcases hcases with heq | hmem
  · exact heq
  · exact Causal.eq_of_mem_table h hmem

theorem map_fst_asofExcl :
    (asofExcl S date cols rows t).map Prod.fst = cols.map Prod.fst := by
  have hcases : asofExcl S date cols rows t = _ ∨ asofExcl S date cols rows t ∈ _ :=
    asofExcl_cases
  rcases hcases with heq | hmem
  · rw [heq, List.map_map]
    rfl
  · exact Causal.map_fst_of_mem_table hmem

theorem blank_asofExcl {name : String}
    (h : name ∉ cols.map Prod.fst ∨ ∀ col ∈ cols, ∀ b ∈ col.2.run rows, b = nan) :
    Blank (asofExcl S date cols rows t) name := by
  rcases h with hname | hnan
  · left
    have hnames : (asofExcl S date cols rows t).map Prod.fst = cols.map Prod.fst :=
      map_fst_asofExcl
    refine List.lookup_eq_none_iff.mpr fun col hcol => bne_iff_ne.mpr ?_
    rintro rfl
    exact hname (hnames ▸ List.mem_map_of_mem hcol)
  · rw [asofExcl_of_nan hnan]
    exact blank_nan

omit [Floats F] in
theorem run_of_isEmpty [Floats F] (h : rows.isEmpty) :
    ∀ col ∈ cols, ∀ b ∈ col.2.run rows, b = (nan : F) := by
  intro col _ b hb
  have hlen := col.2.length_run rows
  rw [List.isEmpty_iff.mp h, List.length_nil, List.length_eq_zero_iff] at hlen
  rw [List.isEmpty_iff.mp h, hlen] at hb
  cases hb

theorem microCells_of_not_mem {name : String} (h : name ∉ microColumns S k nets symbol) :
    ((microCells S k nets p symbol t).lookup name).getD nan = nan := by
  simp only [microColumns, List.mem_append, not_or] at h
  obtain ⟨⟨hflow, hhold⟩, hshort⟩ := h
  refine Blank.getD ((Blank.append ?_ ?_).append ?_)
  · refine blank_asofExcl ?_
    split_ifs at hflow with hempty
    · rw [List.isEmpty_iff.mp hempty]
      exact .inr mem_run_flowColumns
    · exact .inl hflow
  · refine blank_asofExcl ?_
    split_ifs at hhold with hempty
    · exact .inr (run_of_isEmpty hempty)
    · exact .inl hhold
  · refine blank_asofExcl ?_
    split_ifs at hshort with hempty
    · exact .inr (run_of_isEmpty hempty)
    · exact .inl hshort

/-- The cells of a date are computed from the flows, holdings and short sales of the days before
it. -/
theorem microCells_upTo (ht : t ≤ d) :
    microCells S (k.upTo (d - 1)) (nets.filter fun n => n.date ≤ d - 1) (p.upTo d) symbol t =
      microCells S k nets p symbol t := by
  have hdates : ∀ (nets : List (FlowNets F)) (g : List (Candle F)),
      ((flowDays nets g).map FlowDay.date).Nodup ∧
        (flowDays nets g).Pairwise fun a b => a.date ≤ b.date := by
    intro nets g
    have hsorted : ((flowDays nets g).map FlowDay.date).Pairwise (· < ·) := by
      rw [map_date_flowDays]
      exact Frames.groupKeys_pairwise
    exact ⟨hsorted.imp fun h => h.ne, (List.pairwise_map.mp hsorted).imp fun h => h.le⟩
  have hcut : ∀ (nets : List (FlowNets F)) (g : List (Candle F)),
      asofExcl S FlowDay.date flowColumns (flowDays (nets.filter fun n => n.date ≤ d - 1)
        (g.filter fun r => r.date ≤ d - 1)) t =
          asofExcl S FlowDay.date flowColumns (flowDays nets g) t := by
    intro nets g
    rw [← flowDays_upTo]
    exact asofExcl_upTo (hdates nets g).1 (hdates nets g).2 ht
  have hbars : ((p.upTo d).bars S symbol).filter (fun r => r.date ≤ d - 1) =
      (p.bars S symbol).filter fun r => r.date ≤ d - 1 := by
    rw [Panel.bars, Panel.upTo, Frames.group_upTo p.keyed, List.filter_filter]
    refine List.filter_congr fun r _ => ?_
    by_cases hr : r.date ≤ d - 1
    · simp [hr, hr.trans (Int.sub_le_self d (by decide))]
    · simp [hr]
  have hnets : (flowBy (nets.filter fun n => n.date ≤ d - 1) symbol).filter
      (fun n => n.date ≤ d - 1) = (flowBy nets symbol).filter fun n => n.date ≤ d - 1 := by
    simp only [flowBy, List.filter_filter]
    refine List.filter_congr fun n _ => ?_
    by_cases hn : n.date ≤ d - 1 <;> simp [hn]
  have hflow : asofExcl S FlowDay.date flowColumns
      (flowDays (flowBy (nets.filter fun n => n.date ≤ d - 1) symbol)
        ((p.upTo d).bars S symbol)) t =
      asofExcl S FlowDay.date flowColumns (flowDays (flowBy nets symbol) (p.bars S symbol)) t := by
    rw [← hcut, hnets, hbars, hcut]
  have hhold : asofExcl S Krx.HoldingRow.date holdingColumns (holdBy S (k.upTo (d - 1)) symbol) t =
      asofExcl S Krx.HoldingRow.date holdingColumns (holdBy S k symbol) t := by
    rw [holdBy, KrxTables.upTo, Frames.group_upTo k.holdingKeyed]
    exact asofExcl_upTo (group_dates_nodup k.holdingKeyed) Frames.group_pairwise ht
  have hshort : asofExcl S ShortRow.date shortColumns (shortBy S (k.upTo (d - 1)) symbol) t =
      asofExcl S ShortRow.date shortColumns (shortBy S k symbol) t := by
    rw [shortBy, KrxTables.upTo, Frames.group_upTo k.shortKeyed]
    exact asofExcl_upTo (group_dates_nodup k.shortKeyed) Frames.group_pairwise ht
  rw [microCells, microCells, hflow, hhold, hshort]

/-! ## The frame -/

theorem microFrame_empty : (microFrame S k nets p).rows = [] →
    (microFrame S k nets p).columns = [] := by
  intro hrows
  have hordered : p.ordered S = [] := by
    rw [microFrame, perRow, List.filterMap_eq_nil_iff] at hrows
    exact List.eq_nil_iff_forall_not_mem.mpr fun r hr => Option.some_ne_none _ (hrows r hr)
  have hpanel : p.rows = [] := by
    have hp : ((p.ordered S).map fun r => (r.symbol, r.date)).Perm
        (p.rows.map fun r => (r.symbol, r.date)) := map_ordered_perm
    rw [hordered] at hp
    exact List.map_eq_nil_iff.mp hp.nil_eq.symm
  rw [microFrame, hpanel]
  rfl

/-- Up to a date the frame is that of the days before it, once it has its columns. -/
theorem microFrame_upTo
    (hcols : (microFrame S (k.upTo (d - 1)) (nets.filter fun n => n.date ≤ d - 1)
      (p.upTo d)).columns = (microFrame S k nets p).columns) :
    (microFrame S (k.upTo (d - 1)) (nets.filter fun n => n.date ≤ d - 1) (p.upTo d)).Agree d
      (microFrame S k nets p) := by
  refine ⟨hcols, fun symbol date hd => ?_⟩
  have hrows : (microFrame S (k.upTo (d - 1)) (nets.filter fun n => n.date ≤ d - 1)
      (p.upTo d)).rows = perRow S (p.upTo d) fun r =>
        some ((microFrame S k nets p).columns.map fun name =>
          (name, if name ∈ microColumns S (k.upTo (d - 1)) (nets.filter fun n => n.date ≤ d - 1)
            r.symbol then ((microCells S (k.upTo (d - 1)) (nets.filter fun n => n.date ≤ d - 1)
              (p.upTo d) r.symbol r.date).lookup name).getD nan else nan)) := by
    rw [← hcols]
    rfl
  have hcell : ∀ {k : KrxTables F} {nets : List (FlowNets F)} {p : Panel F} {symbol name : String}
      {t : ℤ}, (if name ∈ microColumns S k nets symbol then
        ((microCells S k nets p symbol t).lookup name).getD nan else nan) =
          ((microCells S k nets p symbol t).lookup name).getD nan := by
    intro k nets p symbol name t
    split_ifs with hname
    · rfl
    · exact (microCells_of_not_mem hname).symm
  rw [hcols, hrows]
  refine partner_perRow_upTo hd fun r hr => ?_
  rw [Option.getD_some, Option.getD_some]
  refine List.map_congr_left fun name _ => ?_
  rw [hcell, hcell, microCells_upTo hr]

theorem partner_microFrame_nil {s : String} (h : (microFrame S k nets p).columns = []) :
    partner (microFrame S k nets p).columns (microFrame S k nets p).rows s t = [] := by
  have hrows : (microFrame S k nets p).rows = perRow S p fun _ => some [] := by
    unfold microFrame at h ⊢
    dsimp only at h ⊢
    simp only [h, List.map_nil]
  rw [h, hrows, partner_perRow]
  cases (p.ordered S).find? fun r => r.symbol = s ∧ r.date = t with
  | none => rfl
  | some r => rfl

theorem columns_skipNan {flow : List (FlowRow F)} :
    Krx.columns (flow.map skipNan) = Krx.columns flow := by
  rw [Krx.columns, List.map_map]
  rfl

theorem flowNets_skipNan_upTo (h : k.Begun d) : Krx.flowNets ((k.upTo d).flow.map skipNan) =
    (Krx.flowNets (k.flow.map skipNan)).map (List.filter fun n => n.date ≤ d) := by
  have hrows : (k.upTo d).flow.map skipNan = Krx.flowUpTo d (k.flow.map skipNan) := by
    rw [KrxTables.upTo, Krx.flowUpTo, Krx.flowUpTo, List.filter_map]
    rfl
  rw [hrows]
  refine Krx.flowNets_upTo fun i hi => ?_
  rw [← hrows, columns_skipNan]
  rw [columns_skipNan] at hi
  exact h i hi

theorem exists_agree_microFrame {u : Table F} (h : dailyKrMicrostructureFromStore S k p = .ok u) :
    ∃ nets, Krx.flowNets (k.flow.map skipNan) = .ok nets ∧
      ∀ d, u.Agree d (microFrame S k nets p) := by
  unfold dailyKrMicrostructureFromStore at h
  split_ifs at h with hempty
  · cases h
    simp only [Bool.and_eq_true, List.isEmpty_iff] at hempty
    obtain ⟨⟨hflow, hholding⟩, hshort⟩ := hempty
    have hnone : ∀ s, microColumns S k [] s = [] := by
      intro s
      have hhold : holdBy S k s = [] := by
        rw [holdBy, Frames.group, hholding]
        exact (S.perm _ _).eq_nil
      have hshort : shortBy S k s = [] := by
        rw [shortBy, Frames.group, hshort]
        exact (S.perm _ _).eq_nil
      rw [microColumns, hhold, hshort]
      rfl
    have hcols : (microFrame S k [] p).columns = [] := by
      have hflat : (Frames.groupKeys Candle.symbol p.rows).flatMap (microColumns S k []) = [] :=
        List.flatMap_eq_nil_iff.mpr fun s _ => hnone s
      rw [microFrame, hflat]
      rfl
    refine ⟨[], by rw [hflow]; rfl, fun d => ⟨hcols.symm, fun s t _ => ?_⟩⟩
    rw [partner_microFrame_nil hcols]
    rfl
  · cases hnets : Krx.flowNets (k.flow.map skipNan) with
    | error e =>
      rw [hnets] at h
      cases h
    | ok nets =>
      rw [hnets] at h
      cases h
      exact ⟨nets, rfl, fun _ => ⟨rfl, fun _ _ _ => rfl⟩⟩

theorem dailyKrMicrostructureFromStore_empty {u : Table F}
    (h : dailyKrMicrostructureFromStore S k p = .ok u) : u.rows = [] → u.columns = [] := by
  unfold dailyKrMicrostructureFromStore at h
  split_ifs at h with hempty
  · cases h
    exact fun _ => rfl
  · cases hnets : Krx.flowNets (k.flow.map skipNan) with
    | error e =>
      rw [hnets] at h
      cases h
    | ok nets =>
      rw [hnets] at h
      cases h
      exact microFrame_empty

theorem mem_columns_microFrame {name : String} (h : name ∈ (microFrame S k nets p).columns) :
    name ∈ (flowColumns (F := F)).map Prod.fst ++ (holdingColumns (F := F)).map Prod.fst ++
      (shortColumns (F := F)).map Prod.fst := by
  obtain ⟨s, -, hname⟩ := List.mem_flatMap.mp (List.mem_eraseDups.mp h)
  simp only [microColumns, List.mem_append] at hname ⊢
  refine hname.imp (Or.imp (fun h => ?_) fun h => ?_) fun h => ?_
  · split_ifs at h with hempty
    · cases h
    · exact h
  · split_ifs at h with hempty
    · cases h
    · exact h
  · split_ifs at h with hempty
    · cases h
    · exact h

/-- Once the flows have every investor and the frame has its columns, the frame is that of the days
before a date, up to the date. -/
theorem dailyKrMicrostructureFromStore_upTo {u u' : Table F} (hbegun : k.Begun (d - 1))
    (h : dailyKrMicrostructureFromStore S k p = .ok u)
    (h' : dailyKrMicrostructureFromStore S (k.upTo (d - 1)) (p.upTo d) = .ok u')
    (hcols : u'.columns = u.columns) : u'.Agree d u := by
  obtain ⟨nets, hnets, hframe⟩ := exists_agree_microFrame h
  obtain ⟨nets', hnets', hframe'⟩ := exists_agree_microFrame h'
  rw [flowNets_skipNan_upTo hbegun, hnets] at hnets'
  cases hnets'
  have hcut := microFrame_upTo
    ((hframe' d).columns.symm.trans (hcols.trans (hframe d).columns))
  exact (hframe' d).trans (hcut.trans (hframe d).symm)

end UpTo

end QuantTrader.Features
