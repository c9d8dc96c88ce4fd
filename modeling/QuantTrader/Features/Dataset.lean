import Mathlib.Algebra.Order.Ring.Rat
import QuantTrader.Features.CrossMarket
import QuantTrader.Features.Filings
import QuantTrader.Features.Institutions
import QuantTrader.Features.KrMicrostructure

/-! # The learning matrix

`build_dataset` joins the features of a market with those of its companies and ranks them
over the rows of each date. The rows of a date are made of what is known by the end of the
date, in Korea of American, exchange and macro data of the days before, as long as no table
is still to begin and no company restates a quarter.
-/

namespace QuantTrader.Features

open Series Floats

inductive Market
  | kr
  | us
  deriving DecidableEq, Repr

def Market.name : Market → String
  | kr => "KR"
  | us => "US"

/-- A row of `macro_daily`. -/
structure MacroRow (F : Type) where
  date : ℤ
  values : List (String × F)

/-- `macro_daily` read with `FINAL`: one row for a date. -/
structure MacroTable (F : Type) where
  rows : List (MacroRow F)
  nodup : (rows.map MacroRow.date).Nodup

/-- What `build_dataset` reads. -/
structure Inputs (F : Type) where
  panel : Panel F
  /-- The American panel, for the context of Korea. -/
  us : Panel F
  /-- `fundamentals_quarterly` read with `FINAL`, by symbol. -/
  facts : String → List Fundamentals.Fact
  holdings : HoldingTable F
  /-- `sector2` of `stock_meta`. -/
  sector : String → Option String
  krx : KrxTables F
  macroTable : MacroTable F

/-- The flags of `build_dataset`. -/
structure Options where
  rankFeatures : Bool := true
  fundamentals : Bool := true
  useMacro : Bool := true
  inst13f : Bool := true
  sector : Bool := true
  krMicro : Bool := true

section Assembly

variable {F : Type} [Floats F]

/-- `_MACRO`. -/
def macroNames : List String :=
  ["dgs10", "dgs2", "dgs3mo", "t10y2y", "t10y3m", "vix", "usdkrw", "dxy", "wti"]

/-- `_MARKET_LEVEL`. -/
def marketLevel : List String :=
  ["usx_mkt_ret", "usx_breadth", "usx_ret5", "usx_ret21", "usx_vol21"] ++ macroNames

def FeatureRow.get (r : FeatureRow F) (name : String) : F := (r.values.lookup name).getD nan

/-- `load_ohlcv` raises without candles. -/
def loadOhlcv (market : Market) (p : Panel F) : Except String (Panel F) :=
  if p.rows.isEmpty then
    throw ("stock_candles_1d(market=" ++ market.name ++
      ") 0행 — 백필 필요: python -m batch.candles.backfill_stock_daily")
  else return p

def sectorNames : List String := ["indmom", "mom12m_srel", "retvol_srel"]

/-- `_attach_sector`, on the rows. -/
def withSectors (sector : String → Option String) (feats : List (FeatureRow F)) :
    List (FeatureRow F) :=
  let sec := fun r : FeatureRow F => (sector r.symbol).getD "NA"
  feats.map fun r =>
    let peers := feats.filter fun r' => r'.date = r.date ∧ sec r' = sec r
    let indmom := groupMean (peers.map (·.get "mom12m"))
    let retvol := groupMean (peers.map (·.get "retvol21"))
    r.add [("indmom", indmom), ("mom12m_srel", r.get "mom12m" - indmom),
      ("retvol_srel", r.get "retvol21" - retvol)]

/-- `_attach_sector`. -/
def attachSector (sector : String → Option String) (feats : Table F) : Table F :=
  ⟨feats.columns ++ sectorNames, withSectors sector feats.rows⟩

/-- The macro columns beside a row, NaN without a row of the table. -/
def withMacro (e : FeatureRow F × Option (MacroRow F)) : FeatureRow F :=
  e.1.add ((e.2.map MacroRow.values).getD (macroNames.map fun name => (name, nan)))

/-- The macro join: of the same date in America, of the last date before in Korea. -/
def attachMacro (S : Frames.Sorting) (market : Market) (t : MacroTable F) (feats : Table F) :
    Table F :=
  ⟨feats.columns ++ macroNames,
    match market with
    | .us => feats.rows.map fun r => withMacro (r, t.rows.find? fun m => m.date = r.date)
    | .kr => (Frames.mergeAsof S FeatureRow.date MacroRow.date feats.rows t.rows).map withMacro⟩

/-- The rank of a number among the numbers of a group, ties at their middle, from -1 to 1. -/
def rankOf (group : List F) (x : F) : F :=
  let vals := group.filter fun y => !isNan y
  let below := vals.countP fun y => lt y x
  let above := vals.countP fun y => lt x y
  -- the mean of the ranks `below + 1, ..., length - above`
  let rank : ℚ := (below + 1 + (vals.length - above : ℕ)) / 2
  if isNan x then x else ofRat 2 * (ofRat rank / ofRat vals.length) - ofRat 1

/-- A row ranked among the rows of its date. -/
def rankRow (day : List (FeatureRow F)) (r : FeatureRow F) : FeatureRow F :=
  { r with
    values := r.values.map fun col =>
      if col.1 ∈ marketLevel then col else (col.1, rankOf (day.map (·.get col.1)) col.2) }

/-- `_xs_rank`. -/
def xsRank (feats : Table F) : Table F :=
  ⟨feats.columns, feats.rows.map fun r =>
    rankRow (feats.rows.filter fun r' => r'.date = r.date) r⟩

/-- The columns of `attach_us_context`. -/
def usContextNames : List String :=
  (marketColumns (F := F)).map Prod.fst ++ ["usx_beta", "usx_corr"]

def attachKorea (S : Frames.Sorting) (o : Options) (x : Inputs F) (feats : Table F) :
    Except String (Table F) := do
  let us ← loadOhlcv .us x.us
  let feats : Table F :=
    ⟨feats.columns ++ usContextNames (F := F), attachUsContext S feats.rows x.panel us⟩
  let feats := if o.fundamentals then
      feats.join (dailyFundamentalsFromStore S x.facts x.panel)
    else feats
  if o.krMicro then
    let micro ← dailyKrMicrostructureFromStore S x.krx x.panel
    return feats.join micro
  else return feats

def attachAmerica (S : Frames.Sorting) (o : Options) (x : Inputs F) (feats : Table F) : Table F :=
  if o.fundamentals then
    let feats := feats.join (dailyFundamentalsFromStore S x.facts x.panel)
    let feats := if o.inst13f then feats.join (daily13fFromStore S x.holdings x.panel) else feats
    if o.sector then attachSector x.sector feats else feats
  else feats

/-- `build_dataset`, the features with their columns, or the message of its exception. -/
def buildDataset (S : Frames.Sorting) (market : Market) (o : Options) (x : Inputs F) :
    Except String (Table F) := do
  let panel ← loadOhlcv market x.panel
  let feats : Table F := ⟨(columns (F := F)).map Prod.fst, computeFeatures S panel⟩
  let feats ← match market with
    | .kr => attachKorea S o x feats
    | .us => pure (attachAmerica S o x feats)
  let feats := if o.useMacro then attachMacro S market x.macroTable feats else feats
  return if o.rankFeatures then xsRank feats else feats

/-- The macro table as it is known by the end of a date: in Korea, of the days before. -/
def MacroTable.upTo (market : Market) (t : MacroTable F) (d : ℤ) : MacroTable F where
  rows := t.rows.filter fun m =>
    match market with
    | .us => m.date ≤ d
    | .kr => m.date < d
  nodup := t.nodup.sublist (List.filter_sublist.map _)

/-- What is known by the end of a date; in Korea, of the American market, of the exchange and of
the macro table the days before. -/
def Inputs.upTo (market : Market) (x : Inputs F) (d : ℤ) : Inputs F where
  panel := x.panel.upTo d
  us := x.us.upTo (d - 1)
  facts := filedBy d x.facts
  holdings := x.holdings.upTo d
  sector := x.sector
  krx := x.krx.upTo (d - 1)
  macroTable := x.macroTable.upTo market d

/-- No company restates a quarter after a date, and the flows have every investor by it, as far as
they are joined. -/
structure Inputs.Settled (S : Frames.Sorting) (market : Market) (o : Options) (x : Inputs F)
    (d : ℤ) : Prop where
  facts : o.fundamentals → Features.Settled S d x.facts
  flows : market = .kr → o.krMicro → x.krx.Begun (d - 1)

end Assembly

section UpTo

variable {F : Type} [Floats F] {S : Frames.Sorting} {d : ℤ} {market : Market} {o : Options}
  {feats feats' t m : Table F} {rows rows' : List (FeatureRow F)} {macros : MacroTable F}
  {x : Inputs F}

theorem withSectors_upTo {sector : String → Option String} :
    withSectors sector (rows.filter fun r => r.date ≤ d) =
      (withSectors sector rows).filter fun r => r.date ≤ d := by
  rw [withSectors, withSectors, List.filter_map]
  refine List.map_congr_left fun r hr => ?_
  have hle := of_decide_eq_true (List.mem_filter.mp hr).2
  have hpeers : (rows.filter fun r => r.date ≤ d).filter (fun r' => r'.date = r.date ∧
      (sector r'.symbol).getD "NA" = (sector r.symbol).getD "NA") =
        rows.filter fun r' => r'.date = r.date ∧
          (sector r'.symbol).getD "NA" = (sector r.symbol).getD "NA" := by
    rw [List.filter_filter]
    refine List.filter_congr fun r' _ => ?_
    by_cases hd : r'.date = r.date
    · simp [hd, hle]
    · simp [hd]
  simp only [hpeers]

theorem attachSector_upTo {sector : String → Option String} :
    attachSector sector (feats.upTo d) = (attachSector sector feats).upTo d := by
  rw [attachSector, attachSector, Table.upTo, Table.upTo, withSectors_upTo]

theorem attachMacro_upTo (hp : feats'.Perm (feats.upTo d)) :
    (attachMacro S market (macros.upTo market d) feats').Perm
      ((attachMacro S market macros feats).upTo d) := by
  refine ⟨congrArg (· ++ macroNames) hp.columns, ?_⟩
  have hle : ∀ r ∈ feats'.rows, r.date ≤ d := fun r hr =>
    of_decide_eq_true (List.mem_filter.mp (hp.rows.mem_iff.mp hr)).2
  cases market with
  | us =>
    have hrows : (attachMacro S .us (macros.upTo .us d) feats').rows =
        (attachMacro S .us macros feats').rows := by
      refine List.map_congr_left fun r hr => ?_
      have hfind : (macros.rows.filter fun m => m.date ≤ d).find? (fun m => m.date = r.date) =
          macros.rows.find? fun m => m.date = r.date :=
        Frames.find?_upTo fun m hm => of_decide_eq_true hm ▸ hle r hr
      exact congrArg (fun m => withMacro (r, m)) hfind
    rw [hrows, Table.upTo]
    dsimp only [attachMacro]
    rw [List.filter_map]
    exact hp.rows.map _
  | kr =>
    rw [Table.upTo]
    dsimp only [attachMacro]
    rw [List.filter_map]
    exact (Frames.mergeAsof_upTo macros.nodup hp.rows).map withMacro

theorem rankOf_perm {group group' : List F} (hp : group.Perm group') (x : F) :
    rankOf group x = rankOf group' x := by
  have hvals := hp.filter fun y => !isNan y
  unfold rankOf
  dsimp only
  rw [hvals.length_eq, hvals.countP_eq, hvals.countP_eq]

theorem rankRow_perm (hp : rows.Perm rows') (r : FeatureRow F) :
    rankRow rows r = rankRow rows' r := by
  unfold rankRow
  congr 1
  refine List.map_congr_left fun col _ => ?_
  rw [rankOf_perm (hp.map (·.get col.1))]

theorem xsRank_upTo (hp : feats'.Perm (feats.upTo d)) :
    (xsRank feats').Perm ((xsRank feats).upTo d) := by
  refine ⟨hp.columns, ?_⟩
  have hrows : (xsRank feats').rows = feats'.rows.map fun r =>
      rankRow (feats.rows.filter fun r' => r'.date = r.date) r := by
    refine List.map_congr_left fun r hr => rankRow_perm ?_ r
    have hle : r.date ≤ d := of_decide_eq_true (List.mem_filter.mp (hp.rows.mem_iff.mp hr)).2
    have hday : (feats.rows.filter fun r => r.date ≤ d).filter (fun r' => r'.date = r.date) =
        feats.rows.filter fun r' => r'.date = r.date := by
      rw [List.filter_filter]
      refine List.filter_congr fun r' _ => ?_
      by_cases hd : r'.date = r.date
      · simp [hd, hle]
      · simp [hd]
    exact hday ▸ hp.rows.filter _
  rw [hrows, xsRank, Table.upTo]
  dsimp only
  rw [List.filter_map]
  exact hp.rows.map _

/-! ## The frames that are joined -/

omit [Floats F] in
theorem eq_of_loadOhlcv {p p' : Panel F} (h : loadOhlcv market p = .ok p') : p' = p := by
  unfold loadOhlcv at h
  split_ifs at h
  · cases h
    rfl

/-- The fundamentals as they are joined. -/
def filings (S : Frames.Sorting) (o : Options) (x : Inputs F) : Table F :=
  if o.fundamentals then dailyFundamentalsFromStore S x.facts x.panel else ⟨[], []⟩

/-- The holdings as they are joined. -/
def institutions (S : Frames.Sorting) (o : Options) (x : Inputs F) : Table F :=
  if o.inst13f then daily13fFromStore S x.holdings x.panel else ⟨[], []⟩

/-- The microstructure as it is joined. -/
def microstructure (S : Frames.Sorting) (o : Options) (x : Inputs F) : Except String (Table F) :=
  if o.krMicro then dailyKrMicrostructureFromStore S x.krx x.panel else .ok ⟨[], []⟩

/-- The features beside the American market. -/
def context (S : Frames.Sorting) (x : Inputs F) (feats : Table F) : Table F :=
  ⟨feats.columns ++ usContextNames (F := F), attachUsContext S feats.rows x.panel x.us⟩

theorem attachKorea_ok (h : attachKorea S o x feats = .ok t) :
    ∃ micro, microstructure S o x = .ok micro ∧
      t = ((context S x feats).join (filings S o x)).join micro := by
  unfold attachKorea at h
  cases hus : loadOhlcv .us x.us with
  | error e =>
    rw [hus] at h
    cases h
  | ok us =>
    rw [hus, eq_of_loadOhlcv hus] at h
    have hfilings : (if o.fundamentals then
        (context S x feats).join (dailyFundamentalsFromStore S x.facts x.panel)
      else context S x feats) = (context S x feats).join (filings S o x) := by
      unfold filings
      split_ifs <;> rfl
    have h : (if o.krMicro = true then
          (dailyKrMicrostructureFromStore S x.krx x.panel).bind fun micro =>
            .ok (((context S x feats).join (filings S o x)).join micro)
        else .ok ((context S x feats).join (filings S o x))) = .ok t := by
      rw [← hfilings]
      exact h
    unfold microstructure
    split_ifs at h ⊢ with hmicro
    · cases hframe : dailyKrMicrostructureFromStore S x.krx x.panel with
      | error e =>
        rw [hframe] at h
        cases h
      | ok micro =>
        rw [hframe] at h
        cases h
        exact ⟨micro, rfl, rfl⟩
    · cases h
      exact ⟨_, rfl, rfl⟩

theorem attachAmerica_eq (h : o.fundamentals = true) : attachAmerica S o x feats =
    if o.sector then attachSector x.sector ((feats.join (filings S o x)).join (institutions S o x))
    else (feats.join (filings S o x)).join (institutions S o x) := by
  unfold attachAmerica filings institutions
  rw [if_pos h, if_pos h]
  cases o.inst13f <;> rfl

/-! ## Their columns -/

theorem filings_empty :
    (filings S o x).rows = [] → (filings S o x).columns = [] := by
  unfold filings
  split_ifs
  · exact Table.concat_empty
  · exact fun _ => rfl

theorem institutions_empty :
    (institutions S o x).rows = [] → (institutions S o x).columns = [] := by
  unfold institutions
  split_ifs
  · exact Table.concat_empty
  · exact fun _ => rfl

theorem microstructure_empty (h : microstructure S o x = .ok t) : t.rows = [] → t.columns = [] := by
  unfold microstructure at h
  split_ifs at h
  · exact dailyKrMicrostructureFromStore_empty h
  · cases h
    exact fun _ => rfl

theorem columns_filings :
    (filings S o x).columns = [] ∨ (filings S o x).columns = fundamentalNames := by
  unfold filings
  split_ifs
  · exact Table.columns_concat
  · exact .inl rfl

theorem columns_institutions : (institutions S o x).columns = [] ∨
    (institutions S o x).columns = (columns13f (F := F)).map Prod.fst := by
  unfold institutions
  split_ifs
  · exact Table.columns_concat
  · exact .inl rfl

theorem not_mem_columns_institutions : "fund_mktcap" ∉ (institutions S o x).columns := by
  rcases columns_institutions (F := F) with h | h
  · rw [h]
    exact List.not_mem_nil
  · rw [h]
    simp [columns13f]

theorem not_mem_columns_microstructure (h : microstructure S o x = .ok t) :
    "fund_mktcap" ∉ t.columns := by
  unfold microstructure at h
  split_ifs at h
  · obtain ⟨nets, -, hframe⟩ := exists_agree_microFrame h
    rw [(hframe 0).columns]
    intro hmem
    have := mem_columns_microFrame hmem
    simp [flowColumns, holdingColumns, shortColumns] at this
  · cases h
    exact List.not_mem_nil

theorem append_columns_inj {names a a' b b' : List String} {name : String}
    (ha : a = [] ∨ a = names) (ha' : a' = [] ∨ a' = names) (hname : name ∈ names) (hb : name ∉ b)
    (hb' : name ∉ b') (h : a' ++ b' = a ++ b) : a' = a ∧ b' = b := by
  rcases ha with rfl | rfl <;> rcases ha' with rfl | rfl
  · exact ⟨rfl, h⟩
  · rw [List.nil_append] at h
    exact absurd (h ▸ List.mem_append_left b' hname) hb
  · rw [List.nil_append] at h
    exact absurd (h ▸ List.mem_append_left b hname) hb'
  · exact ⟨rfl, List.append_cancel_left h⟩

/-! ## What is known by the end of a date -/

theorem filings_upTo (h : x.Settled S market o d)
    (hcols : (filings S o (x.upTo market d)).columns = (filings S o x).columns) :
    (filings S o (x.upTo market d)).Agree d (filings S o x) := by
  unfold filings at hcols ⊢
  split_ifs at hcols ⊢ with hflag
  · exact dailyFundamentalsFromStore_upTo (h.facts hflag) hcols
  · exact ⟨rfl, fun _ _ _ => rfl⟩

theorem institutions_upTo
    (hcols : (institutions S o (x.upTo market d)).columns = (institutions S o x).columns) :
    (institutions S o (x.upTo market d)).Agree d (institutions S o x) := by
  unfold institutions at hcols ⊢
  split_ifs at hcols ⊢
  · exact daily13fFromStore_upTo hcols
  · exact ⟨rfl, fun _ _ _ => rfl⟩

theorem microstructure_upTo (h : x.Settled S .kr o d) (ht : microstructure S o x = .ok t)
    (hm : microstructure S o (x.upTo .kr d) = .ok m) (hcols : m.columns = t.columns) :
    m.Agree d t := by
  unfold microstructure at ht hm
  split_ifs at ht hm with hflag
  · exact dailyKrMicrostructureFromStore_upTo (h.flows rfl hflag) ht hm hcols
  · cases ht
    cases hm
    exact ⟨rfl, fun _ _ _ => rfl⟩

theorem context_upTo : (context S (x.upTo .kr d) (feats.upTo d)).Perm
    ((context S x feats).upTo d) :=
  ⟨rfl, attachUsContext_upTo (.refl _)⟩

theorem attachKorea_upTo (h : x.Settled S .kr o d) (ht : attachKorea S o x feats = .ok t)
    (hm : attachKorea S o (x.upTo .kr d) (feats.upTo d) = .ok m) (hcols : m.columns = t.columns) :
    m.Perm (t.upTo d) := by
  obtain ⟨micro, hmicro, rfl⟩ := attachKorea_ok ht
  obtain ⟨micro', hmicro', rfl⟩ := attachKorea_ok hm
  have hempty := microstructure_empty hmicro
  have hempty' := microstructure_empty hmicro'
  rw [Table.columns_join hempty, Table.columns_join hempty', Table.columns_join filings_empty,
    Table.columns_join filings_empty, List.append_assoc, List.append_assoc] at hcols
  obtain ⟨hfilings, hcols⟩ := append_columns_inj columns_filings columns_filings
    List.mem_cons_self (not_mem_columns_microstructure hmicro)
    (not_mem_columns_microstructure hmicro') (List.append_cancel_left hcols)
  have hjoined : ((context S (x.upTo .kr d) (feats.upTo d)).join
      (filings S o (x.upTo .kr d))).Perm (((context S x feats).join (filings S o x)).upTo d) := by
    rw [← Table.join_upTo filings_empty filings_empty (filings_upTo h hfilings)]
    exact context_upTo.join filings_empty
  rw [← Table.join_upTo hempty hempty' (microstructure_upTo h hmicro hmicro' hcols)]
  exact hjoined.join hempty'

theorem attachAmerica_upTo (h : x.Settled S .us o d)
    (hcols : (attachAmerica S o (x.upTo .us d) (feats.upTo d)).columns =
      (attachAmerica S o x feats).columns) :
    attachAmerica S o (x.upTo .us d) (feats.upTo d) = (attachAmerica S o x feats).upTo d := by
  cases hflag : o.fundamentals with
  | false => simp [attachAmerica, hflag]
  | true =>
    have hjoined : ((feats.upTo d).join (filings S o (x.upTo .us d))).join
        (institutions S o (x.upTo .us d)) =
          ((feats.join (filings S o x)).join (institutions S o x)).upTo d := by
      have hnames : (((feats.upTo d).join (filings S o (x.upTo .us d))).join
          (institutions S o (x.upTo .us d))).columns =
            ((feats.join (filings S o x)).join (institutions S o x)).columns := by
        rw [attachAmerica_eq hflag, attachAmerica_eq hflag] at hcols
        split_ifs at hcols
        · exact List.append_cancel_right hcols
        · exact hcols
      rw [Table.columns_join institutions_empty, Table.columns_join institutions_empty,
        Table.columns_join filings_empty, Table.columns_join filings_empty, List.append_assoc,
        List.append_assoc] at hnames
      obtain ⟨hfilings, hinst⟩ := append_columns_inj columns_filings columns_filings
        List.mem_cons_self not_mem_columns_institutions not_mem_columns_institutions
        (List.append_cancel_left hnames)
      rw [Table.join_upTo filings_empty filings_empty (filings_upTo h hfilings),
        Table.join_upTo institutions_empty institutions_empty (institutions_upTo hinst)]
    rw [attachAmerica_eq hflag, attachAmerica_eq hflag, hjoined]
    split_ifs
    · exact attachSector_upTo
    · rfl

/-- The features before the macro columns. -/
def joined (S : Frames.Sorting) (market : Market) (o : Options) (x : Inputs F) :
    Except String (Table F) :=
  let feats : Table F := ⟨(columns (F := F)).map Prod.fst, computeFeatures S x.panel⟩
  match market with
  | .kr => attachKorea S o x feats
  | .us => .ok (attachAmerica S o x feats)

/-- The macro columns and the ranks. -/
def finished (S : Frames.Sorting) (market : Market) (o : Options) (t : MacroTable F)
    (feats : Table F) : Table F :=
  let feats := if o.useMacro then attachMacro S market t feats else feats
  if o.rankFeatures then xsRank feats else feats

theorem buildDataset_ok (h : buildDataset S market o x = .ok m) :
    ∃ feats, joined S market o x = .ok feats ∧ m = finished S market o x.macroTable feats := by
  unfold buildDataset at h
  cases hpanel : loadOhlcv market x.panel with
  | error e =>
    rw [hpanel] at h
    cases h
  | ok panel =>
    rw [hpanel, eq_of_loadOhlcv hpanel] at h
    have h : (joined S market o x).bind
        (fun feats => .ok (finished S market o x.macroTable feats)) = .ok m := by
      rw [← h]
      cases market <;> rfl
    cases hjoined : joined S market o x with
    | error e =>
      rw [hjoined] at h
      cases h
    | ok feats =>
      rw [hjoined] at h
      cases h
      exact ⟨feats, rfl, rfl⟩

theorem columns_finished : (finished S market o macros feats).columns =
    feats.columns ++ if o.useMacro then macroNames else [] := by
  unfold finished
  cases o.useMacro <;> cases o.rankFeatures <;> simp [xsRank, attachMacro]

theorem joined_upTo (h : x.Settled S market o d) (ht : joined S market o x = .ok t)
    (hm : joined S market o (x.upTo market d) = .ok m) (hcols : m.columns = t.columns) :
    m.Perm (t.upTo d) := by
  have hfeats : (⟨(columns (F := F)).map Prod.fst, computeFeatures S (x.panel.upTo d)⟩ : Table F) =
      (⟨(columns (F := F)).map Prod.fst, computeFeatures S x.panel⟩ : Table F).upTo d := by
    rw [computeFeatures_upTo]
    rfl
  cases market with
  | kr =>
    change attachKorea S o (x.upTo .kr d) ⟨_, computeFeatures S (x.panel.upTo d)⟩ = .ok m at hm
    rw [hfeats] at hm
    exact attachKorea_upTo h ht hm hcols
  | us =>
    change Except.ok (attachAmerica S o (x.upTo .us d) ⟨_, computeFeatures S (x.panel.upTo d)⟩) =
      .ok m at hm
    rw [hfeats] at hm
    cases ht
    cases hm
    exact .of_eq (attachAmerica_upTo h hcols)

theorem finished_upTo (h : m.Perm (t.upTo d)) :
    (finished S market o (macros.upTo market d) m).Perm
      ((finished S market o macros t).upTo d) := by
  have hmacro : (if o.useMacro then attachMacro S market (macros.upTo market d) m else m).Perm
      ((if o.useMacro then attachMacro S market macros t else t).upTo d) := by
    split_ifs
    · exact attachMacro_upTo h
    · exact h
  unfold finished
  cases o.rankFeatures with
  | false => exact hmacro
  | true => exact xsRank_upTo hmacro

/-- No row of the learning matrix looks ahead: if no company restates a quarter after a date, and
the matrix of what is known by its end has all columns, then that has the rows up to the date, in
some order. -/
theorem buildDataset_upTo (S : Frames.Sorting) (market : Market) (o : Options) (x : Inputs F)
    (d : ℤ) (hx : x.Settled S market o d) (hm : buildDataset S market o x = .ok m)
    (hcols : (buildDataset S market o (x.upTo market d)).map Table.columns = .ok m.columns) :
    ∃ m', buildDataset S market o (x.upTo market d) = .ok m' ∧ m'.Perm (m.upTo d) := by
  cases hm' : buildDataset S market o (x.upTo market d) with
  | error e =>
    rw [hm'] at hcols
    cases hcols
  | ok m' =>
    rw [hm'] at hcols
    have hcols : m'.columns = m.columns := Except.ok.inj hcols
    refine ⟨m', rfl, ?_⟩
    obtain ⟨t, ht, rfl⟩ := buildDataset_ok hm
    obtain ⟨t', ht', rfl⟩ := buildDataset_ok hm'
    rw [columns_finished, columns_finished] at hcols
    exact finished_upTo (joined_upTo hx ht ht' (List.append_cancel_right hcols))

end UpTo

section Demo

def numbers (l : List (Option ℚ)) : List ℚ := l.reduceOption

/-- The sum of the powers of the distances from the mean. -/
def moment (k : ℕ) (l : List ℚ) : ℚ := (l.map fun a => (a - l.sum / l.length) ^ k).sum

/-- The first step of Newton's method from one. -/
def root (a : ℚ) : ℚ := (1 + a) / 2

def variance (l : List ℚ) : Option ℚ :=
  if l.length < 2 then none else some (moment 2 l / (l.length - 1))

def covariance (l : List (Option ℚ × Option ℚ)) : Option ℚ :=
  let pairs := l.filterMap fun e => e.1.bind fun a => e.2.map (a, ·)
  let x := pairs.map Prod.fst
  let y := pairs.map Prod.snd
  if pairs.length < 2 then none
  else some ((pairs.map fun e => (e.1 - x.sum / x.length) * (e.2 - y.sum / y.length)).sum /
    (pairs.length - 1))

/-- Exact rationals with `none` for NaN; roots, logarithms and exponentials to first order. -/
instance : Floats (Option ℚ) where
  ofRat := some
  toRat x := x.getD 0
  nan := none
  isNan := Option.isNone
  isFinite := Option.isSome
  lt x y := (x.bind fun a => y.map fun b => decide (a < b)).getD false
  abs := Option.map fun a => |a|
  log x := (x.filter fun a => 0 < a).map (· - 1)
  exp := Option.map (1 + ·)
  sqrt x := (x.filter fun a => 0 ≤ a).map root
  sum l := some (numbers l).sum
  mean l := Fundamentals.div (some (numbers l).sum) (some (numbers l).length)
  var l := variance (numbers l)
  std l := (variance (numbers l)).map root
  min l := (numbers l).min?
  max l := (numbers l).max?
  skew l := Fundamentals.div (some (moment 3 (numbers l)))
    ((variance (numbers l)).map fun v => v * root v)
  kurt l := Fundamentals.div (some (moment 4 (numbers l)))
    ((variance (numbers l)).map fun v => v * v)
  cov := covariance
  corr l := Fundamentals.div (covariance l) (Fundamentals.mul
    ((variance (numbers (l.map Prod.fst))).map root)
    ((variance (numbers (l.map Prod.snd))).map root))
  add := Fundamentals.add
  sub x y := Fundamentals.add x (y.map (-·))
  mul := Fundamentals.mul
  div := Fundamentals.div
  neg := Option.map (-·)
  isFinite_nan := rfl
  nan_div _ := rfl

def demoBars (symbol : String) (step : ℚ) (dates : List ℤ) : List (Candle (Option ℚ)) :=
  dates.map fun d => ⟨symbol, d, some (100 + step * d), some (102 + step * d), some (99 + step * d),
    some (101 + step * d), some (1000 + d)⟩

def demoDays : List ℤ := (List.range 16).map Int.ofNat

/-- Two Korean companies; both have flows, one has filings, holdings and short sales. -/
def demoInputs : Inputs (Option ℚ) where
  panel :=
    { rows := demoBars "000660" 1 demoDays ++ demoBars "005930" (-2) demoDays
      keyed := by unfold Frames.Keyed; decide +kernel }
  us :=
    { rows := demoBars "AAPL" 3 demoDays
      keyed := by unfold Frames.Keyed; decide +kernel }
  facts symbol :=
    if symbol = "005930" then
      [⟨.shares, 0, 2, 0, 10⟩, ⟨.equity, 0, 2, 0, 500⟩, ⟨.netIncome, -270, -260, 90, 30⟩,
        ⟨.netIncome, -180, -170, 90, 40⟩, ⟨.netIncome, -90, -80, 90, 50⟩,
        ⟨.netIncome, 0, 2, 90, 60⟩, ⟨.shares, 10, 14, 0, 12⟩, ⟨.netIncome, 10, 14, 90, 70⟩]
    else []
  holdings := ⟨[], List.nodup_nil⟩
  sector _ := none
  krx :=
    { flow := demoDays.flatMap fun d => ["000660", "005930"].flatMap fun symbol =>
        ["foreign", "other_foreign", "institution", "pension"].map fun investor =>
          ⟨d, symbol, investor, some (d * d), some d⟩
      holding := demoDays.map fun d =>
        ⟨d, "005930", some 1000, some (500 + d), some (50 + d), some 1000, some 50⟩
      short := demoDays.map fun d =>
        ⟨d, "005930", some d, some 1000, some (d / 10), some d, some d, some 1000, some (d / 100)⟩
      holdingKeyed := by unfold Frames.Keyed; decide +kernel
      shortKeyed := by unfold Frames.Keyed; decide +kernel }
  macroTable :=
    { rows := demoDays.map fun d => ⟨d, macroNames.map fun name => (name, some d)⟩
      nodup := by decide +kernel }

theorem buildDataset_upTo_demo : ∃ m m',
    buildDataset .insertion .kr {} demoInputs = .ok m ∧
    buildDataset .insertion .kr {} (demoInputs.upTo .kr 12) = .ok m' ∧ m'.Perm (m.upTo 12) := by
  have hcols : (buildDataset .insertion .kr {} (demoInputs.upTo .kr 12)).map Table.columns =
      (buildDataset .insertion .kr {} demoInputs).map Table.columns := by
    decide +kernel
  have hok : (buildDataset .insertion .kr {} demoInputs).isOk = true := by decide +kernel
  have hsettled : demoInputs.Settled .insertion .kr {} 12 := by
    refine ⟨fun _ symbol => ⟨?_, .inl Frames.Sorting.insertion_stable⟩, fun _ _ => ?_⟩
    · by_cases hsymbol : symbol = "005930"
      · rw [hsymbol]
        unfold Fundamentals.Forward
        decide +kernel
      · simp [demoInputs, hsymbol, Fundamentals.Forward, Fundamentals.quarters]
    · unfold KrxTables.Begun
      decide +kernel
  cases hm : buildDataset .insertion .kr {} demoInputs with
  | error e =>
    rw [hm] at hok
    cases hok
  | ok m =>
    rw [hm] at hcols
    obtain ⟨m', hm', hperm⟩ := buildDataset_upTo .insertion .kr {} demoInputs 12 hsettled hm hcols
    exact ⟨m, m', rfl, hm', hperm⟩

end Demo

end QuantTrader.Features
