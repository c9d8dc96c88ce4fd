import Mathlib.Algebra.BigOperators.Group.List.Basic
import Mathlib.Data.Prod.Lex
import Mathlib.Data.String.Basic
import QuantTrader.ClickHouse.Replacing
import QuantTrader.Frames.Sorting
import QuantTrader.Krx.Market

/-! # Institutional flow

Two collectors write `stock_investor_flow`: one stores a day's institutional total,
the other the classes of which it is the sum. The reader pivots the whole table and
takes the totals as soon as the table has a single one. A day that is stored by its
classes then reads as zero, and a table of totals alone cannot be read at all.
-/

namespace QuantTrader.Krx

open ClickHouse

variable {F : Type}

/-! ## The collector of whole days -/

/-- The answer for one day and investor, by ticker. -/
structure TickerFrame (F : Type) where
  index : List String
  value : String → F
  volume : String → F

/-- `_FLOW_INV` -/
def dayInvestors : List (String × String) := [
  ("외국인", "foreign"), ("기관합계", "institution"), ("연기금", "pension")]

/-- The flow rows of `_day_rows`. -/
def dayRows (d : ℤ) (univ : List String) (frames : String → TickerFrame F) : List (FlowRow F) :=
  dayInvestors.flatMap fun i => ((frames i.1).index.filter fun t => t ∈ univ).map fun t =>
    ⟨d, t, i.2, (frames i.1).value t, (frames i.1).volume t⟩

theorem mem_dayRows {d : ℤ} {univ : List String} {frames : String → TickerFrame F}
    {r : FlowRow F} :
    r ∈ dayRows d univ frames ↔ ∃ i ∈ dayInvestors, ∃ t ∈ (frames i.1).index, t ∈ univ ∧
      r = ⟨d, t, i.2, (frames i.1).value t, (frames i.1).volume t⟩ := by
  simp only [dayRows, List.mem_flatMap, List.mem_map, List.mem_filter, decide_eq_true_eq,
    and_assoc, eq_comm (a := r)]

/-! ## The reader -/

/-- `ORDER BY` -/
def FlowRow.key (r : FlowRow F) : String × ℤ × String := (r.symbol, r.date, r.investor)

/-- `_INST` -/
def inst : List String := ["fin_invest", "insurance", "invest_trust", "private_fund", "bank",
  "other_finance", "pension"]

def columns (flow : List (FlowRow F)) : List String := flow.map FlowRow.investor

def cells (flow : List (FlowRow F)) : List (String × ℤ) :=
  (flow.map fun r => (r.symbol, r.date)).dedup.insertionSort fun a b => toLex a ≤ toLex b

section

variable {flow rows after : List (FlowRow F)} {symbol investor : String} {date : ℤ}

theorem mem_cells : (symbol, date) ∈ cells flow ↔
    ∃ r ∈ flow, r.symbol = symbol ∧ r.date = date := by
  simp [cells]

theorem mem_columns : investor ∈ columns flow ↔ ∃ r ∈ flow, r.investor = investor :=
  List.mem_map

theorem mem_columns_final : investor ∈ columns (final FlowRow.key rows) ↔
    ∃ r ∈ rows, r.investor = investor := by
  rw [mem_columns]
  exact exists_mem_final_iff (p := fun k : String × ℤ × String => k.2.2 = investor)

theorem mem_cells_final : (symbol, date) ∈ cells (final FlowRow.key rows) ↔
    ∃ r ∈ rows, r.symbol = symbol ∧ r.date = date := by
  rw [mem_cells]
  exact exists_mem_final_iff 
    (p := fun k : String × ℤ × String => k.1 = symbol ∧ k.2.1 = date)

/-- A row for a symbol, a date and an investor. -/
def Has (rows : List (FlowRow F)) (symbol : String) (date : ℤ) (investor : String) : Prop :=
  ∃ r ∈ rows, r.key = (symbol, date, investor)

theorem Has.mono (h : Has rows symbol date investor) (hsub : rows ⊆ after) :
    Has after symbol date investor := by
  obtain ⟨r, hr, hkey⟩ := h
  exact ⟨r, hsub hr, hkey⟩

theorem Has.mem_columns (h : Has rows symbol date investor) :
    investor ∈ columns (final FlowRow.key rows) := by
  obtain ⟨r, hr, hkey⟩ := h
  exact mem_columns_final.mpr ⟨r, hr, congrArg (fun k => k.2.2) hkey⟩

theorem has_final : Has (final FlowRow.key rows) symbol date investor ↔
    Has rows symbol date investor :=
  exists_mem_final_iff (p := fun k => k = (symbol, date, investor))

theorem columns_final_append (h : investor ∈ columns (final FlowRow.key rows)) :
    investor ∈ columns (final FlowRow.key (rows ++ after)) := by
  obtain ⟨r, hr, hinvestor⟩ := mem_columns_final.mp h
  exact mem_columns_final.mpr ⟨r, List.mem_append_left _ hr, hinvestor⟩

theorem has_append_iff (hafter : ∀ r ∈ after, ¬ (r.symbol = symbol ∧ r.date = date)) :
    Has (rows ++ after) symbol date investor ↔ Has rows symbol date investor := by
  constructor
  · rintro ⟨r, hr, hkey⟩
    rcases List.mem_append.mp hr with hr | hr
    · exact ⟨r, hr, hkey⟩
    · simp only [FlowRow.key, Prod.mk.injEq] at hkey
      exact absurd ⟨hkey.1, hkey.2.1⟩ (hafter r hr)
  · intro h
    exact h.mono (List.subset_append_left ..)

end

section

variable [Add F] [Zero F]

/-- A value of the pivot table, `none` for NaN. -/
def pivot (flow : List (FlowRow F)) (symbol : String) (date : ℤ) (investor : String) : Option F :=
  match flow.filter fun r => r.key = (symbol, date, investor) with
  | [] => none
  | rows => some (rows.map FlowRow.netValue).sum

/-- `piv.get(investor, 0.0).fillna(0)`; a float has no `fillna`. -/
def filled (flow : List (FlowRow F)) (investor : String) : Except String (String → ℤ → F) :=
  if investor ∈ columns flow then .ok fun symbol date => (pivot flow symbol date investor).getD 0
  else .error "'float' object has no attribute 'fillna'"

/-- The column `inst_net`. -/
def instNet (flow : List (FlowRow F)) (symbol : String) (date : ℤ) : F :=
  if "institution" ∈ columns flow then (pivot flow symbol date "institution").getD 0
  else ((inst.filter fun c => c ∈ columns flow).map fun c =>
    (pivot flow symbol date c).getD 0).sum

structure FlowNets (F : Type) where
  symbol : String
  date : ℤ
  foreignNet : F
  instNet : F
  pensionNet : F

/-- The flows of `daily_kr_microstructure_from_store`, or the message of its exception. -/
def flowNets (flow : List (FlowRow F)) : Except String (List (FlowNets F)) :=
  if flow.isEmpty then .ok []
  else do
    let foreign ← filled flow "foreign"
    let otherForeign ← filled flow "other_foreign"
    let pension ← filled flow "pension"
    return (cells flow).map fun (s, d) =>
      ⟨s, d, foreign s d + otherForeign s d, instNet flow s d, pension s d⟩

/-- The `inst_net` that is read for a symbol and a date. -/
def readInst (flow : List (FlowRow F)) (symbol : String) (date : ℤ) : Option F :=
  match flowNets flow with
  | .ok nets => (nets.find? fun n => n.symbol = symbol ∧ n.date = date).map FlowNets.instNet
  | .error _ => none

/-! ### The flows up to a date -/

variable {flow : List (FlowRow F)} {d : ℤ}

def flowUpTo (d : ℤ) (flow : List (FlowRow F)) : List (FlowRow F) :=
  flow.filter fun r => r.date ≤ d

omit [Add F] [Zero F] in
theorem mem_columns_upTo (h : ∀ i ∈ columns flow, i ∈ columns (flowUpTo d flow)) (i : String) :
    i ∈ columns (flowUpTo d flow) ↔ i ∈ columns flow := by
  refine ⟨fun hi => ?_, h i⟩
  obtain ⟨r, hr, hinvestor⟩ := mem_columns.mp hi
  exact mem_columns.mpr ⟨r, List.mem_of_mem_filter hr, hinvestor⟩

omit [Add F] [Zero F] in
theorem cells_upTo : cells (flowUpTo d flow) = (cells flow).filter fun c => c.2 ≤ d := by
  have hsorted : ∀ flow : List (FlowRow F), (cells flow).Pairwise fun a b => toLex a ≤ toLex b :=
    fun _ => Frames.Sorting.insertion_sorted toLex _
  have hnodup : ∀ flow : List (FlowRow F), (cells flow).Nodup := fun _ =>
    (List.perm_insertionSort _ _).nodup_iff.mpr (List.nodup_dedup _)
  refine List.Perm.eq_of_pairwise (fun a b _ _ hab hba => ?_) (hsorted _) ((hsorted _).filter _) ?_
  · exact toLex.injective (le_antisymm hab hba)
  · refine (List.perm_ext_iff_of_nodup (hnodup _) ((hnodup _).filter _)).mpr fun c => ?_
    rw [List.mem_filter, mem_cells, mem_cells, flowUpTo]
    constructor
    · rintro ⟨r, hr, hs, hdate⟩
      obtain ⟨hr, hd⟩ := List.mem_filter.mp hr
      exact ⟨⟨r, hr, hs, hdate⟩, hdate ▸ hd⟩
    · rintro ⟨⟨r, hr, hs, hdate⟩, hd⟩
      exact ⟨r, List.mem_filter.mpr ⟨hr, hdate ▸ hd⟩, hs, hdate⟩

theorem pivot_upTo {symbol investor : String} {date : ℤ} (hd : date ≤ d) :
    pivot (flowUpTo d flow) symbol date investor = pivot flow symbol date investor := by
  have hrows : (flowUpTo d flow).filter (fun r => r.key = (symbol, date, investor)) =
      flow.filter fun r => r.key = (symbol, date, investor) := by
    rw [flowUpTo, List.filter_filter]
    refine List.filter_congr fun r _ => ?_
    by_cases hkey : r.key = (symbol, date, investor)
    · have hdate : r.date = date := congrArg (fun k => k.2.1) hkey
      simp [hkey, hdate, hd]
    · simp [hkey]
  rw [pivot, pivot, hrows]

theorem instNet_upTo (h : ∀ i ∈ columns flow, i ∈ columns (flowUpTo d flow)) {symbol : String}
    {date : ℤ} (hd : date ≤ d) :
    instNet (flowUpTo d flow) symbol date = instNet flow symbol date := by
  unfold instNet
  simp only [mem_columns_upTo h, pivot_upTo hd]

/-- The net of a cell, once every column is there. -/
def netsOf (flow : List (FlowRow F)) (c : String × ℤ) : FlowNets F :=
  let of := fun investor => (pivot flow c.1 c.2 investor).getD 0
  ⟨c.1, c.2, of "foreign" + of "other_foreign", instNet flow c.1 c.2, of "pension"⟩

theorem flowNets_eq : flowNets flow =
    if flow.isEmpty then .ok []
    else if "foreign" ∈ columns flow ∧ "other_foreign" ∈ columns flow ∧ "pension" ∈ columns flow
      then .ok ((cells flow).map (netsOf flow))
    else .error "'float' object has no attribute 'fillna'" := by
  unfold flowNets filled
  by_cases hforeign : "foreign" ∈ columns flow
  · by_cases hother : "other_foreign" ∈ columns flow
    · by_cases hpension : "pension" ∈ columns flow
      · simp only [hforeign, hother, hpension, if_true, and_self]
        rfl
      · simp [hforeign, hother, hpension, bind, Except.bind]
    · simp [hforeign, hother, bind, Except.bind]
  · simp [hforeign, bind, Except.bind]

/-- The flows of the dates up to a date are read from the rows up to it, once these have every
investor. -/
theorem flowNets_upTo (h : ∀ i ∈ columns flow, i ∈ columns (flowUpTo d flow)) :
    flowNets (flowUpTo d flow) = (flowNets flow).map (List.filter fun n => n.date ≤ d) := by
  have hempty : (flowUpTo d flow).isEmpty = flow.isEmpty := by
    cases flow with
    | nil => rfl
    | cons r flow =>
      obtain ⟨r', hr', -⟩ := mem_columns.mp (h r.investor List.mem_cons_self)
      cases hcut : flowUpTo d (r :: flow) with
      | nil => rw [hcut] at hr'; cases hr'
      | cons => rfl
  have hnets : (cells (flowUpTo d flow)).map (netsOf (flowUpTo d flow)) =
      ((cells flow).map (netsOf flow)).filter fun n => n.date ≤ d := by
    rw [cells_upTo, List.filter_map]
    refine List.map_congr_left fun c hc => ?_
    have hd : c.2 ≤ d := of_decide_eq_true (List.mem_filter.mp hc).2
    simp only [netsOf, pivot_upTo hd, instNet_upTo h hd]
  rw [flowNets_eq, flowNets_eq, hempty]
  simp only [mem_columns_upTo h, hnets]
  split_ifs <;> rfl

end

/-! ## Trading and what is told about it -/

variable [AddMonoid F]

/-- The net purchases of a symbol on a date by each class. -/
abbrev Trading (F : Type) := String → ℤ → String → F

/-- The institutional classes, as the exchange and as the table name them. -/
def institutional : List (String × String) := investors.filter fun i => i.2 ∈ inst

/-- The institutional net purchases of a day. -/
def Trading.total (m : Trading F) (symbol : String) (date : ℤ) : F :=
  (institutional.map fun i => m symbol date i.1).sum

/-- The answers about a day. An institutional total is the sum over the classes, and a ticker
that has other flows but no such total had no institutional trades. -/
structure DayAnswer (m : Trading F) (d : ℤ) where
  frames : String → TickerFrame F
  total : ∀ t ∈ (frames "기관합계").index, (frames "기관합계").value t = m.total t d
  pension : ∀ t ∈ (frames "연기금").index, (frames "연기금").value t = m t d "연기금"
  absent : ∀ i ∈ dayInvestors, ∀ t ∈ (frames i.1).index, t ∉ (frames "기관합계").index →
    ∀ j ∈ institutional, m t d j.1 = 0

/-- The answers about a symbol, in detail. -/
structure SymbolAnswer (m : Trading F) (symbol : String) where
  quotes : Quotes F
  columns : ∀ f ∈ quotes.value, ∀ i ∈ investors, i.1 ∈ f.columns
  cell : ∀ f ∈ quotes.value, ∀ d ∈ f.index, ∀ i ∈ institutional, f.cell d i.1 = m symbol d i.1

/-- What one insert into the table comes from. -/
inductive Collection (m : Trading F)
  | bulk (d : ℤ) (univ : List String) (answer : DayAnswer m d)
  | perSymbol (symbol : String) (answer : SymbolAnswer m symbol)

variable {m : Trading F}

def Collection.rows : Collection m → List (FlowRow F)
  | bulk d univ answer => dayRows d univ answer.frames
  | perSymbol symbol answer => flowRows symbol answer.quotes

def stored (inserts : List (Collection m)) : List (FlowRow F) :=
  final FlowRow.key (inserts.flatMap Collection.rows)

/-! ## Reading -/

variable {flow rows after : List (FlowRow F)} {symbol investor s : String} {date d : ℤ}
  {r : FlowRow F} {inserts more : List (Collection m)}

theorem pivot_final : pivot (final FlowRow.key rows) s d investor =
    (latest (s, d, investor) (keyed FlowRow.key rows)).map FlowRow.netValue := by
  unfold pivot
  rw [filter_final]
  cases latest (s, d, investor) (keyed FlowRow.key rows) with
  | none => rfl
  | some r => simp

theorem pivot_of_has {v : F} (hv : ∀ r ∈ rows, r.key = (s, d, investor) → r.netValue = v)
    (h : Has rows s d investor) : pivot (final FlowRow.key rows) s d investor = some v := by
  obtain ⟨r, hr, hkey⟩ := h
  obtain ⟨r', hlast⟩ := exists_latest_keyed FlowRow.key hr
  obtain ⟨hr', hkey'⟩ := mem_of_latest_keyed hlast
  rw [pivot_final, ← hkey, hlast, Option.map_some, hv r' hr' (hkey'.trans hkey)]

theorem pivot_of_not_has (h : ¬ Has rows s d investor) :
    pivot (final FlowRow.key rows) s d investor = none := by
  rw [pivot_final, latest_eq_none, Option.map_none]
  intro r hr
  exact h ⟨r, mem_keyed.mp hr⟩

/-! ## What the collectors write -/

/-- The rows tell totals and classes as they were traded; where a day has some row, it has its
total, all its classes, or no institutional trades. -/
structure Told (m : Trading F) (rows : List (FlowRow F)) : Prop where
  total : ∀ r ∈ rows, r.investor = "institution" → r.netValue = m.total r.symbol r.date
  part : ∀ r ∈ rows, ∀ i ∈ institutional, r.investor = i.2 → r.netValue = m r.symbol r.date i.1
  origin : ∀ r ∈ rows, Has rows r.symbol r.date "institution" ∨
    (∀ i ∈ institutional, Has rows r.symbol r.date i.2) ∨
    ∀ i ∈ institutional, m r.symbol r.date i.1 = 0
  detailed : ∀ r ∈ rows, r.investor = "other_foreign" → ∀ i ∈ investors,
    Has rows r.symbol r.date i.2

theorem Told.append (h : Told m rows) (h' : Told m after) : Told m (rows ++ after) := by
  have hleft : rows ⊆ rows ++ after := List.subset_append_left ..
  have hright : after ⊆ rows ++ after := List.subset_append_right ..
  constructor
  · intro r hr
    rcases List.mem_append.mp hr with hr | hr
    · exact h.total r hr
    · exact h'.total r hr
  · intro r hr
    rcases List.mem_append.mp hr with hr | hr
    · exact h.part r hr
    · exact h'.part r hr
  · intro r hr
    rcases List.mem_append.mp hr with hr | hr
    · exact (h.origin r hr).imp (·.mono hleft) (.imp_left fun h i hi => (h i hi).mono hleft)
    · exact (h'.origin r hr).imp (·.mono hright) (.imp_left fun h i hi => (h i hi).mono hright)
  · intro r hr hforeign i hi
    rcases List.mem_append.mp hr with hr | hr
    · exact (h.detailed r hr hforeign i hi).mono hleft
    · exact (h'.detailed r hr hforeign i hi).mono hright

theorem mem_flowRows {q : Quotes F} : r ∈ flowRows symbol q ↔
    ∃ f ∈ q.value, ∃ d ∈ f.index, ∃ i ∈ investors, i.1 ∈ f.columns ∧
      r = ⟨d, symbol, i.2, f.cell d i.1, netVolume q.volume d i.1⟩ := by
  unfold flowRows
  cases q.value with
  | none => simp
  | some f =>
    simp only [List.mem_flatMap, List.mem_map, List.mem_filter, decide_eq_true_eq, and_assoc,
      Option.mem_def, Option.some.injEq, exists_eq_left', eq_comm (a := r)]

theorem dayInvestors_total : ∀ i ∈ dayInvestors, i.2 = "institution" → i.1 = "기관합계" := by
  decide

theorem dayInvestors_part : ∀ i ∈ dayInvestors, ∀ j ∈ institutional, i.2 = j.2 →
    i.1 = "연기금" ∧ j.1 = "연기금" := by
  decide

theorem dayInvestors_not_detailed : ∀ i ∈ dayInvestors, i.2 ≠ "other_foreign" := by
  decide

theorem investors_no_total : ∀ i ∈ investors, i.2 ≠ "institution" := by
  decide

theorem investors_part : ∀ i ∈ investors, ∀ j ∈ institutional, i.2 = j.2 → i.1 = j.1 := by
  decide

theorem told_dayRows (answer : DayAnswer m d) (univ : List String) :
    Told m (dayRows d univ answer.frames) := by
  constructor
  · intro r hr htotal
    obtain ⟨i, hi, t, ht, -, rfl⟩ := mem_dayRows.mp hr
    have hname := dayInvestors_total i hi htotal
    exact hname ▸ answer.total t (hname ▸ ht)
  · intro r hr j hj hpart
    obtain ⟨i, hi, t, ht, -, rfl⟩ := mem_dayRows.mp hr
    obtain ⟨hname, hname'⟩ := dayInvestors_part i hi j hj hpart
    rw [hname']
    exact hname ▸ answer.pension t (hname ▸ ht)
  · intro r hr
    obtain ⟨i, hi, t, ht, huniv, rfl⟩ := mem_dayRows.mp hr
    by_cases htotal : t ∈ (answer.frames "기관합계").index
    · left
      refine ⟨_, mem_dayRows.mpr ⟨("기관합계", "institution"), ?_, t, htotal, huniv, rfl⟩, rfl⟩
      simp [dayInvestors]
    · exact .inr (.inr (answer.absent i hi t ht htotal))
  · intro r hr hforeign
    obtain ⟨i, hi, t, -, -, rfl⟩ := mem_dayRows.mp hr
    exact absurd hforeign (dayInvestors_not_detailed i hi)

theorem told_flowRows (answer : SymbolAnswer m symbol) :
    Told m (flowRows symbol answer.quotes) := by
  have hall {f : FlowFrame F} (hf : f ∈ answer.quotes.value) {d : ℤ} (hd : d ∈ f.index)
      {i : String × String} (hi : i ∈ investors) :
      Has (flowRows symbol answer.quotes) symbol d i.2 :=
    ⟨_, mem_flowRows.mpr ⟨f, hf, d, hd, i, hi, answer.columns f hf i hi, rfl⟩, rfl⟩
  constructor
  · intro r hr htotal
    obtain ⟨f, -, d, -, i, hi, -, rfl⟩ := mem_flowRows.mp hr
    exact absurd htotal (investors_no_total i hi)
  · intro r hr j hj hpart
    obtain ⟨f, hf, d, hd, i, hi, -, rfl⟩ := mem_flowRows.mp hr
    have hname := investors_part i hi j hj hpart
    exact hname ▸ answer.cell f hf d hd j hj
  · intro r hr
    obtain ⟨f, hf, d, hd, i, -, -, rfl⟩ := mem_flowRows.mp hr
    exact .inr (.inl fun j hj => hall hf hd (List.mem_of_mem_filter hj))
  · intro r hr _ j hj
    obtain ⟨f, hf, d, hd, i, -, -, rfl⟩ := mem_flowRows.mp hr
    exact hall hf hd hj

/-- Whatever the collectors insert, and in whatever order, the rows stay true. -/
theorem told_rows : ∀ inserts : List (Collection m), Told m (inserts.flatMap Collection.rows)
  | [] => ⟨nofun, nofun, nofun, nofun⟩
  | .bulk _ univ answer :: inserts => (told_dayRows answer univ).append (told_rows inserts)
  | .perSymbol _ answer :: inserts => (told_flowRows answer).append (told_rows inserts)

/-! ## The net purchases that are read -/

theorem Told.pivot_total (h : Told m rows) (hhas : Has rows s d "institution") :
    pivot (final FlowRow.key rows) s d "institution" = some (m.total s d) := by
  refine pivot_of_has (fun r hr hkey => ?_) hhas
  simp only [FlowRow.key, Prod.mk.injEq] at hkey
  obtain ⟨rfl, rfl, htotal⟩ := hkey
  exact h.total r hr htotal

theorem Told.pivot_part (h : Told m rows) {i : String × String} (hi : i ∈ institutional)
    (hhas : Has rows s d i.2) : pivot (final FlowRow.key rows) s d i.2 = some (m s d i.1) := by
  refine pivot_of_has (fun r hr hkey => ?_) hhas
  simp only [FlowRow.key, Prod.mk.injEq] at hkey
  obtain ⟨rfl, rfl, hpart⟩ := hkey
  exact h.part r hr i hi hpart

theorem inst_eq : inst = institutional.map Prod.snd := by decide

theorem Told.instNet_of_has (h : Told m rows) (hhas : Has rows s d "institution") :
    instNet (final FlowRow.key rows) s d = m.total s d := by
  rw [instNet, if_pos hhas.mem_columns, h.pivot_total hhas, Option.getD_some]

/-- A total anywhere in the table hides the classes. -/
theorem instNet_of_not_has (hcol : "institution" ∈ columns (final FlowRow.key rows))
    (hhas : ¬ Has rows s d "institution") : instNet (final FlowRow.key rows) s d = 0 := by
  rw [instNet, if_pos hcol, pivot_of_not_has hhas, Option.getD_none]

theorem Told.instNet_eq_total (h : Told m rows)
    (hcol : "institution" ∉ columns (final FlowRow.key rows))
    (hcell : (s, d) ∈ cells (final FlowRow.key rows)) :
    instNet (final FlowRow.key rows) s d = m.total s d := by
  rw [instNet, if_neg hcol]
  obtain ⟨r, hr, rfl, rfl⟩ := mem_cells_final.mp hcell
  rcases h.origin r hr with hhas | hall | hzero
  · exact absurd hhas.mem_columns hcol
  · have hcols : inst.filter (fun c => c ∈ columns (final FlowRow.key rows)) = inst := by
      rw [List.filter_eq_self, inst_eq, List.forall_mem_map]
      exact fun i hi => decide_eq_true (hall i hi).mem_columns
    rw [hcols, inst_eq, List.map_map, Trading.total]
    congr 1
    refine List.map_congr_left fun i hi => ?_
    rw [Function.comp_apply, h.pivot_part hi (hall i hi), Option.getD_some]
  · have hpart : ∀ i ∈ institutional,
        (pivot (final FlowRow.key rows) r.symbol r.date i.2).getD 0 = 0 := by
      intro i hi
      by_cases hhas : Has rows r.symbol r.date i.2
      · rw [h.pivot_part hi hhas, Option.getD_some, hzero i hi]
      · rw [pivot_of_not_has hhas, Option.getD_none]
    rw [Trading.total, List.sum_eq_zero, List.sum_eq_zero]
    · rw [List.forall_mem_map]
      exact hzero
    · rw [List.forall_mem_map]
      intro c hc
      have hc := List.mem_of_mem_filter hc
      rw [inst_eq, List.mem_map] at hc
      obtain ⟨i, hi, rfl⟩ := hc
      exact hpart i hi

theorem flowNets_of_columns (hforeign : "foreign" ∈ columns flow)
    (hother : "other_foreign" ∈ columns flow) (hpension : "pension" ∈ columns flow) :
    ∃ foreign pension : String → ℤ → F, flowNets flow = .ok ((cells flow).map fun c =>
      ⟨c.1, c.2, foreign c.1 c.2, instNet flow c.1 c.2, pension c.1 c.2⟩) := by
  have hne : flow.isEmpty = false := by
    cases flow with
    | nil => cases hforeign
    | cons => rfl
  simp only [flowNets, filled, if_pos hforeign, if_pos hother, if_pos hpension, hne]
  exact ⟨fun s d => (pivot flow s d "foreign").getD 0 + (pivot flow s d "other_foreign").getD 0,
    fun s d => (pivot flow s d "pension").getD 0, rfl⟩

theorem readInst_of_not_mem (h : "other_foreign" ∉ columns flow) : readInst flow s d = none := by
  unfold readInst flowNets
  cases hempty : flow.isEmpty with
  | true => rfl
  | false =>
    by_cases hforeign : "foreign" ∈ columns flow
    · simp [filled, hforeign, h, bind, Except.bind]
    · simp [filled, hforeign, bind, Except.bind]

theorem find?_cell {l : List (String × ℤ)} (h : (s, d) ∈ l) :
    l.find? (fun c => c.1 = s ∧ c.2 = d) = some (s, d) := by
  have hsome : (l.find? fun c => c.1 = s ∧ c.2 = d).isSome :=
    List.find?_isSome.mpr ⟨(s, d), h, by simp⟩
  obtain ⟨c, hc⟩ := Option.isSome_iff_exists.mp hsome
  obtain ⟨rfl, rfl⟩ : c.1 = s ∧ c.2 = d := by simpa using List.find?_some hc
  exact hc

theorem Told.readInst_eq (h : Told m rows)
    (hother : "other_foreign" ∈ columns (final FlowRow.key rows))
    (hcell : (s, d) ∈ cells (final FlowRow.key rows)) :
    readInst (final FlowRow.key rows) s d = some (instNet (final FlowRow.key rows) s d) := by
  obtain ⟨r, hr, hinvestor⟩ := mem_columns_final.mp hother
  have hall {i : String × String} (hi : i ∈ investors) :=
    (h.detailed r hr hinvestor i hi).mem_columns
  obtain ⟨foreign, pension, hnets⟩ := flowNets_of_columns
    (hall (i := ("외국인", "foreign")) (by decide)) hother
    (hall (i := ("연기금", "pension")) (by decide))
  rw [readInst, hnets]
  simp only [List.find?_map, Function.comp_def, find?_cell hcell, Option.map_some]

/-- The institutional net purchases of a stored day are read exactly when some day is stored by
its classes, and the day has its total, or no day has, or they are zero. -/
theorem Told.readInst_eq_total_iff (h : Told m rows)
    (hcell : (s, d) ∈ cells (final FlowRow.key rows)) :
    readInst (final FlowRow.key rows) s d = some (m.total s d) ↔
      "other_foreign" ∈ columns (final FlowRow.key rows) ∧
        ("institution" ∈ columns (final FlowRow.key rows) →
          Has rows s d "institution" ∨ m.total s d = 0) := by
  by_cases hother : "other_foreign" ∈ columns (final FlowRow.key rows)
  · rw [h.readInst_eq hother hcell, Option.some.injEq, and_iff_right hother]
    by_cases hcol : "institution" ∈ columns (final FlowRow.key rows)
    · by_cases hhas : Has rows s d "institution"
      · simp [h.instNet_of_has hhas, hhas]
      · simp [instNet_of_not_has hcol hhas, hhas, hcol, eq_comm]
    · simp [h.instNet_eq_total hcol hcell, hcol]
  · simp [readInst_of_not_mem hother, hother]

/-! ## More rows -/

/-- Rows of other days change what is read of a day exactly when they make the table readable,
or hide its classes. -/
theorem Told.readInst_append_iff (h : Told m rows) (h' : Told m (rows ++ after))
    (hcell : (s, d) ∈ cells (final FlowRow.key rows))
    (hafter : ∀ r ∈ after, ¬ (r.symbol = s ∧ r.date = d)) :
    readInst (final FlowRow.key (rows ++ after)) s d = readInst (final FlowRow.key rows) s d ↔
      ("other_foreign" ∈ columns (final FlowRow.key (rows ++ after)) →
        "other_foreign" ∈ columns (final FlowRow.key rows) ∧
          ("institution" ∈ columns (final FlowRow.key (rows ++ after)) →
            "institution" ∈ columns (final FlowRow.key rows) ∨ m.total s d = 0)) := by
  have hcell' : (s, d) ∈ cells (final FlowRow.key (rows ++ after)) := by
    obtain ⟨r, hr, hrow⟩ := mem_cells_final.mp hcell
    exact mem_cells_final.mpr ⟨r, List.mem_append_left _ hr, hrow⟩
  by_cases hother' : "other_foreign" ∈ columns (final FlowRow.key (rows ++ after))
  · rw [h'.readInst_eq hother' hcell', imp_iff_right hother']
    by_cases hother : "other_foreign" ∈ columns (final FlowRow.key rows)
    · rw [h.readInst_eq hother hcell, Option.some.injEq, and_iff_right hother]
      by_cases hhas : Has rows s d "institution"
      · have hhas' := (has_append_iff hafter).mpr hhas
        simp [h.instNet_of_has hhas, h'.instNet_of_has hhas', hhas.mem_columns]
      · have hhas' := mt (has_append_iff hafter).mp hhas
        by_cases hcol' : "institution" ∈ columns (final FlowRow.key (rows ++ after))
        · rw [instNet_of_not_has hcol' hhas', imp_iff_right hcol']
          by_cases hcol : "institution" ∈ columns (final FlowRow.key rows)
          · simp [instNet_of_not_has hcol hhas, hcol]
          · simp [h.instNet_eq_total hcol hcell, hcol, eq_comm]
        · have hcol := mt columns_final_append hcol'
          simp [h.instNet_eq_total hcol hcell, h'.instNet_eq_total hcol' hcell', hcol']
    · simp [readInst_of_not_mem hother, hother]
  · have hother := mt columns_final_append hother'
    simp [readInst_of_not_mem hother, readInst_of_not_mem hother', hother']

/-- The institutional net purchases of a stored day are read exactly when some day is stored by
its classes, and the day has its total, or no day has, or they are zero; rows of other days
leave them as they are exactly when they bring neither the first classes nor, to classes that
were read, the first total. -/
theorem readInst_iff (inserts : List (Collection m)) (hcell : (s, d) ∈ cells (stored inserts)) :
    (readInst (stored inserts) s d = some (m.total s d) ↔
      "other_foreign" ∈ columns (stored inserts) ∧
        ("institution" ∈ columns (stored inserts) →
          Has (stored inserts) s d "institution" ∨ m.total s d = 0)) ∧
    ∀ more : List (Collection m),
      (∀ r ∈ more.flatMap Collection.rows, ¬ (r.symbol = s ∧ r.date = d)) →
        (readInst (stored (inserts ++ more)) s d = readInst (stored inserts) s d ↔
          ("other_foreign" ∈ columns (stored (inserts ++ more)) →
            "other_foreign" ∈ columns (stored inserts) ∧
              ("institution" ∈ columns (stored (inserts ++ more)) →
                "institution" ∈ columns (stored inserts) ∨ m.total s d = 0))) := by
  constructor
  · rw [stored, has_final]
    exact (told_rows inserts).readInst_eq_total_iff hcell
  · intro more hmore
    have h' := told_rows (inserts ++ more)
    rw [List.flatMap_append] at h'
    rw [stored, stored, List.flatMap_append]
    exact (told_rows inserts).readInst_append_iff h' hcell hmore

/-! ## A mixed table -/

/-- On one day the securities firms buy seven of `B`, and of `A` the pension funds two and the
banks three. -/
def firms : Trading ℤ
  | "B", 1, "금융투자" => 7
  | "A", 1, "연기금" => 2
  | "A", 1, "은행" => 3
  | _, _, _ => 0

/-- The answers about a day that lists one ticker. -/
def oneTicker (t : String) (value : String → ℤ) : String → TickerFrame ℤ :=
  fun i => ⟨[t], fun _ => value i, fun _ => 0⟩

def firmsDay : DayAnswer firms 1 where
  frames := oneTicker "A" fun
    | "기관합계" => 5
    | "연기금" => 2
    | _ => -5
  total := by decide
  pension := by decide
  absent := by decide

def firmsDetail : SymbolAnswer firms "B" where
  quotes := ⟨some ⟨[1], investors.map Prod.fst, firms "B"⟩, none, none, none, none⟩
  columns := by
    rintro f ⟨⟩ i hi
    exact List.mem_map_of_mem hi
  cell := by simp

/-- The classes of `B` stored alone, and then the total of `A`. -/
def classesFirst : List (Collection firms) := [.perSymbol "B" firmsDetail]

def totalsLater : List (Collection firms) := [.bulk 1 ["A", "B"] firmsDay]

theorem readInst_iff_mixed :
    readInst (stored (classesFirst ++ totalsLater)) "B" 1 ≠
      readInst (stored classesFirst) "B" 1 := by
  intro h
  have hcell : ("B", 1) ∈ cells (stored classesFirst) := by decide +kernel
  have hmore : ∀ r ∈ totalsLater.flatMap Collection.rows, ¬ (r.symbol = "B" ∧ r.date = 1) := by
    decide +kernel
  have hkept := ((readInst_iff classesFirst hcell).2 totalsLater hmore).mp h
  revert hkept
  decide +kernel

/-- The classes of `B` sum up to seven and read as zero once the total of `A` is there; that
total alone is not read. -/
theorem classes_hidden :
    firms.total "B" 1 = 7 ∧ readInst (stored classesFirst) "B" 1 = some 7 ∧
    readInst (stored (classesFirst ++ totalsLater)) "B" 1 = some 0 ∧
    firms.total "A" 1 = 5 ∧ readInst (stored (classesFirst ++ totalsLater)) "A" 1 = some 5 ∧
    ("A", 1) ∈ cells (stored totalsLater) ∧ readInst (stored totalsLater) "A" 1 = none := by
  decide +kernel

end QuantTrader.Krx
