import QuantTrader.Features.CrossMarket

/-! # Institutional holdings as features

A quarter of 13F filings is known 45 days after its end. `daily_13f_from_store` gives
a row the last quarter known by its date, with the changes since the quarter before.
-/

namespace QuantTrader.Features

open Series Floats

/-- A row of `institutional_13f`. -/
structure HoldingRow (F : Type) where
  symbol : String
  periodEnd : ℤ
  numHolders : F
  totalShares : F

/-- The table read with `FINAL`: one row for a symbol and a quarter. -/
structure HoldingTable (F : Type) where
  rows : List (HoldingRow F)
  keyed : Frames.Keyed HoldingRow.symbol HoldingRow.periodEnd rows

section Columns

variable {F : Type} [Floats F]

/-- The days after a quarter until its filings are known. -/
def filingDelay : ℤ := 45

/-- `pct_change()`. -/
def pctChange {α : Type} (x : Causal α F) : Causal α F := x / shift 1 x - lit 1

structure Quarter13f (F : Type) where
  symbol : String
  periodEnd : ℤ
  values : List (String × F)

/-- `np.log1p`. -/
def log1p (x : F) : F := log (ofRat 1 + x)

/-- The columns of the quarters of a symbol. -/
def columns13f : List (String × Causal (HoldingRow F) F) :=
  let holders := Causal.map HoldingRow.numHolders
  let shares := Causal.map HoldingRow.totalShares
  [("f13_holders", cells log1p holders),
    ("f13_shares", cells log1p shares),
    ("f13_holders_qoq", pctChange holders),
    ("f13_shares_qoq", pctChange shares)]

def quarterOf : Causal (HoldingRow F) (Quarter13f F) :=
  .zipWith (fun r values => ⟨r.symbol, r.periodEnd, values⟩) (.map id) (.table columns13f)

/-- The quarters of `institutional_13f` with their columns, by symbol and quarter. -/
def quarters (S : Frames.Sorting) (t : HoldingTable F) : List (Quarter13f F) :=
  Frames.applyGroups S HoldingRow.symbol HoldingRow.periodEnd t.rows quarterOf.run

/-- The columns of `daily_13f_from_store` for a row: those of the last quarter filed by its date. -/
def daily13f (S : Frames.Sorting) (t : HoldingTable F) (r : Candle F) : List (String × F) :=
  let qs := (quarters S t).filter fun q => q.symbol = r.symbol
  let filed := qs.map fun q => (q.periodEnd + filingDelay, q.values)
  (S.asof filed r.date).getD ((columns13f (F := F)).map fun col => (col.1, nan))

/-- `daily_13f_from_store`: symbols without filings are left out. -/
def daily13fFromStore (S : Frames.Sorting) (t : HoldingTable F) (p : Panel F) : Table F :=
  .concat ((columns13f (F := F)).map Prod.fst) <| perRow S p fun r =>
    if t.rows.any fun q => q.symbol = r.symbol then some (daily13f S t r) else none

/-- The table as it can be known by the end of a date. -/
def HoldingTable.upTo (t : HoldingTable F) (d : ℤ) : HoldingTable F where
  rows := t.rows.filter fun q => q.periodEnd ≤ d - filingDelay
  keyed := t.keyed.filter _

end Columns

section UpTo

variable {F : Type} [Floats F] {S : Frames.Sorting} {t : HoldingTable F} {p : Panel F} {d : ℤ}
  {r : Candle F}

theorem map_quarterOf (l : List (HoldingRow F)) :
    (quarterOf.run l).map (fun q => (q.symbol, q.periodEnd)) =
      l.map fun r => (r.symbol, r.periodEnd) :=
  calc (quarterOf.run l).map (fun q => (q.symbol, q.periodEnd))
      = ((Causal.map id).run l).map fun r => (r.symbol, r.periodEnd) :=
        Causal.map_run_zipWith (g := fun q : Quarter13f F => (q.symbol, q.periodEnd)) (.map id)
          (.table columns13f) (fun _ _ => by rfl) l
    _ = l.map fun r => (r.symbol, r.periodEnd) := congrArg (List.map _) (List.map_id l)

theorem quarters_keyed : Frames.Keyed Quarter13f.symbol Quarter13f.periodEnd (quarters S t) :=
  (Frames.map_applyGroups_perm t.keyed map_quarterOf).nodup_iff.mpr t.keyed

theorem quarters_upTo : quarters S (t.upTo d) =
    (quarters S t).filter fun q => q.periodEnd ≤ d - filingDelay := by
  refine Frames.applyGroups_upTo t.keyed quarterOf Quarter13f.periodEnd fun l => ?_
  have h := congrArg (List.map Prod.snd) (map_quarterOf l)
  rwa [List.map_map, List.map_map] at h

theorem daily13f_upTo (hr : r.date ≤ d) : daily13f S (t.upTo d) r = daily13f S t r := by
  unfold daily13f
  dsimp only
  congr 1
  refine Frames.Sorting.asof_congr hr ?_ ?_
  · rw [quarters_upTo, List.filter_map, List.filter_map, List.filter_filter, List.filter_filter,
      List.filter_filter]
    congr 1
    refine List.filter_congr fun q _ => ?_
    have hiff : q.periodEnd ≤ d - filingDelay ↔ q.periodEnd + filingDelay ≤ d := by omega
    by_cases hq : q.periodEnd + filingDelay ≤ d <;> simp [hq, hiff]
  · right
    intro a ha b hb _ hab
    obtain ⟨q, hq, rfl⟩ := List.mem_map.mp ha
    obtain ⟨q', hq', rfl⟩ := List.mem_map.mp hb
    obtain ⟨hq, hs⟩ := List.mem_filter.mp hq
    obtain ⟨hq', hs'⟩ := List.mem_filter.mp hq'
    have hsym : q.symbol = q'.symbol :=
      (of_decide_eq_true hs).trans (of_decide_eq_true hs').symm
    have hper : q.periodEnd = q'.periodEnd := by
      have : q.periodEnd + filingDelay = q'.periodEnd + filingDelay := hab
      omega
    rw [quarters_keyed.eq hq hq' hsym hper]

theorem daily13f_of_not_any (h : ¬ t.rows.any fun q => q.symbol = r.symbol) :
    daily13f S t r = (columns13f (F := F)).map fun col => (col.1, nan) := by
  have hnone : (quarters S t).filter (fun q => q.symbol = r.symbol) = [] := by
    refine List.filter_eq_nil_iff.mpr fun q hq hsymbol => h ?_
    have hmem : (q.symbol, q.periodEnd) ∈ (quarters S t).map fun q => (q.symbol, q.periodEnd) :=
      List.mem_map_of_mem hq
    have hperm := Frames.map_applyGroups_perm (S := S) t.keyed map_quarterOf
    obtain ⟨row, hrow, hkey⟩ := List.mem_map.mp (hperm.mem_iff.mp hmem)
    refine List.any_eq_true.mpr ⟨row, hrow, decide_eq_true ?_⟩
    exact (congrArg Prod.fst hkey).trans (of_decide_eq_true hsymbol)
  unfold daily13f
  rw [hnone]
  dsimp only
  rw [List.map_nil, Frames.Sorting.asof_nil, Option.getD_none]

/-- Up to a date the frame is that of the filings known by it, once it has its columns. -/
theorem daily13fFromStore_upTo
    (hcols : (daily13fFromStore S (t.upTo d) (p.upTo d)).columns =
      (daily13fFromStore S t p).columns) :
    (daily13fFromStore S (t.upTo d) (p.upTo d)).Agree d (daily13fFromStore S t p) := by
  refine Table.agree_concat hcols fun symbol date hd => partner_perRow_upTo hd fun r hr => ?_
  have hcell : ∀ t : HoldingTable F,
      (if t.rows.any fun q => q.symbol = r.symbol then some (daily13f S t r) else none).getD
        (((columns13f (F := F)).map Prod.fst).map fun name => (name, nan)) = daily13f S t r := by
    intro t
    split_ifs with hany
    · rfl
    · rw [daily13f_of_not_any hany, List.map_map]
      rfl
  rw [hcell, hcell, daily13f_upTo hr]

end UpTo

end QuantTrader.Features
