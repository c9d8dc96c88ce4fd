import QuantTrader.Features.Joins
import QuantTrader.Fundamentals.PointInTime

/-! # Filed facts as features

`daily_fundamentals_from_store` gives a row the features that the facts of its company
filed by its date make. A company files its quarters in order, or else the last filing of
a quarter hides the value that was known before.
-/

namespace QuantTrader.Features

open Floats
open Fundamentals (Fact)

section Columns

variable {F : Type} [Floats F]

def Candle.day (r : Candle F) : Fundamentals.Day := ⟨r.date, toRat r.close, toRat r.volume⟩

def number (x : Option ℚ) : F := (x.map ofRat).getD nan

def fundamentalColumns : List (String × (Fundamentals.Features → Option ℚ)) :=
  [("fund_mktcap", (·.mktcap)),
    ("fund_turnover", (·.turnover)),
    ("fund_pbr", (·.pbr)),
    ("fund_per", (·.per)),
    ("fund_psr", (·.psr)),
    ("fund_roe", (·.roe)),
    ("fund_roa", (·.roa)),
    ("fund_rev_growth", (·.revGrowth))]

def fundamentalNames : List String := fundamentalColumns.map Prod.fst

/-- `np.log` on rationals. -/
def logRat (F : Type) [Floats F] (m : ℚ) : ℚ := toRat (log (ofRat m : F))

def featureCells (f : Fundamentals.Features) : List (String × F) :=
  fundamentalColumns.map fun col => (col.1, number (col.2 f))

/-- The row of `_features_from_concepts` for a day. -/
def companyCells (S : Frames.Sorting) (cf : List Fact) (r : Candle F) : List (String × F) :=
  featureCells (Fundamentals.features S (logRat F) cf r.day)

/-- So the rows of a company are the ones of `_features_from_concepts` on its days. -/
theorem map_companyCells (S : Frames.Sorting) (cf : List Fact) (g : List (Candle F)) :
    g.map (companyCells S cf) =
      (Fundamentals.featuresFromConcepts S (logRat F) (g.map Candle.day) cf).map featureCells := by
  rw [Fundamentals.featuresFromConcepts, List.map_map, List.map_map]
  rfl

/-- `daily_fundamentals_from_store`: symbols without facts are left out. -/
def dailyFundamentalsFromStore (S : Frames.Sorting) (facts : String → List Fact) (p : Panel F) :
    Table F :=
  .concat fundamentalNames <| perRow S p fun r =>
    if (facts r.symbol).isEmpty then none else some (companyCells S (facts r.symbol) r)

end Columns

def filedBy (d : ℤ) (facts : String → List Fact) (symbol : String) : List Fact :=
  Fundamentals.known d (facts symbol)

/-- No company restates a quarter after a date, and its filings up to the date can be ordered. -/
def Settled (S : Frames.Sorting) (d : ℤ) (facts : String → List Fact) : Prop :=
  ∀ symbol, Fundamentals.Forward d (facts symbol) ∧
    (S.Stable ∨ Fundamentals.Apart d (facts symbol))

section UpTo

variable {F : Type} [Floats F] {S : Frames.Sorting} {p : Panel F} {d : ℤ}
  {facts : String → List Fact} {cf : List Fact} {r : Candle F}

theorem forward_filedBy {symbol : String} : Fundamentals.Forward d (filedBy d facts symbol) := by
  intro c _ a _ _ b hb hlate
  obtain ⟨f, hf, rfl⟩ := List.mem_map.mp hb
  have hfiled := of_decide_eq_true (List.mem_filter.mp (List.mem_of_mem_filter hf)).2
  exact absurd hfiled (not_le.mpr hlate)

theorem known_filedBy {symbol : String} :
    Fundamentals.known d (facts symbol) = Fundamentals.known d (filedBy d facts symbol) := by
  unfold filedBy Fundamentals.known
  rw [List.filter_filter]
  simp only [Bool.and_self]

theorem companyCells_upTo (h : Settled S d facts) (hr : r.date ≤ d) :
    companyCells S (filedBy d facts r.symbol) r = companyCells S (facts r.symbol) r := by
  obtain ⟨hforward, hties⟩ := h r.symbol
  unfold companyCells
  rw [Fundamentals.features_eq _ (.of_eq known_filedBy hties) hforward forward_filedBy hr]

theorem companyCells_nil : companyCells S [] r = fundamentalNames.map fun name => (name, nan) := by
  have hinst : ∀ c d, Fundamentals.inst S [] c d = none := by
    intro c d
    rw [Fundamentals.inst, Fundamentals.instants, List.filter_nil, List.map_nil,
      (S.perm Prod.fst []).eq_nil]
    exact Frames.Sorting.asof_nil d
  have httm : ∀ c, Fundamentals.ttm S [] c = [] := by
    intro c
    rw [Fundamentals.ttm, Fundamentals.latestQuarters, Fundamentals.quarters, List.filter_nil,
      List.map_nil, (S.perm _ []).eq_nil]
    exact (S.perm _ []).eq_nil
  unfold companyCells Fundamentals.features Fundamentals.ttmAsof Fundamentals.yoyAsof
  simp only [hinst, httm, List.map_nil, Frames.Sorting.asof_nil]
  rfl

/-- Up to a date the frame is that of the facts filed by it, once it has its columns. -/
theorem dailyFundamentalsFromStore_upTo (h : Settled S d facts)
    (hcols : (dailyFundamentalsFromStore S (filedBy d facts) (p.upTo d)).columns =
      (dailyFundamentalsFromStore S facts p).columns) :
    (dailyFundamentalsFromStore S (filedBy d facts) (p.upTo d)).Agree d
      (dailyFundamentalsFromStore S facts p) := by
  refine Table.agree_concat hcols fun symbol date hd => partner_perRow_upTo hd fun r hr => ?_
  have hcell : ∀ cf : List Fact,
      (if cf.isEmpty then none else some (companyCells S cf r)).getD
        (fundamentalNames.map fun name => (name, nan)) = companyCells S cf r := by
    intro cf
    split_ifs with hempty
    · rw [List.isEmpty_iff.mp hempty, companyCells_nil]
      rfl
    · rfl
  rw [hcell, hcell, companyCells_upTo h hr]

end UpTo

end QuantTrader.Features
