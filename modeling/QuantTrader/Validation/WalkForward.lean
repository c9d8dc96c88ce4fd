import Mathlib.Data.List.Sort
import Mathlib.Data.List.SplitLengths
import Mathlib.Data.Rat.Defs

/-! # Walk-forward splits of a panel

The dates of a panel are split into consecutive test blocks; a fold trains on
the dates that lie some positions before its block. The label of a bar is the
return up to a later bar of its own symbol, counted in the bars of that symbol.
-/

namespace QuantTrader.Validation

structure Bar where
  date : ℤ
  close : ℚ

/-- The symbols and their bars by date; a symbol may miss any days. -/
structure Panel (σ : Type*) where
  symbols : List σ
  series : σ → List Bar
  ascending : ∀ s, (series s).Pairwise fun a b => a.date < b.date

/-- `sorted(set(dates))`. -/
def sortedSet (dates : List ℤ) : List ℤ := dates.dedup.insertionSort (· ≤ ·)

def Panel.dates {σ : Type*} (p : Panel σ) : List ℤ :=
  sortedSet (p.symbols.flatMap fun s => (p.series s).map Bar.date)

/-- A series beside `s.shift(-horizon)`. -/
def shifted (horizon : ℕ) (s : List Bar) : List (Bar × Option Bar) :=
  s.mapIdx fun i b => (b, s[i + horizon]?)

/-- `fwd_ret` of a symbol at a date. -/
def Panel.fwdRet {σ : Type*} (p : Panel σ) (horizon : ℕ) (s : σ) (date : ℤ) : Option ℚ :=
  ((shifted horizon (p.series s)).find? fun x => x.1.date = date).bind fun x =>
    x.2.map fun later => later.close / x.1.close - 1

section Python

variable {α : Type*}

/-- `l[:stop]`. -/
def sliceTo (l : List α) (stop : ℤ) : List α :=
  l.take (if 0 ≤ stop then stop else l.length + stop).toNat

/-- `l[start:]`. -/
def sliceFrom (l : List α) (start : ℤ) : List α :=
  l.drop (if 0 ≤ start then start else l.length + start).toNat

/-- `np.array_split`: the first blocks get one element more. -/
def arraySplit (l : List α) (n : ℕ) : List (List α) :=
  (List.replicate (l.length % n) (l.length / n + 1) ++
    List.replicate (n - l.length % n) (l.length / n)).splitLengths l

/-- `np.searchsorted` on sorted dates. -/
def searchsorted (dates : List ℤ) (date : ℤ) : ℕ := dates.findIdx (date ≤ ·)

end Python

/-- The training dates, and the test block with its first date apart. -/
structure Fold where
  train : List ℤ
  testStart : ℤ
  rest : List ℤ
  deriving DecidableEq

/-- The end of the training dates as an index. -/
def cut (dates : List ℤ) (horizon embargo : ℕ) (testStart : ℤ) : ℤ :=
  searchsorted dates testStart - (horizon + embargo)

def blocks (dates : List ℤ) (nSplits minTrain : ℤ) : List (List ℤ) :=
  arraySplit (sliceFrom dates minTrain) nSplits.toNat

/-- `purged_walkforward`; without a positive number of splits `np.array_split` raises. -/
def purgedWalkforward (dates : List ℤ) (nSplits : ℤ) (horizon embargo : ℕ) (minTrain : ℤ) :
    Except String (List Fold) :=
  let dates := sortedSet dates
  if dates.length ≤ minTrain + nSplits then
    .error s!"날짜 부족: {dates.length} (min_train={minTrain}, n_splits={nSplits})"
  else if nSplits ≤ 0 then .error "number sections must be larger than 0."
  else .ok <| (blocks dates nSplits minTrain).filterMap fun
    | [] => none
    | testStart :: rest =>
      if cut dates horizon embargo testStart < minTrain / 2 then none
      else some ⟨sliceTo dates (cut dates horizon embargo testStart), testStart, rest⟩

end QuantTrader.Validation
