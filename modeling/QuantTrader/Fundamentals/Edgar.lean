import Mathlib.Data.Prod.Lex
import Mathlib.Data.Rat.Defs
import QuantTrader.Frames.Sorting

/-! # Daily features from filed facts

The stored facts of one symbol become daily features: an instant account is
looked up by its filing date, a flow account is summed over four quarters
first. `none` stands for a missing value and for one that is not finite.
-/

namespace QuantTrader.Fundamentals

open Frames

/-- The accounts of `fundamentals_quarterly`. -/
inductive Concept
  | shares | equity | assets | netIncome | revenue | opCashflow
  deriving DecidableEq

/-- A row of one symbol in `fundamentals_quarterly`; dates count days. -/
structure Fact where
  concept : Concept
  periodEnd : ℤ
  filedDate : ℤ
  durationD : ℕ
  value : ℚ
  deriving DecidableEq

structure Day where
  date : ℤ
  close : ℚ
  volume : ℚ

/-- A quarter of a flow account. -/
structure Quarter where
  periodEnd : ℤ
  filed : ℤ
  value : ℚ
  deriving DecidableEq

/-- A quarter with its sum over a year and the growth of that sum. -/
structure TtmRow where
  periodEnd : ℤ
  filed : ℤ
  ttm : Option ℚ
  yoy : Option ℚ
  deriving DecidableEq

section Arithmetic

def add (x y : Option ℚ) : Option ℚ := do return (← x) + (← y)

def mul (x y : Option ℚ) : Option ℚ := do return (← x) * (← y)

def div (x y : Option ℚ) : Option ℚ := do
  let a ← x
  let b ← y
  if b = 0 then none else some (a / b)

/-- `EPS`. -/
def eps : ℚ := 1 / 10 ^ 12

end Arithmetic

section Concepts

variable (S : Sorting) (cf : List Fact) (c : Concept)

def instants : List (ℤ × ℚ) :=
  (cf.filter fun f => f.concept = c ∧ f.durationD = 0).map fun f => (f.filedDate, f.value)

/-- `inst`. -/
def inst (d : ℤ) : Option ℚ :=
  S.asof (dropDuplicates Prod.fst (S.sort Prod.fst (instants cf c))) d

def quarters : List Quarter :=
  (cf.filter fun f => f.concept = c ∧ 80 ≤ f.durationD ∧ f.durationD ≤ 100).map fun f =>
    ⟨f.periodEnd, f.filedDate, f.value⟩

/-- `rolling(4).sum()` at a row, from its value and the earlier ones, latest first. -/
def rollingSum : List ℚ → Option ℚ
  | a :: b :: c :: d :: _ => some (d + c + b + a)
  | _ => none

/-- The columns `ttm` and `yoy`; the rows before are given with their `ttm`, latest first. -/
def columns : List (ℚ × Option ℚ) → List Quarter → List TtmRow
  | _, [] => []
  | past, q :: qs =>
    let ttm := rollingSum (q.value :: past.map Prod.fst)
    let yoy := add (div ttm (past[3]?.bind Prod.snd)) (some (-1))
    ⟨q.periodEnd, q.filed, ttm, yoy⟩ :: columns ((q.value, ttm) :: past) qs

/-- The last filed row of each quarter. -/
def latestQuarters : List Quarter :=
  dropDuplicates Quarter.periodEnd
    (S.sort (fun q => toLex (q.periodEnd, q.filed)) (quarters cf c))

/-- `ttm` before its lookups. -/
def ttm : List TtmRow :=
  S.sort TtmRow.filed ((columns [] (latestQuarters S cf c)).filter fun r => r.ttm.isSome)

def ttmAsof (d : ℤ) : Option ℚ := (S.asof ((ttm S cf c).map fun r => (r.filed, r.ttm)) d).join

def yoyAsof (d : ℤ) : Option ℚ := (S.asof ((ttm S cf c).map fun r => (r.filed, r.yoy)) d).join

end Concepts

structure Features where
  date : ℤ
  mktcap : Option ℚ
  turnover : Option ℚ
  pbr : Option ℚ
  per : Option ℚ
  psr : Option ℚ
  roe : Option ℚ
  roa : Option ℚ
  revGrowth : Option ℚ
  deriving DecidableEq

def features (S : Sorting) (log : ℚ → ℚ) (cf : List Fact) (x : Day) : Features :=
  let sh := inst S cf .shares x.date
  let eq := inst S cf .equity x.date
  let assets := inst S cf .assets x.date
  let ni := ttmAsof S cf .netIncome x.date
  let rv := ttmAsof S cf .revenue x.date
  let mktcap := mul (some x.close) sh
  { date := x.date
    mktcap := (mktcap.filter fun m => 0 < m).map log
    turnover := div (some x.volume) (add sh (some eps))
    pbr := div mktcap (add eq (some eps))
    per := div mktcap (ni.filter fun n => n ≠ 0)
    psr := div mktcap (add rv (some eps))
    roe := div ni (add eq (some eps))
    roa := div ni (add assets (some eps))
    revGrowth := yoyAsof S cf .revenue x.date }

/-- `_features_from_concepts`, on days in the order of their dates. -/
def featuresFromConcepts (S : Sorting) (log : ℚ → ℚ) (g : List Day) (cf : List Fact) :
    List Features := g.map (features S log cf)

end QuantTrader.Fundamentals
