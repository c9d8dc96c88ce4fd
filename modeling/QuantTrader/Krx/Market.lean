import Mathlib.Algebra.Order.Ring.Int
import Mathlib.Data.List.Sort
import Mathlib.Data.List.Dedup

/-! # The KRX collector

Investor flows, foreign holdings and short sales of every symbol, from the day
before the least of the tables' latest dates by a buffer to the day of the run. A
symbol that raises is skipped; its inserts before the exception stay.
-/

namespace QuantTrader.Krx

variable {F : Type} [Zero F]

/-! ## Data frames -/

structure FlowFrame (F : Type) where
  index : List ℤ
  columns : List String
  cell : ℤ → String → F

structure HoldingFrame (F : Type) where
  index : List ℤ
  listedShares : ℤ → F
  heldShares : ℤ → F
  holdingRatio : ℤ → F
  limitShares : ℤ → F
  exhaustionRate : ℤ → F

structure BalanceFrame (F : Type) where
  index : List ℤ
  qty : ℤ → F
  value : ℤ → F
  marketCap : ℤ → F
  ratio : ℤ → F

structure VolumeFrame (F : Type) where
  index : List ℤ
  short : ℤ → F
  total : ℤ → F
  ratio : ℤ → F

/-- What the source has of one symbol; `None` is an answer of `pykrx`, too. -/
structure Quotes (F : Type) where
  value : Option (FlowFrame F)
  volume : Option (FlowFrame F)
  holding : Option (HoldingFrame F)
  balance : Option (BalanceFrame F)
  shortVolume : Option (VolumeFrame F)

def between (start stop : ℤ) (index : List ℤ) : List ℤ :=
  index.filter fun d => start ≤ d ∧ d ≤ stop

/-- The answers to queries from a start to an end. -/
def Quotes.between (q : Quotes F) (start stop : ℤ) : Quotes F where
  value := q.value.map fun f => { f with index := Krx.between start stop f.index }
  volume := q.volume.map fun f => { f with index := Krx.between start stop f.index }
  holding := q.holding.map fun f => { f with index := Krx.between start stop f.index }
  balance := q.balance.map fun f => { f with index := Krx.between start stop f.index }
  shortVolume := q.shortVolume.map fun f => { f with index := Krx.between start stop f.index }

/-! ## Rows -/

structure FlowRow (F : Type) where
  date : ℤ
  symbol : String
  investor : String
  netValue : F
  netVolume : F

structure HoldingRow (F : Type) where
  date : ℤ
  symbol : String
  listedShares : F
  heldShares : F
  holdingRatio : F
  limitShares : F
  exhaustionRate : F

structure ShortRow (F : Type) where
  date : ℤ
  symbol : String
  shortVolume : F
  totalVolume : F
  shortVolumeRatio : F
  shortBalanceQty : F
  shortBalanceValue : F
  marketCap : F
  shortBalanceRatio : F

/-- `_INVESTOR` -/
def investors : List (String × String) := [
  ("금융투자", "fin_invest"), ("보험", "insurance"), ("투신", "invest_trust"),
  ("사모", "private_fund"), ("은행", "bank"), ("기타금융", "other_finance"),
  ("연기금", "pension"), ("기타법인", "other_corp"), ("개인", "individual"),
  ("외국인", "foreign"), ("기타외국인", "other_foreign")]

/-- `float(vrow[kr])` where the volumes have the date and the column. -/
def netVolume (volume : Option (FlowFrame F)) (d : ℤ) (kr : String) : F :=
  match volume with
  | some f => if d ∈ f.index ∧ kr ∈ f.columns then f.cell d kr else 0
  | none => 0

/-- `_flow_rows` -/
def flowRows (symbol : String) (q : Quotes F) : List (FlowRow F) :=
  match q.value with
  | none => []
  | some f => f.index.flatMap fun d => (investors.filter fun i => i.1 ∈ f.columns).map fun i =>
      ⟨d, symbol, i.2, f.cell d i.1, netVolume q.volume d i.1⟩

/-- `_holding_rows` -/
def holdingRows (symbol : String) (q : Quotes F) : List (HoldingRow F) :=
  match q.holding with
  | none => []
  | some f => f.index.map fun d => ⟨d, symbol, f.listedShares d, f.heldShares d, f.holdingRatio d,
      f.limitShares d, f.exhaustionRate d⟩

def shortDates (q : Quotes F) : List ℤ :=
  (q.balance.elim [] BalanceFrame.index ++ q.shortVolume.elim [] VolumeFrame.index).dedup

/-- A cell of a frame that may lack the date. -/
def cellOr {α : Type} (frame : Option α) (index : α → List ℤ) (cell : α → ℤ → F) (d : ℤ) : F :=
  match frame with
  | some f => if d ∈ index f then cell f d else 0
  | none => 0

/-- `_short_rows` -/
def shortRows (symbol : String) (q : Quotes F) : List (ShortRow F) :=
  ((shortDates q).insertionSort (· ≤ ·)).map fun d =>
    let v := fun cell => cellOr q.shortVolume VolumeFrame.index cell d
    let b := fun cell => cellOr q.balance BalanceFrame.index cell d
    ⟨d, symbol, v VolumeFrame.short, v VolumeFrame.total, v VolumeFrame.ratio,
      b BalanceFrame.qty, b BalanceFrame.value, b BalanceFrame.marketCap, b BalanceFrame.ratio⟩

/-! ## Runs -/

/-- The tables; of `stock_short` the rows of the KR market. -/
structure Tables (F : Type) where
  flow : List (FlowRow F)
  holding : List (HoldingRow F)
  short : List (ShortRow F)

inductive Error
  | unloaded (table : String)
  | noRows
  deriving DecidableEq

def Error.message : Error → String
  | unloaded table => "[krx] 미적재 테이블 발견(" ++ table ++ ") — 증분 불가. " ++
      "krx_bulk로 1회 선시딩 후 재실행하거나 --start를 명시하세요(DEPLOY.md 런북)"
  | noRows => "[krx] 적재 0행 — KRX 로그인(KRX_ID/PW)/응답 확인(전종목 실패의 조용한 성공 처리 방지)"

/-- The latest date of a table; of an empty one ClickHouse answers 1970-01-01. -/
def latestDate (table : String) (dates : List ℤ) : Except Error ℤ :=
  match dates.max? with
  | none => .error (.unloaded table)
  | some v => if v ≤ 729 then .error (.unloaded table) else .ok v

/-- `_INCR_BUFFER_DAYS` -/
def incrBufferDays : ℤ := 7

/-- `_auto_start` -/
def autoStart (t : Tables F) : Except Error ℤ := do
  let flow ← latestDate "stock_investor_flow" (t.flow.map FlowRow.date)
  let holding ← latestDate "stock_foreign_holding" (t.holding.map HoldingRow.date)
  let short ← latestDate "stock_short WHERE market = 'KR'" (t.short.map ShortRow.date)
  return min flow (min holding short) - incrBufferDays

/-- How a symbol ends: all its rows are stored, or an exception after some of its inserts. -/
inductive Outcome
  | stored
  | failed (inserts : ℕ)
  deriving DecidableEq

def Outcome.inserts : Outcome → ℕ
  | stored => 3
  | failed n => n

/-- A run: its day, what the source has then, and how each symbol ends. -/
structure Run (F : Type) where
  day : ℤ
  source : String → Quotes F
  outcome : String → Outcome

/-- The variables of `store_kr_market`. -/
structure Progress (F : Type) where
  tables : Tables F
  nsym : ℕ
  failed : List String
  total : ℕ

/-- The first inserts of a symbol. -/
def Tables.insert (t : Tables F) (symbol : String) (q : Quotes F) (inserts : ℕ) : Tables F where
  flow := if 0 < inserts then t.flow ++ flowRows symbol q else t.flow
  holding := if 1 < inserts then t.holding ++ holdingRows symbol q else t.holding
  short := if 2 < inserts then t.short ++ shortRows symbol q else t.short

def counted (symbol : String) (q : Quotes F) (inserts : ℕ) : ℕ :=
  (if 0 < inserts then (flowRows symbol q).length else 0) +
    (if 1 < inserts then (holdingRows symbol q).length else 0) +
    (if 2 < inserts then (shortRows symbol q).length else 0)

/-- One symbol of the loop. -/
def collect (run : Run F) (start : ℤ) (s : Progress F) (symbol : String) : Progress F :=
  let q := (run.source symbol).between start run.day
  let outcome := run.outcome symbol
  { tables := s.tables.insert symbol q outcome.inserts
    nsym := if outcome = .stored then s.nsym + 1 else s.nsym
    failed := if outcome = .stored then s.failed else s.failed ++ [symbol]
    total := s.total + counted symbol q outcome.inserts }

/-- `store_kr_market`, incremental without a start: what it leaves, and its result. -/
def storeKrMarket (symbols : List String) (start : Option ℤ) (run : Run F) (t : Tables F) :
    Tables F × Except Error (ℕ × List String) :=
  match start.elim (autoStart t) .ok with
  | .error e => (t, .error e)
  | .ok start =>
    if symbols = [] then (t, .ok (0, []))
    else
      let s := symbols.foldl (collect run start) ⟨t, 0, [], 0⟩
      (s.tables, if s.total = 0 then .error .noRows else .ok (s.nsym, s.failed))

end QuantTrader.Krx
