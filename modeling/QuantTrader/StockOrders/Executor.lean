import QuantTrader.Kis.Chase
import QuantTrader.Transition.System

/-! # Manual stock orders

The table `manual_stock_orders`, the statements of the API and of the executors,
and what an executor does with an order it has claimed. Executors come and go;
each statement is one event, and so is each outside answer. `handed` is the
history of the orders given to `place_and_chase`; no event reads it.
-/

namespace QuantTrader.StockOrders

open Kis (Market Result priced)

open Ledger (Side)

open Transition

inductive Status | pending | placed | filled | failed | canceled
  deriving DecidableEq, Repr

/-- `qty` or `amount`, exactly one of them and positive. -/
inductive Size
  | qty (n : ℕ) (pos : 0 < n)
  | amount (x : ℚ) (pos : 0 < x)
  deriving DecidableEq

/-- What the executor adds to the result of a chase. -/
structure Outcome where
  resolvedQty : ℤ
  refPrice : Option ℚ
  result : Result
  isPartial : Bool
  deriving DecidableEq, Repr

structure Detail where
  error : Option String
  outcome : Option Outcome
  deriving DecidableEq, Repr

/-- A row of `manual_stock_orders`; times are in seconds. -/
structure Row where
  id : ℕ
  accountId : String
  market : Market
  symbol : String
  side : Side
  size : Size
  scheduledAt : ℕ
  status : Status
  detail : Option Detail
  updatedAt : ℕ
  deriving DecidableEq

/-! ## Executing one order -/

/-- The quantity of an order at a reference price. -/
def resolvedQty (size : Size) (ref : Option ℚ) : Except String ℤ :=
  match size with
  | .qty n _ => .ok n
  | .amount x _ =>
    match priced ref with
    | none => .error "ValueError: 시세 미확인 — 금액을 수량으로 환산할 수 없음"
    | some ref => if ⌊x / ref⌋ < 1 then .error "ValueError: 수량<1" else .ok ⌊x / ref⌋

/-- The quoted price, or the stored close where it is missing. -/
def refPrice (quoted : Option ℚ) (close : Except String (Option ℚ)) : Except String (Option ℚ) :=
  if (priced quoted).isSome then .ok quoted else close

/-- `_resolve`, from the answers to the price calls: the quote of the broker with its exchange, and
the stored close. -/
def resolve (size : Size) (quote : Except String (Option ℚ × Option String))
    (close : Except String (Option ℚ)) : Except String (ℤ × Option ℚ × Option String) := do
  let quoted ← quote
  let ref ← refPrice quoted.1 close
  let q ← resolvedQty size ref
  return (q, ref, quoted.2)

/-- The status an executor records. -/
inductive Verdict | filled | failed
  deriving DecidableEq, Repr

def Verdict.status : Verdict → Status
  | .filled => .filled
  | .failed => .failed

/-- The record of an exception. -/
def failure (e : String) : Verdict × Detail := (.failed, ⟨some e, none⟩)

/-- The end of `_execute`: the record of the answer of `place_and_chase`. -/
def recordOf (q : ℤ) (ref : Option ℚ) : Except String Result → Verdict × Detail
  | .error e => failure e
  | .ok r =>
    if q ≤ r.filledQty then (.filled, ⟨none, some ⟨q, ref, r, false⟩⟩)
    else if 0 < r.filledQty then (.filled, ⟨none, some ⟨q, ref, r, true⟩⟩)
    else (.failed, ⟨none, some ⟨q, ref, r, false⟩⟩)

/-! ## Processes and statements -/

/-- An executor process and the order it works on. -/
inductive Proc
  | down
  | starting
  | idle
  | claimed (row : Row)
  | chasing (row : Row) (q : ℤ) (ref : Option ℚ)
  | finishing (orderId : ℕ) (verdict : Verdict) (detail : Detail)
  deriving DecidableEq

/-- The order a process works on. -/
def Proc.order : Proc → Option ℕ
  | .down | .starting | .idle => none
  | .claimed row | .chasing row _ _ => some row.id
  | .finishing orderId _ _ => some orderId

structure World where
  now : ℕ
  rows : List Row
  procs : ℕ → Proc
  handed : List ℕ

namespace World

def init : World := ⟨0, [], fun _ => .down, []⟩

variable (s : World)

def row (id : ℕ) : Option Row := s.rows.find? (·.id = id)

def status (id : ℕ) : Option Status := (s.row id).map Row.status

/-- `UPDATE manual_stock_orders SET status, detail, updated_at=now() WHERE ...`. -/
def update (c : Row → Bool) (st : Status) (detail : Row → Option Detail) : World :=
  { s with
    rows := s.rows.map fun r =>
      if c r then { r with status := st, detail := detail r, updatedAt := s.now } else r }

def setProc (p : ℕ) (proc : Proc) : World := { s with procs := Function.update s.procs p proc }

/-- `_ORPHAN_MIN`, in seconds. -/
def orphanSec : ℕ := 30 * 60

/-- A row that `_recover_orphans` declares dead. -/
def Orphan (r : Row) : Prop := r.status = .placed ∧ r.updatedAt + orphanSec < s.now

instance (r : Row) : Decidable (s.Orphan r) := inferInstanceAs (Decidable (_ ∧ _))

/-- `_recover_orphans`. -/
def recoverOrphans : World :=
  s.update (fun r => s.Orphan r) .failed fun r =>
    some ⟨some "실행 중 재시작(고아 복구)", r.detail.bind Detail.outcome⟩

/-- A row that `_claim_one` may take. -/
def Due (r : Row) : Prop := r.status = .pending ∧ r.scheduledAt ≤ s.now

instance (r : Row) : Decidable (s.Due r) := inferInstanceAs (Decidable (_ ∧ _))

/-- A row is the earliest due one, apart from the rows that other statements hold locked. -/
def First (locked : List ℕ) (r : Row) : Prop :=
  r ∈ s.rows ∧ s.Due r ∧ r.id ∉ locked ∧
    ∀ r' ∈ s.rows, s.Due r' → r'.id ∉ locked → r.scheduledAt ≤ r'.scheduledAt

instance (locked : List ℕ) (r : Row) : Decidable (s.First locked r) :=
  inferInstanceAs (Decidable (_ ∧ _))

/-- `_claim_one`, of the row its sub-select chose. -/
def claim (r : Row) : World := s.update (fun r' => r'.id = r.id) .placed Row.detail

/-- `_finish`. -/
def finish (orderId : ℕ) (st : Status) (detail : Detail) : World :=
  s.update (fun r => r.id = orderId) st fun _ => some detail

/-- `cancel_order`. -/
def cancel (orderId : ℕ) (accountId : String) : World :=
  s.update (fun r => r.id = orderId ∧ r.accountId = accountId ∧ r.status = .pending) .canceled
    Row.detail

/-- `create_order`. -/
def create (id : ℕ) (accountId : String) (market : Market) (symbol : String) (side : Side)
    (size : Size) (scheduledAt : ℕ) : World :=
  { s with
    rows := s.rows ++
      [⟨id, accountId, market, symbol, side, size, scheduledAt, .pending, none, s.now⟩] }

end World

/-! ## Events -/

/-- The events; an event of a process names what the process holds. -/
inductive Event
  | wait (seconds : ℕ)
  | create (id : ℕ) (accountId : String) (market : Market) (symbol : String) (side : Side)
      (size : Size) (scheduledAt : ℕ)
  | cancel (orderId : ℕ) (accountId : String)
  | start (p : ℕ)
  | recover (p : ℕ)
  | claim (p : ℕ) (locked : List ℕ) (row : Row)
  /-- The claim is committed and its answer is lost. -/
  | claimLost (p : ℕ) (locked : List ℕ) (row : Row)
  | resolve (p : ℕ) (row : Row) (quote : Except String (Option ℚ × Option String))
      (close : Except String (Option ℚ))
  | chased (p : ℕ) (row : Row) (q : ℤ) (ref : Option ℚ) (answer : Except String Result)
  | finish (p : ℕ) (orderId : ℕ) (verdict : Verdict) (detail : Detail)
  /-- The statement of `_finish` fails; the loop of `run` goes on. -/
  | finishLost (p : ℕ) (orderId : ℕ) (verdict : Verdict) (detail : Detail)
  | crash (p : ℕ)

namespace Event

/-- When an event can happen. -/
def Enabled (s : World) : Event → Prop
  | wait _ | cancel .. | crash _ => True
  | create id .. => ∀ r ∈ s.rows, r.id < id
  | start p => s.procs p = .down
  | recover p => s.procs p = .starting
  | claim p locked row | claimLost p locked row => s.procs p = .idle ∧ s.First locked row
  | resolve p row .. => s.procs p = .claimed row
  | chased p row q ref _ => s.procs p = .chasing row q ref
  | finish p o v d | finishLost p o v d => s.procs p = .finishing o v d

instance (s : World) : ∀ e : Event, Decidable (e.Enabled s)
  | wait _ | cancel .. | crash _ => isTrue trivial
  | create id .. => inferInstanceAs (Decidable (∀ r ∈ s.rows, r.id < id))
  | start p => inferInstanceAs (Decidable (s.procs p = .down))
  | recover p => inferInstanceAs (Decidable (s.procs p = .starting))
  | claim p locked row | claimLost p locked row =>
    inferInstanceAs (Decidable (s.procs p = .idle ∧ s.First locked row))
  | resolve p row .. => inferInstanceAs (Decidable (s.procs p = .claimed row))
  | chased p row q ref _ => inferInstanceAs (Decidable (s.procs p = .chasing row q ref))
  | finish p o v d | finishLost p o v d =>
    inferInstanceAs (Decidable (s.procs p = .finishing o v d))

/-- `_execute` up to `place_and_chase`: hand the order over, or record the exception. -/
def resolved (s : World) (p : ℕ) (row : Row) :
    Except String (ℤ × Option ℚ × Option String) → World
  | .error e => s.setProc p (.finishing row.id (failure e).1 (failure e).2)
  | .ok (q, ref, _) => { s.setProc p (.chasing row q ref) with handed := s.handed ++ [row.id] }

/-- What an event does. -/
def next (s : World) : Event → World
  | wait seconds => { s with now := s.now + seconds }
  | create id acct market symbol side size scheduledAt => s.create id acct market symbol side size scheduledAt
  | cancel orderId acct => s.cancel orderId acct
  | start p => s.setProc p .starting
  | recover p => s.recoverOrphans.setProc p .idle
  | claim p _ row => (s.claim row).setProc p (.claimed row)
  | claimLost _ _ row => s.claim row
  | resolve p row quote close => resolved s p row (StockOrders.resolve row.size quote close)
  | chased p row q ref answer =>
    s.setProc p (.finishing row.id (recordOf q ref answer).1 (recordOf q ref answer).2)
  | finish p orderId verdict detail => (s.finish orderId verdict.status detail).setProc p .idle
  | finishLost p .. => s.setProc p .idle
  | crash p => s.setProc p .down

end Event

/-- The executors, the users and the clock over one table. -/
def system : System World Event := ⟨fun s e => e.Enabled s, Event.next⟩

instance (s : World) (e : Event) : Decidable (system.Enabled s e) :=
  inferInstanceAs (Decidable (e.Enabled s))

end QuantTrader.StockOrders
