import Mathlib.Data.List.Sort
import QuantTrader.Engine.Matching
import QuantTrader.Transition.System

/-! # The outbox relay

Any number of relay processes over one outbox table and one topic. A relay
selects a batch under row locks, produces it, flushes and marks it; what becomes
of a message after `produce` is up to the broker, whose failure reports no one
reads.
-/

namespace QuantTrader.Relay

open Engine Transition

/-- A message of the orders topic: its key and its value. -/
structure Message where
  key : String
  value : Order
  deriving DecidableEq

/-- A row of `order_outbox`; the payload is the order that `to_json` wrote. -/
structure Row where
  id : ℕ
  orderId : String
  symbol : String
  payload : Order
  published : Bool
  deriving DecidableEq

def Row.message (row : Row) : Message := ⟨row.symbol, row.payload⟩

/-- Where a relay stands in its loop, with the rows it has selected. -/
inductive Phase where
  | idle
  | producing (rows todo : List Row)
  | flushed (rows : List Row)
  | updated (rows : List Row)
  | stopping
  deriving DecidableEq

/-- The rows a transaction of the relay has locked. -/
def Phase.rows : Phase → List Row
  | .idle | .stopping => []
  | .producing rows _ | .flushed rows | .updated rows => rows

/-- The rows it has still to produce. -/
def Phase.todo : Phase → List Row
  | .producing _ todo => todo
  | _ => []

/-- A relay process: its place, the queue of its producer, and the delivery failures reported
since it selected. -/
structure Process where
  phase : Phase
  queue : List Row
  failed : List Row

/-- The table with its row locks, the topic, the processes, and the histories of the orders
written and of those whose row a reset deleted. -/
structure World where
  outbox : List Row
  locks : ℕ → Option ℕ
  topic : List Message
  relays : ℕ → Process
  written : List Order
  withdrawn : List Order

inductive Event where
  | place (id : ℕ) (o : Order)
  | reset (ids : List ℕ)
  | select (i : ℕ) (skipped : List ℕ)
  | produce (i : ℕ)
  | flush (i : ℕ)
  | update (i : ℕ)
  | commit (i : ℕ)
  | fail (i : ℕ)
  | crash (i : ℕ)
  | append (i : ℕ) (row : Row)
  | accept (i : ℕ) (row : Row)
  | reject (i : ℕ) (row : Row)

/-- `BATCH`. -/
def batchSize : ℕ := 100

namespace World

variable (w : World)

/-- The `SELECT`: unpublished rows by id, without those another transaction has locked. -/
def selection (skipped : List ℕ) : List Row :=
  ((w.outbox.filter fun row =>
    !row.published && (w.locks row.id).isNone && row.id ∉ skipped).insertionSort
      fun a b => a.id ≤ b.id).take batchSize

def setRelay (i : ℕ) (p : Process) : World := { w with relays := Function.update w.relays i p }

def setPhase (i : ℕ) (phase : Phase) : World := w.setRelay i { w.relays i with phase }

def unlock (i : ℕ) : World :=
  { w with locks := fun id => if w.locks id = some i then none else w.locks id }

/-- `UPDATE order_outbox SET published=TRUE`, once committed. -/
def mark (rows : List Row) : World :=
  { w with outbox := w.outbox.map fun row =>
      if row.id ∈ rows.map Row.id then { row with published := true } else row }

/-- A relay takes its batch; without rows it sleeps. -/
def take (i : ℕ) (rows : List Row) : World :=
  if rows = [] then w
  else
    { w with locks := fun id => if id ∈ rows.map Row.id then some i else w.locks id }.setRelay i
      { w.relays i with phase := .producing rows rows, failed := [] }

end World

/-- When an event can happen. A broker appends, accepts or rejects what is queued, in any order;
what it appends it may still reject. -/
def Enabled (w : World) : Event → Prop
  | .place id _ => ∀ row ∈ w.outbox, row.id ≠ id
  | .reset ids => ∀ id ∈ ids, w.locks id = none
  | .select i _ => (w.relays i).phase = .idle
  | .produce i => (w.relays i).phase.todo ≠ []
  | .flush i => (w.relays i).phase = .producing (w.relays i).phase.rows [] ∧ (w.relays i).queue = []
  | .update i => (w.relays i).phase = .flushed (w.relays i).phase.rows
  | .commit i => (w.relays i).phase = .updated (w.relays i).phase.rows
  | .fail _ => True
  | .crash _ => True
  | .append i row | .accept i row | .reject i row => row ∈ (w.relays i).queue

instance (w : World) : ∀ e, Decidable (Enabled w e)
  | .place id _ => inferInstanceAs (Decidable (∀ row ∈ w.outbox, row.id ≠ id))
  | .reset ids => inferInstanceAs (Decidable (∀ id ∈ ids, w.locks id = none))
  | .select _ _ | .update _ | .commit _ => inferInstanceAs (Decidable (_ = _))
  | .produce _ => inferInstanceAs (Decidable (_ ≠ _))
  | .flush _ => inferInstanceAs (Decidable (_ ∧ _))
  | .fail _ | .crash _ => isTrue trivial
  | .append i row | .accept i row | .reject i row =>
    inferInstanceAs (Decidable (row ∈ (w.relays i).queue))

def next (w : World) : Event → World
  | .place id o =>
    { w with
      outbox := w.outbox ++ [⟨id, o.orderId, o.symbol, o, false⟩]
      written := w.written ++ [o] }
  | .reset ids =>
    { w with
      outbox := w.outbox.filter fun row => row.id ∉ ids
      withdrawn := w.withdrawn ++ (w.outbox.filter fun row => row.id ∈ ids).map Row.payload }
  | .select i skipped => w.take i (w.selection skipped)
  | .produce i =>
    match (w.relays i).phase with
    | .producing rows (row :: todo) =>
      w.setRelay i { w.relays i with
        phase := .producing rows todo, queue := (w.relays i).queue ++ [row] }
    | _ => w
  | .flush i => w.setPhase i (.flushed (w.relays i).phase.rows)
  | .update i => w.setPhase i (.updated (w.relays i).phase.rows)
  | .commit i => ((w.mark (w.relays i).phase.rows).unlock i).setPhase i .idle
  -- the transaction rolls back; the `finally` block may still flush the queue
  | .fail i => (w.unlock i).setPhase i .stopping
  | .crash i => (w.unlock i).setRelay i ⟨.idle, [], []⟩
  | .append _ row => { w with topic := w.topic ++ [row.message] }
  | .accept i row =>
    { w with topic := w.topic ++ [row.message] }.setRelay i
      { w.relays i with queue := (w.relays i).queue.erase row }
  | .reject i row =>
    w.setRelay i { w.relays i with
      queue := (w.relays i).queue.erase row, failed := (w.relays i).failed ++ [row] }

def system : System World Event where
  Enabled := Enabled
  next := next

instance (w : World) (e : Event) : Decidable (system.Enabled w e) :=
  inferInstanceAs (Decidable (Enabled w e))

def opening (outbox : List Row) (topic : List Message) : World where
  outbox := outbox
  locks _ := none
  topic := topic
  relays _ := ⟨.idle, [], []⟩
  written := outbox.map Row.payload
  withdrawn := []

end QuantTrader.Relay
