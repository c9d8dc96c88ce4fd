import QuantTrader.Streaming.Candle
import QuantTrader.Transition.System

/-! # An aggregator that dies and starts again

One process after another consumes the topic partition from the committed
offset. A process can end anywhere in a turn: by a hard kill, or by an exception,
which runs the `finally` block. Only the rows and the commit survive it.
-/

namespace QuantTrader.Streaming

open ClickHouse Transition

/-- A message; `none` does not parse. -/
abbrev Message := Option Tick

def Polled.ofMessage : Message → Polled
  | none => .bad
  | some t => .tick t

/-- The rows of `candles_1m`. -/
abbrev Rows := List (Window × Candle)

namespace Aggregator

variable (s : Aggregator)

/-- A process that starts at the committed offset. -/
def resume (now : ℚ) (committed : ℕ) (rows : Rows) : Aggregator :=
  { Aggregator.start now with rows, committed, position := committed }

/-- The rows when an insert of the changed windows wrote only some of them. -/
def insertSome (written : Window → Bool) : Rows :=
  s.rows ++ (batch s.candles s.dirty s.known).filter fun row => written row.1

end Aggregator

/-- How the `finally` block ends. -/
inductive Finally
  | killed
  | insertFails (written : Window → Bool)
  | commitFails
  | done

/-- The committed offset and the rows that the block leaves. -/
def Finally.leave (s : Aggregator) : Finally → ℕ × Rows
  | killed => (s.committed, s.rows)
  | insertFails written => (s.committed, s.insertSome written)
  | commitFails => (s.committed, s.upsert.rows)
  | done => (s.finish.committed, s.finish.rows)

/-- How a process ends in a turn, after the poll. -/
inductive Death
  | killed
  | killedInInsert (written : Window → Bool)
  | killedBeforeCommit
  | killedAfterCommit
  | interrupted (last : Finally)
  | insertFails (written : Window → Bool) (last : Finally)
  | commitFails (last : Finally)

namespace Death

/-- The process dies in the flush of the turn. -/
def InFlush : Death → Prop
  | killed | interrupted _ => False
  | _ => True

instance : DecidablePred InFlush := fun d => match d with
  | killed | interrupted _ => isFalse id
  | killedInInsert _ | killedBeforeCommit | killedAfterCommit | insertFails .. | commitFails _ =>
    isTrue trivial

def leave (s : Aggregator) : Death → ℕ × Rows
  | killed => (s.committed, s.rows)
  | killedInInsert written => (s.committed, s.insertSome written)
  | killedBeforeCommit => (s.committed, s.upsert.rows)
  | killedAfterCommit => (s.upsert.commit.committed, s.upsert.rows)
  | interrupted last => last.leave s
  | insertFails written last => last.leave { s with rows := s.insertSome written }
  | commitFails last => last.leave s.upsert

end Death

/-- A running process with the offset it started from, or what the last one left. -/
inductive World
  | up (resumed : ℕ) (s : Aggregator)
  | down (committed : ℕ) (rows : Rows)

def World.rows : World → Rows
  | .up _ s => s.rows
  | .down _ rows => rows

inductive Event
  | start (now : ℚ)
  | turn (got : Bool) (clock : ℚ)
  | die (got : Bool) (clock : ℚ) (death : Death)

/-- What a poll returns: the message at the position of the consumer, or nothing. -/
def polled (topic : List Message) (s : Aggregator) (got : Bool) : Polled :=
  if got then
    match topic[s.position]? with
    | none => .nothing
    | some m => .ofMessage m
  else .nothing

namespace Event

variable (topic : List Message)

def Enabled : World → Event → Prop
  | .down _ _, start _ => True
  | .up _ _, turn _ _ => True
  | .up _ s, die got clock death =>
    death.InFlush → flushSec ≤ clock - (s.receive (polled topic s got)).lastFlush
  | _, _ => False

instance : ∀ w e, Decidable (Enabled topic w e)
  | .down _ _, start _ | .up _ _, turn _ _ => isTrue trivial
  | .up _ _, die _ _ _ => inferInstanceAs (Decidable (_ → _))
  | .up _ _, start _ | .down _ _, turn _ _ | .down _ _, die .. => isFalse id

def next : World → Event → World
  | .down committed rows, start now => .up committed (.resume now committed rows)
  | .up resumed s, turn got clock => .up resumed (s.turn (polled topic s got, clock))
  | .up _ s, die got _ death =>
    let left := death.leave (s.receive (polled topic s got))
    .down left.1 left.2
  | w, _ => w

end Event

/-- The processes of the consumer group over one partition. -/
def system (topic : List Message) : System World Event := ⟨Event.Enabled topic, Event.next topic⟩

instance (topic : List Message) (w : World) (e : Event) : Decidable ((system topic).Enabled w e) :=
  inferInstanceAs (Decidable (Event.Enabled topic w e))

/-- Nothing has run yet: the group has no commit and the table no row. -/
def World.init : World := .down 0 []

end QuantTrader.Streaming
