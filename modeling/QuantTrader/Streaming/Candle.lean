import Mathlib.Data.Rat.Floor
import QuantTrader.ClickHouse.Replacing

/-! # One-minute candles

The aggregator of the tick topic: windows by symbol and minute in memory, the
changed ones upserted by a periodic flush, and old ones evicted behind a
watermark. Prices and volumes are exact.
-/

namespace QuantTrader.Streaming

open ClickHouse

/-- A tick; its trade time counts the microseconds since the epoch. -/
structure Tick where
  symbol : String
  price : ℚ
  volume : ℚ
  tradeTs : ℤ
  deriving DecidableEq

/-- `floor_minute`, as a number of minutes. -/
def floorMinute (ts : ℤ) : ℤ := ts / 60000000

/-- A symbol and a minute. -/
abbrev Window := String × ℤ

def Tick.window (t : Tick) : Window := (t.symbol, floorMinute t.tradeTs)

structure Candle where
  opening : ℚ
  high : ℚ
  low : ℚ
  close : ℚ
  volume : ℚ
  deriving DecidableEq

namespace Candle

def ofTick (t : Tick) : Candle := ⟨t.price, t.price, t.price, t.price, t.volume⟩

def add (c : Candle) (t : Tick) : Candle :=
  { c with
    high := max c.high t.price
    low := min c.low t.price
    close := t.price
    volume := c.volume + t.volume }

end Candle

/-- What `poll` returns: nothing or an error, a message that does not parse, or a tick. -/
inductive Polled where
  | nothing
  | bad
  | tick (t : Tick)
  deriving DecidableEq

/-- `FLUSH_SEC`. -/
def flushSec : ℚ := 2

/-- `WATERMARK`, in minutes. -/
def watermark : ℤ := 2

/-- The variables of `run`, the offset of the consumer and its commit, and the rows of
`candles_1m`; a changed window is always in memory, so `candles[k]` never fails. -/
structure Aggregator where
  candles : Window → Option Candle
  dirty : List Window
  maxWindow : Option ℤ
  lastFlush : ℚ
  consumed : Bool
  position : ℕ
  committed : ℕ
  rows : List (Window × Candle)
  known : ∀ k ∈ dirty, (candles k).isSome

namespace Aggregator

variable (s : Aggregator)

def start (now : ℚ) : Aggregator where
  candles _ := none
  dirty := []
  maxWindow := none
  lastFlush := now
  consumed := false
  position := 0
  committed := 0
  rows := []
  known := nofun

def maxWith (w : ℤ) : Option ℤ → ℤ
  | none => w
  | some m => if m < w then w else m

/-- Count a tick in its window. -/
def take (t : Tick) : Aggregator :=
  { s with
    candles := Function.update s.candles t.window
      (some (match s.candles t.window with
        | none => .ofTick t
        | some c => c.add t))
    dirty := s.dirty.insert t.window
    maxWindow := some (maxWith t.window.2 s.maxWindow)
    known := by
      intro k hk
      rcases eq_or_ne k t.window with rfl | hne
      · simp
      · rw [Function.update_of_ne hne]
        exact s.known k ((List.mem_insert_iff.mp hk).resolve_left hne) }

def receive : Polled → Aggregator
  | .nothing => s
  | .bad => { s with consumed := true, position := s.position + 1 }
  | .tick t => { s.take t with consumed := true, position := s.position + 1 }

/-- Insert the changed windows; without one there is nothing to insert. -/
def upsert : Aggregator :=
  { s with
    rows := s.rows ++ batch s.candles s.dirty s.known
    dirty := []
    known := nofun }

def commit : Aggregator :=
  if s.consumed then { s with committed := s.position, consumed := false } else s

/-- Whether the watermark is past a window. -/
def Past (k : Window) : Prop := ∃ m, s.maxWindow = some m ∧ k.2 < m - watermark

instance (k : Window) : Decidable (s.Past k) :=
  match h : s.maxWindow with
  | none => isFalse (by simp [Past, h])
  | some m => decidable_of_iff (k.2 < m - watermark) (by simp [Past, h])

/-- Drop the windows behind the watermark; none of them is waiting for a flush. -/
def evict (h : s.dirty = []) : Aggregator :=
  { s with
    candles := fun k => if s.Past k then none else s.candles k
    known := by simp [h] }

theorem dirty_commit_upsert : s.upsert.commit.dirty = [] := by
  unfold commit
  split <;> rfl

def flush (now : ℚ) : Aggregator :=
  { s.upsert.commit.evict s.dirty_commit_upsert with lastFlush := now }

/-- One turn of the loop, with the clock read after the poll. -/
def turn (s : Aggregator) (e : Polled × ℚ) : Aggregator :=
  let s := s.receive e.1
  if flushSec ≤ e.2 - s.lastFlush then s.flush e.2 else s

/-- The `finally` block: the last upsert and commit. -/
def finish : Aggregator := { s.upsert with committed := s.position }

end Aggregator

def after (now : ℚ) (polls : List (Polled × ℚ)) : Aggregator :=
  polls.foldl Aggregator.turn (.start now)

@[simp] theorem after_snoc (now : ℚ) (polls : List (Polled × ℚ)) (e : Polled × ℚ) :
    after now (polls ++ [e]) = (after now polls).turn e := by
  simp [after, List.foldl_append]

/-- The rows inserted by a run that is stopped after some turns. -/
def run (now : ℚ) (polls : List (Polled × ℚ)) : List (Window × Candle) :=
  (after now polls).finish.rows

end QuantTrader.Streaming
