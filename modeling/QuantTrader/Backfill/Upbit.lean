import Mathlib.Data.Rat.Defs
import Mathlib.Order.Basic
import QuantTrader.Transition.System

/-! # The Upbit candle cache

The minute candles of one market are fetched page by page from new to old and
appended to a file, in two directions from what the file holds; a run that
completes sorts the file and drops its duplicates. A run can end anywhere, with
the rows written so far.
-/

namespace QuantTrader.Backfill

open Transition

/-- A candle; its start counts the milliseconds since the epoch. -/
structure Candle where
  ts : ℤ
  opening : ℚ
  high : ℚ
  low : ℚ
  trade : ℚ
  volume : ℚ
  deriving DecidableEq

/-- The history of one market in bars of `unit` minutes, newest first. -/
structure Api where
  unit : ℕ
  unit_pos : 0 < unit
  candles : List Candle
  sorted : candles.Pairwise fun a b => b.ts < a.ts

/-- The cache file: whether it has its header, and its rows. -/
structure File where
  header : Bool
  rows : List Candle

namespace Api

variable (api : Api)

/-- `_PAGE`. -/
def pageSize : ℕ := 200

/-- What a request shows that comes at the time `seen`, with an exclusive `to`, named
`before` here. -/
def visible (seen : ℤ) (before : Option ℤ) : List Candle :=
  api.candles.filter fun c => c.ts ≤ seen ∧ ∀ u ∈ before, c.ts < u

/-- `_get`: the newest page. -/
def page (seen : ℤ) (before : Option ℤ) : List Candle := (api.visible seen before).take pageSize

/-- The loop of `_fetch_backward`: the rows written, page by page; bars that are not complete are
left out. The fuel bounds the number of pages. -/
def fetchLoop (seen lowerBound completeUntil : ℤ) : ℕ → Option ℤ → List Candle
  | 0, _ => []
  | fuel + 1, before =>
    match (api.page seen before).getLast? with
    | none => []
    | some oldest =>
      let written := (api.page seen before).filter fun c => c.ts < completeUntil
      if oldest.ts ≤ lowerBound ∨ (api.page seen before).length < pageSize then written
      else written ++ fetchLoop seen lowerBound completeUntil fuel (some oldest.ts)

/-- `_fetch_backward`. -/
def fetchBackward (seen lowerBound completeUntil : ℤ) (before : Option ℤ) : List Candle :=
  api.fetchLoop seen lowerBound completeUntil (api.candles.length + 1) before

/-- `complete_until_ms`, from the seconds of the clock. -/
def completeUntil (now : ℤ) : ℤ := now / (api.unit * 60) * (api.unit * 60) * 1000

end Api

def extremes : List Candle → Option (ℤ × ℤ)
  | [] => none
  | c :: rows =>
    match extremes rows with
    | none => some (c.ts, c.ts)
    | some (o, n) => some (min c.ts o, max c.ts n)

/-- The rows that `csv.DictReader` finds: without a header the first row is taken for one, and a
column of any further row is missing. -/
def File.read (f : File) : Except String (List Candle) :=
  if f.header then .ok f.rows
  else if f.rows.length ≤ 1 then .ok [] else .error "KeyError"

/-- `_scan_dt`. -/
def scanDt : Option File → Except String (Option (ℤ × ℤ))
  | none => .ok none
  | some f => extremes <$> f.read

/-- `seen[ts] = row`, in the order of the keys. -/
def setRow (r : Candle) : List Candle → List Candle
  | [] => [r]
  | a :: rows =>
    if r.ts < a.ts then r :: a :: rows
    else if r.ts = a.ts then r :: rows
    else a :: setRow r rows

/-- `_finalize`: the rows in ascending order, the last one of each start. -/
def finalize (f : File) : Except String File := do
  let rows ← f.read
  return ⟨true, rows.foldl (fun acc r => setRow r acc) []⟩

/-- Append to the file; a new file gets its header first. -/
def append (f : Option File) (rows : List Candle) : File :=
  match f with
  | none => ⟨true, rows⟩
  | some f => { f with rows := f.rows ++ rows }

/-- A run: its clock in seconds, its cutoff, and when the first requests of its two directions
come. -/
structure Run where
  now : ℤ
  cutoff : ℤ
  newerAt : ℤ
  olderAt : ℤ

namespace Run

variable (api : Api) (r : Run)

/-- What the newer direction writes: from now down to the newest cached row. -/
def newer (scanned : Option (ℤ × ℤ)) : List Candle :=
  match scanned with
  | none => []
  | some (_, newest) => api.fetchBackward r.newerAt newest (api.completeUntil r.now) none

/-- What the older direction writes: from the oldest cached row down to the cutoff. -/
def older (scanned : Option (ℤ × ℤ)) : List Candle :=
  match scanned with
  | none => api.fetchBackward r.olderAt r.cutoff (api.completeUntil r.now) none
  | some (oldest, _) =>
    if r.cutoff < oldest then
      api.fetchBackward r.olderAt r.cutoff (api.completeUntil r.now) (some oldest)
    else []

/-- `_backfill_one` and `_finalize`: the file after a run that completes. -/
def complete (f : Option File) : Except String File := do
  let scanned ← scanDt f
  finalize (append f (r.newer api scanned ++ r.older api scanned))

end Run

/-- How a run ends early: before anything was flushed, or after some rows of a direction. -/
inductive Stop
  | unflushed
  | newer (n : ℕ)
  | older (n : ℕ)

/-- The file that an interrupted run leaves. -/
def Stop.leave (api : Api) (r : Run) (f : Option File) (scanned : Option (ℤ × ℤ)) :
    Stop → File
  | unflushed =>
    match f with
    | none => ⟨false, []⟩
    | some f => f
  | newer n => append f ((r.newer api scanned).take n)
  | older n => append f (r.newer api scanned ++ (r.older api scanned).take n)

/-- The clock of the last run and the cache file. -/
structure World where
  clock : ℤ
  file : Option File

/-- A run of the collector that completes, that is interrupted, or that raises in a scan. -/
inductive Event
  | complete (r : Run)
  | stop (r : Run) (s : Stop)
  | fail (r : Run)

namespace Event

def run : Event → Run
  | complete r | stop r _ | fail r => r

variable (api : Api)

/-- Clocks do not go back, and a run that cannot scan or finalize the file does not complete. -/
def Enabled (w : World) (e : Event) : Prop :=
  w.clock ≤ e.run.now ∧ e.run.now * 1000 ≤ e.run.newerAt ∧ e.run.now * 1000 ≤ e.run.olderAt ∧
    match e with
    | complete r => (r.complete api w.file).isOk = true
    | stop _ _ => (scanDt w.file).isOk = true
    | fail _ => (scanDt w.file).isOk = false

instance (w : World) (e : Event) : Decidable (Enabled api w e) := by
  unfold Enabled
  cases e <;> infer_instance

def next (w : World) (e : Event) : World where
  clock := e.run.now
  file := match e with
    | complete r => (r.complete api w.file).toOption
    | stop r s => (scanDt w.file).toOption.map (s.leave api r w.file)
    | fail _ => w.file

end Event

/-- The runs of the collector over one cache file. -/
def system (api : Api) : System World Event := ⟨Event.Enabled api, Event.next api⟩

instance (api : Api) (w : World) (e : Event) : Decidable ((system api).Enabled w e) :=
  inferInstanceAs (Decidable (Event.Enabled api w e))

end QuantTrader.Backfill
