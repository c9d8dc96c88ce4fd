import Mathlib.Algebra.Order.Ring.Rat
import QuantTrader.ClickHouse.Replacing
import QuantTrader.Series.Numbering
import QuantTrader.Streaming.TickSink

/-! # The Kiwoom ingester

A tick has no number of its own: it is given one from its second and a counter within it.
Only the last second of a symbol is remembered, so a second that comes back counts from
zero again, and its ticks take the rows of the earlier ones.
-/

namespace QuantTrader.Streaming.Kiwoom

open ClickHouse Series
open TickSink (PyError)

/-- `_SEQ_PER_SEC` -/
def seqPerSec : ℕ := 100000

/-- `Decimal` and `int` of a text. -/
structure Python where
  decimal : String → Except PyError ℚ
  int : String → Except PyError ℤ

/-- An item of a `REAL` message, with its values by FID. -/
structure Item where
  type : Option String
  item : Option String
  values : Option (String → Option String)

inductive Side
  | bid
  | ask
  deriving DecidableEq

/-- A tick before its number; times are seconds of the epoch. -/
structure Trade where
  symbol : String
  price : ℚ
  volume : ℚ
  side : Side
  tradeTs : ℤ
  deriving DecidableEq

structure Tick extends Trade where
  seq : ℤ
  deriving DecidableEq

/-- The replacement key of `stock_ticks`. -/
def Tick.key (t : Tick) : String × ℤ := (t.symbol, t.seq)

/-- `_seq_state`: the last second of a symbol and its counter. -/
abbrev SeqState := String → Option (ℤ × ℕ)

/-- `_next_seq`, with the state it leaves. -/
def nextSeq (state : SeqState) (symbol : String) (epochSec : ℤ) : ℤ × SeqState :=
  let cnt := match state symbol with
    | some (sec, cnt) => if sec = epochSec then cnt + 1 else 0
    | none => 0
  (epochSec * seqPerSec + min cnt (seqPerSec - 1),
    Function.update state symbol (some (epochSec, cnt)))

def get {α : Type} : Option α → Except PyError α
  | some a => .ok a
  | none => .error .keyError

def digits (py : Python) (text : String) (start : ℕ) : Except PyError ℤ :=
  py.int (String.ofList ((text.toList.drop start).take 2))

/-- `_hhmmss_to_utc`, on a day with its midnight. -/
def hhmmssToUtc (py : Python) (midnight : ℤ) (hhmmss : String) : Except PyError ℤ := do
  let h ← digits py hhmmss 0
  let m ← digits py hhmmss 2
  let s ← digits py hhmmss 4
  if (0 ≤ h ∧ h < 24) ∧ (0 ≤ m ∧ m < 60) ∧ (0 ≤ s ∧ s < 60) then
    return midnight + 3600 * h + 60 * m + s
  else throw .valueError

/-- What `to_tick` reads of an item before it asks for a number. -/
def trade (py : Python) (midnight : ℤ) (item : Item) : Except PyError Trade := do
  let v ← get item.values
  let qtyRaw ← get (v "15")
  let dt ← hhmmssToUtc py midnight (← get (v "20"))
  let symbol ← get item.item
  let price ← py.decimal (← get (v "10"))
  let volume ← py.decimal qtyRaw
  let side := if qtyRaw.toList.head? = some '-' then Side.ask else Side.bid
  return ⟨symbol, |price|, |volume|, side, dt⟩

def toTick (py : Python) (midnight : ℤ) (state : SeqState) (item : Item) :
    Except PyError (Tick × SeqState) := do
  let t ← trade py midnight item
  let (seq, state) := nextSeq state t.symbol t.tradeTs
  return (⟨t, seq⟩, state)

/-- `REAL_TYPE_TRADE` -/
def realTypeTrade : String := "0B"

/-- The ticks of a process, from items with the midnight of the day they are read on; an exception
that is not caught ends it. -/
def ticks (py : Python) : SeqState → List (ℤ × Item) → List Tick
  | _, [] => []
  | state, (midnight, item) :: items =>
    if item.type ≠ some realTypeTrade then ticks py state items
    else match toTick py midnight state item with
      | .ok (tick, state) => tick :: ticks py state items
      | .error e => if e.Handled then ticks py state items else []

/-! ## Numbers -/

/-- The trades that reach `_next_seq`. -/
def trades (py : Python) : List (ℤ × Item) → List Trade
  | [] => []
  | (midnight, item) :: items =>
    if item.type ≠ some realTypeTrade then trades py items
    else match trade py midnight item with
      | .ok t => t :: trades py items
      | .error e => if e.Handled then trades py items else []

/-- The trades with their numbers. -/
def assign : SeqState → List Trade → List Tick
  | _, [] => []
  | state, t :: ts =>
    let (seq, state) := nextSeq state t.symbol t.tradeTs
    ⟨t, seq⟩ :: assign state ts

/-- The seconds of the trades of a symbol. -/
def times (x : String) (ts : List Trade) : List ℤ := (ts.filter (·.symbol = x)).map Trade.tradeTs

def ticksOf (x : String) (ts : List Tick) : List Tick := ts.filter (·.symbol = x)

/-- The number of a tick that is the given one of its second. -/
def seqOf (p : ℤ × ℕ) : ℤ := p.1 * seqPerSec + min p.2 (seqPerSec - 1)

variable {py : Python} {state : SeqState} {items : List (ℤ × Item)} {ts done : List Trade}
  {t : Trade} {x : String}

theorem ticks_eq (py : Python) (state : SeqState) (items : List (ℤ × Item)) :
    ticks py state items = assign state (trades py items) := by
  induction items generalizing state with
  | nil => rfl
  | cons head items ih =>
    obtain ⟨midnight, item⟩ := head
    rw [ticks, trades]
    split_ifs with htype
    · exact ih state
    · cases ht : trade py midnight item with
      | ok t =>
        have htick : toTick py midnight state item = .ok (⟨t, (nextSeq state t.symbol t.tradeTs).1⟩,
            (nextSeq state t.symbol t.tradeTs).2) := by
          rw [toTick, ht]
          rfl
        simp only [htick, assign, ih]
      | error e =>
        have htick : toTick py midnight state item = .error e := by
          rw [toTick, ht]
          rfl
        simp only [htick]
        split_ifs
        · exact ih state
        · rfl

/-- The state has the last second of every symbol with its number. -/
def Follows (state : SeqState) (done : List Trade) : Prop :=
  ∀ x, state x = (number (times x done)).getLast?

theorem nextSeq_eq (state : SeqState) (symbol : String) (sec : ℤ) : nextSeq state symbol sec =
    (seqOf (sec, nextNumber (state symbol) sec),
      Function.update state symbol (some (sec, nextNumber (state symbol) sec))) := by
  rw [nextSeq]
  cases state symbol <;> rfl

theorem times_snoc : times x (done ++ [t]) =
    if t.symbol = x then times x done ++ [t.tradeTs] else times x done := by
  rw [times, List.filter_append, List.map_append]
  split_ifs with h
  · simp [times, h]
  · simp [times, h]

theorem Follows.start : Follows (fun _ => none) [] := fun _ => rfl

theorem Follows.next (h : Follows state done) (t : Trade) :
    Follows (nextSeq state t.symbol t.tradeTs).2 (done ++ [t]) := by
  intro x
  rw [nextSeq_eq, times_snoc]
  dsimp only
  by_cases hx : t.symbol = x
  · subst hx
    rw [if_pos rfl, number_snoc, List.getLast?_concat, ← h, Function.update_self]
  · rw [if_neg hx, Function.update_of_ne (Ne.symm hx), h]

theorem Follows.assign (h : Follows state done) (x : String) (ts : List Trade) :
    (number (times x (done ++ ts))).map seqOf = (number (times x done)).map seqOf ++
      (ticksOf x (assign state ts)).map Tick.seq := by
  induction ts generalizing state done with
  | nil => simp [Kiwoom.assign, ticksOf]
  | cons t ts ih =>
    have hrest := ih (h.next t)
    rw [List.append_assoc, List.singleton_append, times_snoc] at hrest
    rw [hrest, Kiwoom.assign, nextSeq_eq]
    dsimp only
    split_ifs with hx
    · subst hx
      rw [number_snoc, List.map_append, List.append_assoc, ticksOf, ticksOf,
        List.filter_cons_of_pos (by simp), ← h]
      rfl
    · rw [ticksOf, ticksOf, List.filter_cons_of_neg (by simpa using hx)]

theorem map_seq (x : String) (ts : List Trade) :
    (ticksOf x (assign (fun _ => none) ts)).map Tick.seq = (number (times x ts)).map seqOf :=
  (Follows.start.assign x ts).symm

theorem seqOf_inj {p q : ℤ × ℕ} (hp : p.2 < seqPerSec) (hq : q.2 < seqPerSec)
    (h : seqOf p = seqOf q) : p = q := by
  obtain ⟨s, c⟩ := p
  obtain ⟨t, d⟩ := q
  simp only [seqOf, seqPerSec] at hp hq h
  rw [Prod.mk.injEq]
  omega

/-- The numbers of a symbol are distinct exactly when no second comes back. -/
theorem nodup_seq_iff (hrate : ∀ sec, (times x ts).count sec < seqPerSec) :
    ((ticksOf x (assign (fun _ => none) ts)).map Tick.seq).Nodup ↔ NoReturn (times x ts) := by
  have hlt : ∀ p ∈ number (times x ts), p.2 < seqPerSec :=
    fun p hp => (number_lt_count hp).trans (hrate p.1)
  rw [map_seq]
  constructor
  · intro h
    exact number_nodup_iff.mp (List.Nodup.of_map _ h)
  · intro h
    apply (number_nodup_iff.mpr h).map_on
    intro p hp q hq heq
    exact seqOf_inj (hlt p hp) (hlt q hq) heq

/-- Ticks that come in the order of their seconds are told apart. -/
theorem nodup_seq_of_ascending (hrate : ∀ sec, (times x ts).count sec < seqPerSec)
    (h : (times x ts).Pairwise (· ≤ ·)) :
    ((ticksOf x (assign (fun _ => none) ts)).map Tick.seq).Nodup :=
  (nodup_seq_iff hrate).mpr (noReturn_of_ascending h)

theorem map_key_final (table : List Tick) :
    (final Tick.key table).map Tick.key = (table.map Tick.key).dedup := by
  have hkey : ∀ k ∈ (table.map Tick.key).dedup,
      (latest k (keyed Tick.key table)).map Tick.key = some k := by
    intro k hk
    obtain ⟨t, ht, rfl⟩ := List.mem_map.mp (List.mem_dedup.mp hk)
    obtain ⟨r, hr⟩ := exists_latest_keyed Tick.key ht
    rw [hr, Option.map_some, (mem_of_latest_keyed hr).2]
  rw [final, List.map_filterMap, List.filterMap_congr hkey, List.filterMap_some]

theorem map_key_ticksOf (x : String) (table : List Tick) :
    (ticksOf x table).map Tick.key = (table.map Tick.key).filter (·.1 = x) := by
  rw [ticksOf, List.filter_map]
  rfl

/-- Every tick of a symbol has a row of its own exactly when their numbers are distinct. -/
theorem length_final_iff (x : String) (table : List Tick) :
    (ticksOf x (final Tick.key table)).length = (ticksOf x table).length ↔
      ((ticksOf x table).map Tick.seq).Nodup := by
  have hperm : ((ticksOf x (final Tick.key table)).map Tick.key).Perm
      ((ticksOf x table).map Tick.key).dedup := by
    rw [map_key_ticksOf, map_key_ticksOf, map_key_final,
      List.perm_ext_iff_of_nodup ((List.nodup_dedup _).filter _) (List.nodup_dedup _)]
    intro k
    simp only [List.mem_filter, List.mem_dedup]
  have hpair : (ticksOf x table).map Tick.key =
      ((ticksOf x table).map Tick.seq).map fun seq => (x, seq) := by
    rw [List.map_map]
    apply List.map_congr_left
    intro t ht
    rw [Tick.key, of_decide_eq_true (List.mem_filter.mp ht).2]
    rfl
  rw [← List.length_map Tick.key, hperm.length_eq, ← List.length_map Tick.key, hpair,
    ← List.nodup_map_iff (Prod.mk_right_injective x)]
  constructor
  · intro hlen
    have hsame := (List.dedup_sublist _).eq_of_length hlen
    exact hsame ▸ List.nodup_dedup _
  · exact fun hnodup => congrArg List.length hnodup.dedup

/-- The numbers of a symbol are distinct, and its ticks keep a row each, exactly when no second of
its ticks comes back after another one. -/
theorem seq_unique_iff (hrate : ∀ sec, (times x (trades py items)).count sec < seqPerSec) :
    (((ticksOf x (ticks py (fun _ => none) items)).map Tick.seq).Nodup ↔
      NoReturn (times x (trades py items))) ∧
    ((ticksOf x (final Tick.key (ticks py (fun _ => none) items))).length =
        (ticksOf x (ticks py (fun _ => none) items)).length ↔
      NoReturn (times x (trades py items))) := by
  rw [length_final_iff, ticks_eq]
  exact ⟨nodup_seq_iff hrate, nodup_seq_iff hrate⟩

def natural (text : String) : Except PyError ℕ :=
  if text.toList.all Char.isDigit && !text.toList.isEmpty then
    .ok (text.toList.foldl (fun n c => 10 * n + (c.toNat - 48)) 0)
  else .error .valueError

def demoPython : Python where
  decimal text := (natural text).map fun n => (n : ℚ)
  int text := (natural text).map fun n => (n : ℤ)

def demoItem (symbol hhmmss : String) : ℤ × Item :=
  (0, ⟨some realTypeTrade, some symbol, some fun fid =>
    if fid = "20" then some hhmmss else if fid = "10" ∨ fid = "15" then some "7" else none⟩)

/-- Two ticks in one second with a tick of another symbol between them, and one in the next. -/
def demoItems : List (ℤ × Item) :=
  [demoItem "005930" "090000", demoItem "000660" "090000", demoItem "005930" "090000",
    demoItem "000660" "090002", demoItem "005930" "090001"]

theorem demoItems_ascending : (times "005930" (trades demoPython demoItems)).Pairwise (· ≤ ·) := by
  decide +kernel

theorem seq_unique_iff_demo :
    (ticks demoPython (fun _ => none) demoItems).map Tick.key =
        [("005930", 3240000000), ("000660", 3240000000), ("005930", 3240000001),
          ("000660", 3240200000), ("005930", 3240100000)] ∧
      ((ticksOf "005930" (ticks demoPython (fun _ => none) demoItems)).map Tick.seq).Nodup ∧
      (ticksOf "005930" (final Tick.key (ticks demoPython (fun _ => none) demoItems))).length =
        (ticksOf "005930" (ticks demoPython (fun _ => none) demoItems)).length := by
  have hrate : ∀ sec, (times "005930" (trades demoPython demoItems)).count sec < seqPerSec :=
    fun sec => List.count_le_length.trans_lt (by decide +kernel)
  have hno := noReturn_of_ascending demoItems_ascending
  exact ⟨by decide +kernel, (seq_unique_iff hrate).1.mpr hno, (seq_unique_iff hrate).2.mpr hno⟩

/-- The third tick has the number of the first. -/
theorem seq_late_tick :
    ¬ ((ticksOf "005930" (ticks demoPython (fun _ => none)
      [demoItem "005930" "090000", demoItem "005930" "090001",
        demoItem "005930" "090000"])).map Tick.seq).Nodup := by
  decide +kernel

end QuantTrader.Streaming.Kiwoom
