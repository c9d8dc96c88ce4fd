import Mathlib.Logic.Function.Basic
import Mathlib.Data.Rat.Floor
import QuantTrader.Transition.System

/-! # The tick sink

A consumer buffers the rows of the ticks it polls, inserts the buffer and commits
its position on every partition. A process moves statement by statement and can be
killed, or left by an exception, at each of them; an exception runs the `finally`
block, which inserts and commits what is buffered.
-/

namespace QuantTrader.Streaming.TickSink

open Transition

/-! ## Parsing -/

/-- The exceptions that parsing raises. -/
inductive PyError
  | keyError
  | valueError
  | typeError
  | other
  deriving DecidableEq

/-- The exceptions that `run` catches. -/
def PyError.Handled : PyError → Bool
  | keyError | valueError | typeError => true
  | other => false

/-- `json.loads`, the subscript of a decoded value and the conversions. -/
structure Python (Value Json Float Time : Type) where
  loads : Value → Except PyError Json
  getItem : Json → String → Except PyError Json
  float : Json → Except PyError Float
  int : Json → Except PyError ℤ
  fromisoformat : Json → Except PyError Time

/-- A row in the order of `COLUMNS_TICKS`. -/
structure Row (Json Float Time : Type) where
  symbol : Json
  price : Float
  volume : Float
  side : Json
  tradeTs : Time
  seq : ℤ
  deriving DecidableEq

variable {Value Json Float Time π : Type} [DecidableEq π]

/-- `parse_row` -/
def parseRow (py : Python Value Json Float Time) (value : Value) :
    Except PyError (Row Json Float Time) := do
  let t ← py.loads value
  let symbol ← py.getItem t "symbol"
  let price ← py.float (← py.getItem t "price")
  let volume ← py.float (← py.getItem t "volume")
  let side ← py.getItem t "side"
  let tradeTs ← py.fromisoformat (← py.getItem t "trade_ts")
  let seq ← py.int (← py.getItem t "seq")
  return ⟨symbol, price, volume, side, tradeTs, seq⟩

/-! ## The process -/

/-- A parsed row; no statement reads where it came from. -/
structure Delivery (π Json Float Time : Type) where
  partition : π
  offset : ℕ
  row : Row Json Float Time
  deriving DecidableEq

/-- The statement of `run` that is next. -/
inductive Point (π Value : Type)
  | poll
  | parse (partition : π) (offset : ℕ) (value : Value)
  | check
  | insert
  | commit
  | clear
  | rearm
  | finallyCheck
  | finallyInsert
  | finallyCommit
  | close

/-- The statement is in the `try` block. -/
def Point.InTry : Point π Value → Bool
  | poll | parse .. | check | insert | commit | clear | rearm => true
  | finallyCheck | finallyInsert | finallyCommit | close => false

def Point.IsPoll : Point π Value → Bool
  | poll => true
  | _ => false

/-- The variables of `run`, with the position of its consumer on each partition. -/
structure Process (π Value Json Float Time : Type) where
  point : Point π Value
  batch : List (Delivery π Json Float Time)
  now : ℚ
  lastFlush : ℚ
  position : π → ℕ

/-- The table, the offsets of the group, and the process if one is up. -/
structure World (π Value Json Float Time : Type) where
  ticks : List (Delivery π Json Float Time)
  committed : π → ℕ
  process : Option (Process π Value Json Float Time)

/-- What `consumer.poll` returns; an error event is a message with `error()`. -/
inductive Polled (π : Type)
  | nothing
  | error
  | message (partition : π)

/-- What a statement has done when it does not complete: the rows an insert wrote and whether a
commit reached the broker. -/
structure Part (π Json Float Time : Type) where
  written : Delivery π Json Float Time → Bool
  commits : Bool

inductive Event (π Json Float Time : Type)
  | start (clock : ℚ)
  | poll (polled : Polled π) (clock : ℚ)
  | advance
  | raise (part : Part π Json Float Time)
  | kill (part : Part π Json Float Time)

def batchSize : ℕ := 500

def flushSec : ℚ := 2

namespace Process

variable (s : Process π Value Json Float Time)

/-- A fresh consumer resumes at the committed offsets. -/
def resume (clock : ℚ) (committed : π → ℕ) : Process π Value Json Float Time :=
  ⟨.poll, [], clock, clock, committed⟩

def goto (point : Point π Value) : Process π Value Json Float Time := { s with point }

/-- `batch and (len(batch) >= BATCH_SIZE or now - last_flush >= FLUSH_SEC)` -/
def flushes : Bool :=
  !s.batch.isEmpty && (decide (batchSize ≤ s.batch.length) || decide (flushSec ≤ s.now - s.lastFlush))

/-- The next statement is the poll, and a message that it returns is there. -/
def CanPoll (topic : π → List Value) : Polled π → Prop
  | .message p => s.point.IsPoll ∧ s.position p < (topic p).length
  | _ => s.point.IsPoll

instance (topic : π → List Value) : DecidablePred (s.CanPoll topic)
  | .message p => inferInstanceAs (Decidable (s.point.IsPoll ∧ s.position p < (topic p).length))
  | .nothing | .error => inferInstanceAs (Decidable (s.point.IsPoll = true))

omit [DecidableEq π] in
theorem CanPoll.point {s : Process π Value Json Float Time} {topic : π → List Value}
    {polled : Polled π} (h : s.CanPoll topic polled) : s.point = .poll := by
  have hpoll : s.point.IsPoll = true := by
    cases polled with
    | message p => exact h.1
    | nothing | error => exact h
  obtain ⟨point, batch, now, lastFlush, position⟩ := s
  cases point with
  | poll => rfl
  | _ => cases hpoll

/-- A valid tick is polled and not yet appended. -/
def HoldsTick (py : Python Value Json Float Time) : Bool :=
  match s.point with
  | .parse _ _ value => (parseRow py value).isOk
  | _ => false

/-- An exception leaves the `try` block for the `finally` block, and the `finally` block for the
end of the process. -/
def unwind : Option (Process π Value Json Float Time) :=
  if s.point.InTry then some (s.goto .finallyCheck) else none

end Process

namespace World

variable (w : World π Value Json Float Time)

/-- `consumer.poll` and the clock after it. -/
def poll (topic : π → List Value) (s : Process π Value Json Float Time) (clock : ℚ) :
    Polled π → World π Value Json Float Time
  | .nothing | .error => { w with process := some { s with point := .check, now := clock } }
  | .message p =>
    match (topic p)[s.position p]? with
    | none => w
    | some value =>
      { w with process := some { s with
          point := .parse p (s.position p) value
          now := clock
          position := Function.update s.position p (s.position p + 1) } }

def advance (py : Python Value Json Float Time) (s : Process π Value Json Float Time) :
    World π Value Json Float Time :=
  match s.point with
  | .poll => w
  | .parse p offset value =>
    match parseRow py value with
    | .ok row => { w with process := some { s with
        point := .check
        batch := s.batch ++ [⟨p, offset, row⟩] } }
    | .error e => { w with process := some (s.goto (if e.Handled then .check else .finallyCheck)) }
  | .check => { w with process := some (s.goto (if s.flushes then .insert else .poll)) }
  | .insert => { w with ticks := w.ticks ++ s.batch, process := some (s.goto .commit) }
  | .commit => { w with committed := s.position, process := some (s.goto .clear) }
  | .clear => { w with process := some { s with point := .rearm, batch := [] } }
  | .rearm => { w with process := some { s with point := .poll, lastFlush := s.now } }
  | .finallyCheck =>
    { w with process := some (s.goto (if s.batch.isEmpty then .close else .finallyInsert)) }
  | .finallyInsert => { w with ticks := w.ticks ++ s.batch, process := some (s.goto .finallyCommit) }
  | .finallyCommit => { w with committed := s.position, process := some (s.goto .close) }
  | .close => { w with process := none }

/-- What stays of a statement that does not complete. -/
def partly (s : Process π Value Json Float Time) (part : Part π Json Float Time) :
    World π Value Json Float Time :=
  match s.point with
  | .insert | .finallyInsert => { w with ticks := w.ticks ++ s.batch.filter part.written }
  | .commit | .finallyCommit => if part.commits then { w with committed := s.position } else w
  | _ => w

end World

namespace Event

variable (py : Python Value Json Float Time) (topic : π → List Value)

def Enabled (w : World π Value Json Float Time) (e : Event π Json Float Time) : Prop :=
  match w.process, e with
  | none, start _ => True
  | some s, poll polled _ => s.CanPoll topic polled
  | some s, advance => s.point.IsPoll = false
  | some _, raise _ | some _, kill _ => True
  | _, _ => False

instance (w : World π Value Json Float Time) : DecidablePred (Enabled topic w) := fun e =>
  match h : w.process, e with
  | none, start _ => isTrue (by simp only [Enabled, h])
  | some s, poll polled _ => decidable_of_iff (s.CanPoll topic polled) (by simp only [Enabled, h])
  | some s, advance => decidable_of_iff (s.point.IsPoll = false) (by simp only [Enabled, h])
  | some _, raise _ | some _, kill _ => isTrue (by simp only [Enabled, h])
  | some _, start _ | none, poll .. | none, advance | none, raise _ | none, kill _ =>
    isFalse (by simp only [Enabled, h, not_false_iff])

def next (w : World π Value Json Float Time) (e : Event π Json Float Time) :
    World π Value Json Float Time :=
  match w.process, e with
  | none, start clock => { w with process := some (.resume clock w.committed) }
  | some s, poll polled clock => w.poll topic s clock polled
  | some s, advance => w.advance py s
  | some s, raise part => { w.partly s part with process := s.unwind }
  | some s, kill part => { w.partly s part with process := none }
  | _, _ => w

end Event

/-- The sinks of the consumer group, one after another. -/
def system (py : Python Value Json Float Time) (topic : π → List Value) :
    System (World π Value Json Float Time) (Event π Json Float Time) :=
  ⟨Event.Enabled topic, Event.next py topic⟩

instance (py : Python Value Json Float Time) (topic : π → List Value)
    (w : World π Value Json Float Time) (e : Event π Json Float Time) :
    Decidable ((system py topic).Enabled w e) :=
  inferInstanceAs (Decidable (Event.Enabled topic w e))

def World.init : World π Value Json Float Time := ⟨[], fun _ => 0, none⟩

/-! ## Nothing is lost -/

section Safety

variable (py : Python Value Json Float Time) (topic : π → List Value)

/-- The committed offsets pass no valid tick that is not in the table. -/
def AtLeastOnce (w : World π Value Json Float Time) : Prop :=
  ∀ p offset value row, offset < w.committed p → (topic p)[offset]? = some value →
    parseRow py value = .ok row → ⟨p, offset, row⟩ ∈ w.ticks

/-- No exception strikes between the poll of a valid tick and its append to a buffer with rows. -/
def Undisturbed (w : World π Value Json Float Time) : Event π Json Float Time → Prop
  | .raise _ => ∀ s ∈ w.process, s.HoldsTick py → s.batch = []
  | _ => True

instance (w : World π Value Json Float Time) : DecidablePred (Undisturbed py w)
  | .raise _ => inferInstanceAs (Decidable (∀ s ∈ w.process, s.HoldsTick py = true → s.batch = []))
  | .start _ | .poll .. | .advance | .kill _ => isTrue trivial

/-- Every valid tick below the bounds is among the rows. -/
def Covered (rows : List (Delivery π Json Float Time)) (upto : π → ℕ) : Prop :=
  ∀ p offset value row, offset < upto p → (topic p)[offset]? = some value →
    parseRow py value = .ok row → ⟨p, offset, row⟩ ∈ rows

/-- What holds of a process at each statement. -/
def Safe (ticks : List (Delivery π Json Float Time)) (s : Process π Value Json Float Time) : Prop :=
  match s.point with
  | .parse p offset value =>
    ∃ before, Covered py topic (ticks ++ s.batch) before ∧ before p = offset ∧
      s.position = Function.update before p (offset + 1) ∧ (topic p)[offset]? = some value
  | .poll | .check | .insert | .rearm | .finallyInsert =>
    Covered py topic (ticks ++ s.batch) s.position
  | .commit | .clear | .finallyCommit => Covered py topic ticks s.position
  | .finallyCheck => s.batch = [] ∨ Covered py topic (ticks ++ s.batch) s.position
  | .close => True

structure Inv (w : World π Value Json Float Time) : Prop where
  stored : Covered py topic w.ticks w.committed
  process : ∀ s ∈ w.process, Safe py topic w.ticks s

end Safety

section

variable {py : Python Value Json Float Time} {topic : π → List Value}
  {w : World π Value Json Float Time} {s : Process π Value Json Float Time}
  {rows rows' : List (Delivery π Json Float Time)} {upto : π → ℕ} {p : π} {offset : ℕ}
  {value : Value} {row : Row Json Float Time}

omit [DecidableEq π] in
theorem Covered.mono (h : Covered py topic rows upto) (hsub : rows ⊆ rows') :
    Covered py topic rows' upto := by
  intro p offset value row hlt hv hrow
  exact hsub (h p offset value row hlt hv hrow)

theorem Covered.succ (h : Covered py topic rows upto) (hv : (topic p)[upto p]? = some value)
    (hsub : rows ⊆ rows')
    (hrow : ∀ row, parseRow py value = .ok row → ⟨p, upto p, row⟩ ∈ rows') :
    Covered py topic rows' (Function.update upto p (upto p + 1)) := by
  intro q offset value' row hlt hv' hrow'
  rcases eq_or_ne q p with rfl | hne
  · rw [Function.update_self] at hlt
    rcases Nat.lt_succ_iff_lt_or_eq.mp hlt with hlt | rfl
    · exact hsub (h q offset value' row hlt hv' hrow')
    · obtain rfl : value = value' := Option.some.inj (hv.symm.trans hv')
      exact hrow row hrow'
  · rw [Function.update_of_ne hne] at hlt
    exact hsub (h q offset value' row hlt hv' hrow')

theorem Safe.parsed (h : Safe py topic rows s) (hp : s.point = .parse p offset value)
    (hsub : rows ++ s.batch ⊆ rows')
    (hrow : ∀ row, parseRow py value = .ok row → ⟨p, offset, row⟩ ∈ rows') :
    Covered py topic rows' s.position := by
  simp only [Safe, hp] at h
  obtain ⟨before, hcov, rfl, hpos, hv⟩ := h
  rw [hpos]
  exact hcov.succ hv hsub hrow

theorem Safe.mono (h : Safe py topic rows s) (hsub : rows ⊆ rows') : Safe py topic rows' s := by
  have happ : rows ++ s.batch ⊆ rows' ++ s.batch := by
    intro d hd
    rcases List.mem_append.mp hd with hd | hd
    · exact List.mem_append_left _ (hsub hd)
    · exact List.mem_append_right _ hd
  obtain ⟨point, batch, now, lastFlush, position⟩ := s
  cases point with
  | parse p offset value =>
    obtain ⟨before, hcov, hrest⟩ := h
    exact ⟨before, hcov.mono happ, hrest⟩
  | poll | check | insert | rearm | finallyInsert => exact Covered.mono h happ
  | commit | clear | finallyCommit => exact Covered.mono h hsub
  | finallyCheck =>
    rcases h with hnil | hcov
    · exact Or.inl hnil
    · exact Or.inr (hcov.mono happ)
  | close => trivial

/-- Wherever an exception is raised, the buffer covers the position or is empty. -/
theorem Safe.unwind {s' : Process π Value Json Float Time} (h : Safe py topic rows s)
    (hs : s.unwind = some s') (hno : s.HoldsTick py → s.batch = []) : Safe py topic rows s' := by
  obtain ⟨point, batch, now, lastFlush, position⟩ := s
  unfold Process.unwind at hs
  cases point with
  | parse p offset value =>
    obtain rfl := Option.some.inj hs
    by_cases hok : (parseRow py value).isOk
    · exact Or.inl (hno hok)
    · apply Or.inr
      apply h.parsed rfl (List.Subset.refl _)
      intro row hrow
      rw [hrow] at hok
      exact absurd rfl hok
  | poll | check | insert | rearm =>
    obtain rfl := Option.some.inj hs
    exact Or.inr h
  | commit | clear =>
    obtain rfl := Option.some.inj hs
    exact Or.inr (Covered.mono h (List.subset_append_left _ _))
  | finallyCheck | finallyInsert | finallyCommit | close => cases hs

/-- A statement that does not complete loses nothing. -/
theorem Inv.partly (h : Inv py topic w) (hs : s ∈ w.process) (part : Part π Json Float Time) :
    Covered py topic (w.partly s part).ticks (w.partly s part).committed ∧
      Safe py topic (w.partly s part).ticks s := by
  have hsafe : Safe py topic w.ticks s := h.process s hs
  obtain ⟨point, batch, now, lastFlush, position⟩ := s
  cases point with
  | insert | finallyInsert =>
    have hsub : w.ticks ⊆ w.ticks ++ batch.filter part.written := List.subset_append_left _ _
    exact ⟨h.stored.mono hsub, hsafe.mono hsub⟩
  | commit | finallyCommit =>
    unfold World.partly
    cases hpart : part.commits with
    | true => exact ⟨hsafe, hsafe⟩
    | false => exact ⟨h.stored, hsafe⟩
  | poll | parse | check | clear | rearm | finallyCheck | close => exact ⟨h.stored, hsafe⟩

theorem Inv.of_safe {ticks : List (Delivery π Json Float Time)} {committed : π → ℕ}
    (hstored : Covered py topic ticks committed) (hsafe : Safe py topic ticks s) :
    Inv py topic ⟨ticks, committed, some s⟩ := by
  refine ⟨hstored, ?_⟩
  rintro _ ⟨⟩
  exact hsafe

theorem Inv.advance (h : Inv py topic w) (hs : s ∈ w.process) : Inv py topic (w.advance py s) := by
  have hsafe : Safe py topic w.ticks s := h.process s hs
  obtain ⟨point, batch, now, lastFlush, position⟩ := s
  cases point with
  | poll => exact h
  | parse p offset value =>
    cases hparse : parseRow py value with
    | ok row =>
      simp only [World.advance, hparse]
      apply Inv.of_safe h.stored
      rw [Safe, ← List.append_assoc]
      apply hsafe.parsed rfl (List.subset_append_left _ _)
      intro row' hrow
      obtain rfl : row = row' := Except.ok.inj (hparse.symm.trans hrow)
      exact List.mem_append_right _ (List.mem_singleton_self _)
    | error e =>
      have hcov : Covered py topic (w.ticks ++ batch) position := by
        apply hsafe.parsed rfl (List.Subset.refl _)
        intro row hrow
        rw [hparse] at hrow
        cases hrow
      simp only [World.advance, hparse]
      apply Inv.of_safe h.stored
      cases e.Handled with
      | true => exact hcov
      | false => exact Or.inr hcov
  | check =>
    apply Inv.of_safe h.stored
    cases Process.flushes _ with
    | true => exact hsafe
    | false => exact hsafe
  | insert | finallyInsert =>
    exact .of_safe (h.stored.mono (List.subset_append_left _ _)) hsafe
  | commit => exact .of_safe hsafe hsafe
  | clear => exact .of_safe h.stored (Covered.mono hsafe (List.subset_append_left _ _))
  | rearm => exact .of_safe h.stored hsafe
  | finallyCheck =>
    apply Inv.of_safe h.stored
    cases batch with
    | nil => trivial
    | cons d batch =>
      rcases hsafe with hnil | hcov
      · cases hnil
      · exact hcov
  | finallyCommit => exact .of_safe hsafe trivial
  | close => exact ⟨h.stored, nofun⟩

theorem Inv.poll (h : Inv py topic w) (hs : s ∈ w.process) {polled : Polled π}
    (hp : s.CanPoll topic polled) (clock : ℚ) : Inv py topic (w.poll topic s clock polled) := by
  have hpoll : s.point = .poll := Process.CanPoll.point hp
  have hsafe : Safe py topic w.ticks s := h.process s hs
  rw [Safe, hpoll] at hsafe
  cases polled with
  | nothing | error => exact .of_safe h.stored hsafe
  | message p =>
    cases hv : (topic p)[s.position p]? with
    | none =>
      simp only [World.poll, hv]
      exact h
    | some value =>
      simp only [World.poll, hv]
      exact .of_safe h.stored ⟨s.position, hsafe, rfl, rfl, hv⟩

theorem Inv.next {e : Event π Json Float Time} (h : Inv py topic w)
    (he : Event.Enabled topic w e) (hno : Undisturbed py w e) :
    Inv py topic (Event.next py topic w e) := by
  unfold Event.next
  cases hw : w.process with
  | none =>
    cases e with
    | start clock =>
      exact .of_safe h.stored (Covered.mono h.stored (List.subset_append_left _ _))
    | _ => exact h
  | some s =>
    have hs : s ∈ w.process := hw
    cases e with
    | start clock => exact h
    | poll polled clock =>
      simp only [Event.Enabled, hw] at he
      exact h.poll hs he clock
    | advance => exact h.advance hs
    | raise part =>
      obtain ⟨hcov, hsafe⟩ := h.partly hs part
      refine ⟨hcov, ?_⟩
      intro s' hs'
      exact hsafe.unwind hs' (hno s hs)
    | kill part => exact ⟨(h.partly hs part).1, nofun⟩

theorem Inv.init : Inv py topic .init := by
  constructor
  · intro p offset value row hlt
    cases hlt
  · nofun

/-- In every run in which no exception separates a tick from its append, a commit passes only
ticks that the table has. -/
theorem sink_at_least_once
    (h : ((system py topic).restrict (Undisturbed py)).Reaches .init w) :
    AtLeastOnce py topic w := by
  have hinv : Inv py topic w := by
    apply h.invariant Inv.init
    rintro w e hw ⟨he, hno⟩
    exact hw.next he hno
  exact hinv.stored

end

section Demo

/-- Decoded JSON; in the demonstration it also stands for the encoded message. -/
inductive DemoJson
  | number (n : ℤ)
  | string (s : String)
  | object (fields : List (String × DemoJson))

def DemoJson.getItem : DemoJson → String → Except PyError DemoJson
  | object fields, key => match fields.lookup key with
    | some value => .ok value
    | none => .error .keyError
  | _, _ => .error .typeError

def DemoJson.int : DemoJson → Except PyError ℤ
  | number n => .ok n
  | string _ => .error .valueError
  | object _ => .error .typeError

def demoPython : Python DemoJson DemoJson ℤ String where
  loads := .ok
  getItem := DemoJson.getItem
  float := DemoJson.int
  int := DemoJson.int
  fromisoformat
    | .string s => .ok s
    | _ => .error .typeError

def demoTick (seq : ℤ) : DemoJson := .object [("symbol", .string "KRW-BTC"), ("price", .number 100),
  ("volume", .number 1), ("side", .string "BID"), ("trade_ts", .string "2026-01-02T00:00:00+00:00"),
  ("seq", .number seq)]

def demoTopic (_ : Unit) : List DemoJson := [demoTick 1, demoTick 2]

/-- An exception that finds nothing done. -/
def interrupt : Event Unit DemoJson ℤ String := .raise ⟨fun _ => false, false⟩

/-- The first tick is buffered; the next poll has begun or has returned the second tick. -/
def demoBuffered : List (Event Unit DemoJson ℤ String) :=
  [.start 0, .poll (.message ()) 0, .advance, .advance]

/-- The `finally` block. -/
def demoFinally : List (Event Unit DemoJson ℤ String) := [.advance, .advance, .advance, .advance]

theorem sink_at_least_once_stopped :
    ((system demoPython demoTopic).run .init (demoBuffered ++ interrupt :: demoFinally)).committed ()
        = 1 ∧
      AtLeastOnce demoPython demoTopic
        ((system demoPython demoTopic).run .init (demoBuffered ++ interrupt :: demoFinally)) := by
  have hallowed : ((system demoPython demoTopic).restrict (Undisturbed demoPython)).Allowed .init
      (demoBuffered ++ interrupt :: demoFinally) := by
    decide +kernel
  exact ⟨by decide +kernel, sink_at_least_once (System.Reaches.start.run hallowed)⟩

/-- A keyboard interrupt after the second poll has returned: the `finally` block inserts the first
tick and commits the position after both. -/
theorem interrupted_tick_lost : ∃ w, (system demoPython demoTopic).Reaches .init w ∧
    w.ticks.map Delivery.offset = [0] ∧ w.committed () = 2 ∧
    ¬ AtLeastOnce demoPython demoTopic w := by
  have hallowed : (system demoPython demoTopic).Allowed .init
      (demoBuffered ++ .poll (.message ()) 1 :: interrupt :: demoFinally) := by
    decide +kernel
  have hticks : ((system demoPython demoTopic).run .init (demoBuffered ++
      .poll (.message ()) 1 :: interrupt :: demoFinally)).ticks.map Delivery.offset = [0] := by
    decide +kernel
  refine ⟨_, System.Reaches.start.run hallowed, hticks, by decide +kernel, ?_⟩
  intro h
  have hmem := h () 1 (demoTick 2) ⟨.string "KRW-BTC", 100, 1, .string "BID",
    "2026-01-02T00:00:00+00:00", 2⟩ (by decide +kernel) rfl rfl
  have hoffset := List.mem_map_of_mem (f := Delivery.offset) hmem
  rw [hticks] at hoffset
  cases List.mem_singleton.mp hoffset

end Demo

end QuantTrader.Streaming.TickSink
