import Mathlib.Algebra.Order.Ring.Rat
import Mathlib.Data.List.DropRight
import Mathlib.Tactic.Linarith

/-! # The delivery watchdog

The watchdog counts the messages produced since the last successful delivery and
remembers the time of that delivery; it knows neither the messages nor the time
of the first one it counts. Beside it stands the list of the messages that are
really outstanding, and an alarm is compared with that list.
-/

namespace QuantTrader.Streaming

/-- `DELIVERY_STALL_SEC`. -/
def deliveryStallSec : ℚ := 180

/-- `DeliveryWatchdog`, without its clock: each call is given the reading. -/
structure DeliveryWatchdog where
  stallSec : ℚ
  lastOk : ℚ
  pending : ℕ
  deriving DecidableEq

namespace DeliveryWatchdog

/-- `__init__`. -/
def init (stallSec clock : ℚ) : DeliveryWatchdog := ⟨stallSec, clock, 0⟩

/-- `record_produce`. -/
def recordProduce (w : DeliveryWatchdog) : DeliveryWatchdog := { w with pending := w.pending + 1 }

/-- `record_delivery`: only a delivery without an error resets. -/
def recordDelivery (w : DeliveryWatchdog) (err : Option String) (clock : ℚ) : DeliveryWatchdog :=
  match err with
  | none => { w with pending := 0, lastOk := clock }
  | some _ => w

/-- `stalled`. -/
def stalled (w : DeliveryWatchdog) (clock : ℚ) : Bool :=
  decide (0 < w.pending) && decide (w.stallSec < clock - w.lastOk)

/-! ## Runs -/

/-- A call and the clock it reads. The watchdog is not told which message a delivery is about. -/
inductive Call
  | produce (clock : ℚ)
  | delivery (clock : ℚ) (msg : ℕ) (err : Option String)
  | stalled (clock : ℚ)
  deriving DecidableEq

/-- A produced message, numbered in the order of production. -/
structure Message where
  id : ℕ
  producedAt : ℚ
  deriving DecidableEq

/-- The watchdog, the messages produced so far and the ones without a successful delivery. -/
structure Producer where
  watchdog : DeliveryWatchdog
  produced : ℕ
  outstanding : List Message
  deriving DecidableEq

def Producer.step (s : Producer) : Call → Producer
  | .produce clock =>
    ⟨s.watchdog.recordProduce, s.produced + 1, s.outstanding ++ [⟨s.produced, clock⟩]⟩
  | .delivery clock msg err =>
    { s with
      watchdog := s.watchdog.recordDelivery err clock
      outstanding := if err = none then s.outstanding.filter (·.id ≠ msg) else s.outstanding }
  | .stalled _ => s

section Runs

variable (stallSec start : ℚ)

def run (calls : List Call) : Producer := calls.foldl .step ⟨init stallSec start, 0, []⟩

/-- Some message is outstanding for longer than `stall_sec`. -/
def Overdue (calls : List Call) (clock : ℚ) : Prop :=
  ∃ m ∈ (run stallSec start calls).outstanding, stallSec < clock - m.producedAt

/-- An alarm of `stalled()` is about an overdue message. -/
def NoFalseAlarm (calls : List Call) : Prop :=
  ∀ before clock after, calls = before ++ .stalled clock :: after →
    (run stallSec start before).watchdog.stalled clock = true → Overdue stallSec start before clock

/-! ## The calls since the last success -/

def Call.succeeds : Call → Bool
  | .delivery _ _ none => true
  | _ => false

def Call.clock : Call → ℚ
  | .produce clock | .delivery clock _ _ | .stalled clock => clock

/-- The time a message is produced. -/
def Call.produces : Call → Option ℚ
  | .produce clock => some clock
  | _ => none

/-- The calls up to the last successful delivery. -/
def confirmed (calls : List Call) : List Call := calls.rdropWhile fun c => !c.succeeds

/-- The times of the messages produced after the last successful delivery. -/
def burst (calls : List Call) : List ℚ :=
  (calls.rtakeWhile fun c => !c.succeeds).filterMap Call.produces

/-- The time of the last successful delivery, or of the start. -/
def lastSuccess (calls : List Call) : ℚ :=
  ((confirmed calls).getLast?.map Call.clock).getD start

/-- The last success is more than `stall_sec` old, though messages were produced since and none of
them is that old: the producer was idle in between. -/
def AfterIdle (calls : List Call) (clock : ℚ) : Prop :=
  stallSec < clock - lastSuccess start calls ∧ burst calls ≠ [] ∧
    ∀ t ∈ burst calls, clock - t ≤ stallSec

/-- After an idle period `stalled()` is not called before `stall_sec` has passed, unless a message
left behind by the last success is overdue. -/
def Timely (calls : List Call) : Prop :=
  ∀ before clock after, calls = before ++ .stalled clock :: after →
    AfterIdle stallSec start before clock → Overdue stallSec start (confirmed before) clock

end Runs

variable {stallSec start clock : ℚ} {calls : List Call} {c : Call}

@[simp] theorem run_nil : run stallSec start [] = ⟨init stallSec start, 0, []⟩ := rfl

@[simp] theorem run_append_singleton :
    run stallSec start (calls ++ [c]) = (run stallSec start calls).step c := by
  simp [run]

theorem confirmed_of_succeeds (h : c.succeeds = true) :
    confirmed (calls ++ [c]) = calls ++ [c] := by
  simp [confirmed, h]

theorem confirmed_of_not_succeeds (h : c.succeeds = false) :
    confirmed (calls ++ [c]) = confirmed calls := by
  simp [confirmed, h]

theorem burst_of_succeeds (h : c.succeeds = true) : burst (calls ++ [c]) = [] := by
  simp [burst, h]

theorem burst_of_not_succeeds (h : c.succeeds = false) :
    burst (calls ++ [c]) = burst calls ++ c.produces.toList := by
  rw [burst, List.rtakeWhile_concat_pos _ _ _ (by simp [h]), List.filterMap_append, burst]
  cases hc : c.produces <;> simp [hc]

/-- The watchdog and the outstanding messages, read off the calls. -/
structure Tracks (stallSec start : ℚ) (calls : List Call) : Prop where
  stallSec_eq : (run stallSec start calls).watchdog.stallSec = stallSec
  lastOk : (run stallSec start calls).watchdog.lastOk = lastSuccess start calls
  pending : (run stallSec start calls).watchdog.pending = (burst calls).length
  outstanding : ∃ ms, (run stallSec start calls).outstanding =
    (run stallSec start (confirmed calls)).outstanding ++ ms ∧ ms.map (·.producedAt) = burst calls

theorem tracks_of_succeeds (h : Tracks stallSec start calls) (hc : c.succeeds = true) :
    Tracks stallSec start (calls ++ [c]) := by
  have hlast : lastSuccess start (calls ++ [c]) = c.clock := by
    simp [lastSuccess, confirmed_of_succeeds hc]
  match c, hc with
  | .delivery clock msg none, hc =>
    constructor
    · rw [run_append_singleton]
      exact h.stallSec_eq
    · rw [run_append_singleton, hlast]
      rfl
    · rw [run_append_singleton, burst_of_succeeds hc]
      rfl
    · refine ⟨[], ?_, ?_⟩
      · rw [confirmed_of_succeeds hc, List.append_nil]
      · rw [burst_of_succeeds hc]
        rfl

theorem tracks_of_not_succeeds (h : Tracks stallSec start calls) (hc : c.succeeds = false) :
    Tracks stallSec start (calls ++ [c]) := by
  have hlast : lastSuccess start (calls ++ [c]) = lastSuccess start calls := by
    rw [lastSuccess, confirmed_of_not_succeeds hc, lastSuccess]
  have hburst : burst (calls ++ [c]) = burst calls ++ c.produces.toList :=
    burst_of_not_succeeds hc
  obtain ⟨ms, hms, htimes⟩ := h.outstanding
  match c, hc with
  | .produce clock, hc =>
    constructor
    · rw [run_append_singleton]
      exact h.stallSec_eq
    · rw [run_append_singleton, hlast]
      exact h.lastOk
    · rw [run_append_singleton, hburst]
      simpa [Call.produces, Producer.step, recordProduce] using h.pending
    · refine ⟨ms ++ [⟨(run stallSec start calls).produced, clock⟩], ?_, ?_⟩
      · rw [run_append_singleton, confirmed_of_not_succeeds hc, ← List.append_assoc, ← hms]
        rfl
      · rw [hburst, List.map_append, htimes]
        rfl
  | .delivery clock msg (some err), hc | .stalled clock, hc =>
    replace hburst := hburst.trans (List.append_nil _)
    constructor
    · rw [run_append_singleton]
      exact h.stallSec_eq
    · rw [run_append_singleton, hlast]
      exact h.lastOk
    · rw [run_append_singleton, hburst]
      exact h.pending
    · refine ⟨ms, ?_, ?_⟩
      · rw [run_append_singleton, confirmed_of_not_succeeds hc, ← hms]
        rfl
      · rw [hburst, htimes]

theorem tracks_run (stallSec start : ℚ) (calls : List Call) : Tracks stallSec start calls := by
  induction calls using List.reverseRecOn with
  | nil => exact ⟨rfl, rfl, rfl, [], rfl, rfl⟩
  | append_singleton calls c ih =>
    cases hc : c.succeeds with
    | true => exact tracks_of_succeeds ih hc
    | false => exact tracks_of_not_succeeds ih hc

theorem stalled_iff : (run stallSec start calls).watchdog.stalled clock = true ↔
    burst calls ≠ [] ∧ stallSec < clock - lastSuccess start calls := by
  have h := tracks_run stallSec start calls
  rw [stalled, h.stallSec_eq, h.lastOk, h.pending, Bool.and_eq_true, decide_eq_true_iff,
    decide_eq_true_iff, List.length_pos_iff]

/-- A message is overdue among those left behind by the last success or those produced since. -/
theorem overdue_iff : Overdue stallSec start calls clock ↔
    Overdue stallSec start (confirmed calls) clock ∨ ∃ t ∈ burst calls, stallSec < clock - t := by
  obtain ⟨ms, hms, htimes⟩ := (tracks_run stallSec start calls).outstanding
  rw [Overdue, hms, ← htimes]
  constructor
  · rintro ⟨m, hm, hlt⟩
    rcases List.mem_append.mp hm with hm | hm
    · exact Or.inl ⟨m, hm, hlt⟩
    · exact Or.inr ⟨m.producedAt, List.mem_map_of_mem hm, hlt⟩
  · rintro (⟨m, hm, hlt⟩ | ⟨t, ht, hlt⟩)
    · exact ⟨m, List.mem_append_left _ hm, hlt⟩
    · obtain ⟨m, hm, rfl⟩ := List.mem_map.mp ht
      exact ⟨m, List.mem_append_right _ hm, hlt⟩

/-- The alarms of a run are true exactly when `stalled()` is not asked too early after an idle
period. -/
theorem noFalseAlarm_iff (stallSec start : ℚ) (calls : List Call) :
    NoFalseAlarm stallSec start calls ↔ Timely stallSec start calls := by
  constructor
  · rintro h before clock after heq ⟨hlast, hne, hyoung⟩
    rcases overdue_iff.mp (h before clock after heq (stalled_iff.mpr ⟨hne, hlast⟩)) with
      hold | ⟨t, ht, hlt⟩
    · exact hold
    · exact absurd (hyoung t ht) (not_le.mpr hlt)
  · intro h before clock after heq hstalled
    obtain ⟨hne, hlast⟩ := stalled_iff.mp hstalled
    apply overdue_iff.mpr
    by_cases hyoung : ∀ t ∈ burst before, clock - t ≤ stallSec
    · exact Or.inl (h before clock after heq ⟨hlast, hne, hyoung⟩)
    · push Not at hyoung
      exact Or.inr hyoung

/-- A watchdog that has been idle for longer than `stall_sec` fires at once on the next message. -/
theorem stalled_after_idle (stallSec start clock : ℚ) (hidle : stallSec < clock - start) :
    (run stallSec start [.produce clock]).watchdog.stalled clock = true := by
  apply stalled_iff.mpr
  exact ⟨List.cons_ne_nil _ _, hidle⟩

/-- The first message after ten minutes of silence, asked about at once. -/
def quietTenMinutes : List Call := [.produce 600, .stalled 600]

theorem quietTenMinutes_false_alarm :
    (quietTenMinutes.map Call.clock).Pairwise (· ≤ ·) ∧
      (run deliveryStallSec 0 [.produce 600]).watchdog.stalled 600 = true ∧
      (run deliveryStallSec 0 [.produce 600]).outstanding = [⟨0, 600⟩] ∧
      ¬ NoFalseAlarm deliveryStallSec 0 quietTenMinutes := by
  refine ⟨by decide +kernel, by decide +kernel, by decide +kernel, ?_⟩
  intro h
  obtain ⟨m, hm, hlt⟩ := h [.produce 600] 600 [] rfl (by decide +kernel)
  obtain rfl : m = ⟨0, 600⟩ := List.mem_singleton.mp hm
  revert hlt
  decide +kernel

end DeliveryWatchdog

end QuantTrader.Streaming
