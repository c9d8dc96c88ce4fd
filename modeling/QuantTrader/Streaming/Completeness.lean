import Mathlib.Algebra.Order.BigOperators.Group.List
import Mathlib.Data.List.Induction
import Mathlib.Tactic.Linarith
import QuantTrader.Streaming.Candle

/-! # Complete candles

A window that is not evicted between two of its ticks has the candle of all its
ticks in the last row inserted. A tick that comes after the eviction opens the
window anew, and its row replaces the complete one.
-/

namespace QuantTrader.Streaming

open ClickHouse

variable {s : Aggregator} {k : Window} {seen later : List Tick} {t : Tick} {p : Polled}
  {now clock : ℚ} {polls pre post : List (Polled × ℚ)} {e : Polled × ℚ}

/-! ## The candle of some ticks -/

/-- Open, high, low, close and volume of the ticks of a window, in their order. -/
def Candle.complete : List Tick → Option Candle
  | [] => none
  | t :: later => some {
      opening := t.price
      high := (later.map Tick.price).foldl max t.price
      low := (later.map Tick.price).foldl min t.price
      close := (later.map Tick.price).getLastD t.price
      volume := ((t :: later).map Tick.volume).sum }

theorem Candle.complete_snoc (seen : List Tick) (t : Tick) : Candle.complete (seen ++ [t]) =
    some (match Candle.complete seen with
      | none => .ofTick t
      | some c => c.add t) := by
  cases seen with
  | nil => simp [complete, ofTick]
  | cons a seen => simp [complete, add, add_assoc]

def Polled.tick? : Polled → Option Tick
  | .tick t => some t
  | _ => none

def ticks (polls : List (Polled × ℚ)) : List Tick := polls.filterMap fun e => e.1.tick?

def ticksOf (k : Window) (polls : List (Polled × ℚ)) : List Tick :=
  (ticks polls).filter fun t => t.window = k

theorem ticksOf_append (k : Window) (pre post : List (Polled × ℚ)) :
    ticksOf k (pre ++ post) = ticksOf k pre ++ ticksOf k post := by
  simp [ticksOf, ticks]

theorem ticksOf_singleton_of_ne (h : ∀ t, e.1 = .tick t → t.window ≠ k) : ticksOf k [e] = [] := by
  obtain ⟨p, clock⟩ := e
  cases p with
  | nothing => rfl
  | bad => rfl
  | tick t => simp [ticksOf, ticks, Polled.tick?, h t rfl]

theorem ticksOf_singleton (t : Tick) (clock : ℚ) : ticksOf t.window [(.tick t, clock)] = [t] := by
  simp [ticksOf, ticks, Polled.tick?]

/-! ## One turn -/

namespace Aggregator

theorem past_commit_upsert : s.upsert.commit.Past k ↔ s.Past k := by
  unfold commit
  split <;> exact Iff.rfl

theorem candles_flush (s : Aggregator) (clock : ℚ) (k : Window) :
    (s.flush clock).candles k = if s.Past k then none else s.candles k := by
  have hcandles : s.upsert.commit.candles = s.candles := by
    unfold commit
    split <;> rfl
  simp only [flush, evict, past_commit_upsert, hcandles]

theorem rows_flush (s : Aggregator) (clock : ℚ) :
    (s.flush clock).rows = s.rows ++ batch s.candles s.dirty s.known := by
  unfold flush evict commit
  split <;> rfl

theorem candles_take (s : Aggregator) (t : Tick) : (s.take t).candles t.window =
    some (match s.candles t.window with
      | none => .ofTick t
      | some c => c.add t) :=
  Function.update_self _ _ _

theorem receive_of_ne (h : ∀ t, p = .tick t → t.window ≠ k) :
    (s.receive p).candles k = s.candles k ∧ (k ∈ (s.receive p).dirty ↔ k ∈ s.dirty) ∧
      (s.receive p).rows = s.rows := by
  cases p with
  | nothing => exact ⟨rfl, Iff.rfl, rfl⟩
  | bad => exact ⟨rfl, Iff.rfl, rfl⟩
  | tick t =>
    refine ⟨Function.update_of_ne (h t rfl).symm _ _, ?_, rfl⟩
    simp [receive, take, (h t rfl).symm]

/-- The flush of a turn runs, with the watermark past a window. -/
def Evicts (s : Aggregator) (e : Polled × ℚ) (k : Window) : Prop :=
  flushSec ≤ e.2 - (s.receive e.1).lastFlush ∧ (s.receive e.1).Past k

theorem candles_turn_of_evicts (h : s.Evicts e k) : (s.turn e).candles k = none := by
  simp only [turn]
  rw [if_pos h.1, candles_flush, if_pos h.2]

theorem candles_turn (h : ¬ s.Evicts e k) : (s.turn e).candles k = (s.receive e.1).candles k := by
  simp only [turn]
  split_ifs with hdue
  · rw [candles_flush, if_neg fun hpast => h ⟨hdue, hpast⟩]
  · rfl

end Aggregator

/-! ## Windows that are kept -/

/-- Once a flush with the watermark past the window has run, the window gets no further tick. -/
def Kept (now : ℚ) (polls : List (Polled × ℚ)) (k : Window) : Prop :=
  ∀ pre e post, polls = pre ++ e :: post → ticksOf k (pre ++ [e]) ≠ [] →
    (after now pre).Evicts e k → ticksOf k post = []

theorem Kept.of_append (h : Kept now (polls ++ post) k) : Kept now polls k := by
  rintro pre e mid rfl hne hev
  have hnil := h pre e (mid ++ post) (by simp) hne hev
  rw [ticksOf_append] at hnil
  exact (List.append_eq_nil_iff.mp hnil).1

/-- A window with ticks that is not in memory was evicted after one of them. -/
theorem exists_evicts (hnone : (after now polls).candles k = none) (hne : ticksOf k polls ≠ []) :
    ∃ pre e post, polls = pre ++ e :: post ∧ ticksOf k (pre ++ [e]) ≠ [] ∧
      (after now pre).Evicts e k := by
  induction polls using List.reverseRecOn with
  | nil => exact absurd rfl hne
  | append_singleton polls e ih =>
    by_cases hev : (after now polls).Evicts e k
    · exact ⟨polls, e, [], rfl, hne, hev⟩
    rw [after_snoc, Aggregator.candles_turn hev] at hnone
    by_cases htick : ∀ t, e.1 = .tick t → t.window ≠ k
    · rw [(Aggregator.receive_of_ne htick).1] at hnone
      rw [ticksOf_append, ticksOf_singleton_of_ne htick, List.append_nil] at hne
      obtain ⟨pre, e', post, rfl, hne', hev'⟩ := ih hnone hne
      exact ⟨pre, e', post ++ [e], by simp, hne', hev'⟩
    · push Not at htick
      obtain ⟨t, he, rfl⟩ := htick
      rw [he] at hnone
      exact absurd ((Aggregator.candles_take _ t).symm.trans hnone) (by simp)

/-- The candle in memory stands in a relation to the ticks seen; so does the row of the window,
unless a flush will write it or no tick was seen since the row `r`. -/
structure Tracks (M : Candle → List Tick → Prop) (r : Option Candle) (s : Aggregator) (k : Window)
    (seen : List Tick) : Prop where
  memory : ∀ c, s.candles k = some c → M c seen
  saved : k ∉ s.dirty →
    (seen = [] ∧ latest k s.rows = r) ∨ ∃ c, latest k s.rows = some c ∧ M c seen

namespace Tracks

variable {M : Candle → List Tick → Prop} {r : Option Candle}

theorem receive_of_ne (h : Tracks M r s k seen) (hne : ∀ t, p = .tick t → t.window ≠ k) :
    Tracks M r (s.receive p) k seen := by
  obtain ⟨hcandles, hdirty, hrows⟩ := Aggregator.receive_of_ne (s := s) hne
  constructor
  · rw [hcandles]
    exact h.memory
  · rw [hdirty, hrows]
    exact h.saved

theorem receive (hadd : ∀ c, (s.take t).candles t.window = some c → M c (seen ++ [t])) :
    Tracks M r (s.receive (.tick t)) t.window (seen ++ [t]) where
  memory := hadd
  saved hdirty := absurd List.mem_insert_self hdirty

/-- After an upsert the row is the candle in memory, or was saved before. -/
theorem latest_upsert (h : Tracks M r s k seen) :
    (seen = [] ∧ latest k s.upsert.rows = r) ∨
      ∃ c, latest k s.upsert.rows = some c ∧ M c seen := by
  simp only [Aggregator.upsert, latest_append_batch]
  split_ifs with hk
  · obtain ⟨c, hc⟩ := Option.isSome_iff_exists.mp (s.known k hk)
    exact Or.inr ⟨c, hc, h.memory c hc⟩
  · exact h.saved hk

theorem flush (h : Tracks M r s k seen) (clock : ℚ) : Tracks M r (s.flush clock) k seen where
  memory c hc := by
    rw [Aggregator.candles_flush] at hc
    split_ifs at hc
    exact h.memory c hc
  saved _ := by
    rw [Aggregator.rows_flush]
    exact h.latest_upsert

theorem turn (h : Tracks M r (s.receive e.1) k seen) : Tracks M r (s.turn e) k seen := by
  simp only [Aggregator.turn]
  split_ifs
  · exact h.flush _
  · exact h

end Tracks

/-! ## A window that is kept -/

theorem Kept.candles_eq_none (h : Kept now (polls ++ [(.tick t, clock)]) t.window)
    (hnone : (after now polls).candles t.window = none) : ticksOf t.window polls = [] := by
  by_contra hne
  obtain ⟨pre, e, post, rfl, hne', hev⟩ := exists_evicts hnone hne
  have hnil := h pre e (post ++ [(.tick t, clock)]) (by simp) hne' hev
  rw [ticksOf_append, ticksOf_singleton] at hnil
  exact List.append_ne_nil_of_right_ne_nil _ (List.cons_ne_nil _ _) hnil

theorem tracks_after (h : Kept now polls k) :
    Tracks (fun c seen => Candle.complete seen = some c) none (after now polls) k
      (ticksOf k polls) := by
  induction polls using List.reverseRecOn with
  | nil => exact ⟨nofun, fun _ => Or.inl ⟨rfl, rfl⟩⟩
  | append_singleton polls e ih =>
    obtain ⟨p, clock⟩ := e
    rw [after_snoc, ticksOf_append]
    apply Tracks.turn
    by_cases htick : ∀ t, p = .tick t → t.window ≠ k
    · rw [ticksOf_singleton_of_ne htick, List.append_nil]
      exact (ih h.of_append).receive_of_ne htick
    · push Not at htick
      obtain ⟨t, rfl, rfl⟩ := htick
      rw [ticksOf_singleton]
      apply Tracks.receive
      intro c hc
      rw [Candle.complete_snoc, ← hc, Aggregator.candles_take]
      cases hk : (after now polls).candles t.window with
      | none => rw [h.candles_eq_none hk]; rfl
      | some c => rw [(ih h.of_append).memory c hk]

theorem latest_run (h : Kept now polls k) :
    latest k (run now polls) = Candle.complete (ticksOf k polls) := by
  rcases (tracks_after h).latest_upsert with ⟨hnil, hrow⟩ | ⟨c, hrow, hc⟩
  · rw [hnil]
    exact hrow
  · exact hrow.trans hc.symm

/-! ## A window opened anew -/

def volume (ticks : List Tick) : ℚ := (ticks.map Tick.volume).sum

theorem volume_append (seen later : List Tick) :
    volume (seen ++ later) = volume seen + volume later := by
  simp [volume]

theorem volume_nonneg (h : ∀ t ∈ seen, 0 < t.volume) : 0 ≤ volume seen :=
  List.sum_nonneg (by simpa using fun t ht => (h t ht).le)

theorem volume_pos (h : ∀ t ∈ seen, 0 < t.volume) (hne : seen ≠ []) : 0 < volume seen := by
  obtain ⟨t, later, rfl⟩ := List.exists_cons_of_ne_nil hne
  have htail : 0 ≤ volume later := volume_nonneg fun t' ht' => h t' (List.mem_cons_of_mem _ ht')
  have hhead := h t List.mem_cons_self
  simp only [volume, List.map_cons, List.sum_cons] at htail ⊢
  exact add_pos_of_pos_of_nonneg hhead htail

theorem Candle.volume_complete {c : Candle} (h : Candle.complete seen = some c) :
    c.volume = Streaming.volume seen := by
  cases seen with
  | nil => cases h
  | cons t later =>
    obtain rfl := Option.some.inj h
    rfl

/-- After an eviction only the later ticks count. -/
theorem tracks_after_evicts (hev : (after now pre).Evicts e k)
    (hpos : ∀ t ∈ ticksOf k post, 0 < t.volume) :
    Tracks (fun c later => c.volume ≤ volume later)
      (latest k ((after now pre).turn e).rows) (after now (pre ++ e :: post)) k
      (ticksOf k post) := by
  induction post using List.reverseRecOn with
  | nil =>
    rw [after_snoc]
    refine ⟨?_, fun _ => Or.inl ⟨rfl, rfl⟩⟩
    intro c hc
    rw [Aggregator.candles_turn_of_evicts hev] at hc
    cases hc
  | append_singleton post e' ih =>
    obtain ⟨p, clock⟩ := e'
    rw [ticksOf_append] at hpos
    have ih := ih fun t ht => hpos t (List.mem_append_left _ ht)
    rw [← List.cons_append, ← List.append_assoc, after_snoc, ticksOf_append]
    apply Tracks.turn
    by_cases htick : ∀ t, p = .tick t → t.window ≠ k
    · rw [ticksOf_singleton_of_ne htick, List.append_nil]
      exact ih.receive_of_ne htick
    · push Not at htick
      obtain ⟨t, rfl, rfl⟩ := htick
      rw [ticksOf_singleton]
      apply Tracks.receive
      intro c hc
      rw [Aggregator.candles_take] at hc
      obtain rfl := Option.some.inj hc
      rw [volume_append]
      have ht : volume [t] = t.volume := by simp [volume]
      rw [ht]
      cases hk : (after now (pre ++ e :: post)).candles t.window with
      | none =>
        have hlater := volume_nonneg fun t' ht' => hpos t' (List.mem_append_left _ ht')
        simpa [Candle.ofTick] using hlater
      | some c => simpa [Candle.add] using ih.memory c hk

/-- With positive volumes a window that is not kept ends with less than its volume. -/
theorem kept_of_complete (hpos : ∀ t ∈ ticksOf k polls, 0 < t.volume)
    (h : latest k (run now polls) = Candle.complete (ticksOf k polls)) : Kept now polls k := by
  rintro pre e post rfl hne hev
  by_contra hpost
  have hsplit : ticksOf k (pre ++ e :: post) = ticksOf k (pre ++ [e]) ++ ticksOf k post := by
    rw [← ticksOf_append, List.append_assoc, List.singleton_append]
  rw [hsplit] at h hpos
  have hfirst := volume_pos (fun t ht => hpos t (List.mem_append_left _ ht)) hne
  have htracks := tracks_after_evicts hev fun t ht => hpos t (List.mem_append_right _ ht)
  rcases htracks.latest_upsert with ⟨hnil, -⟩ | ⟨c, hrow, hc⟩
  · exact hpost hnil
  · have hvolume := Candle.volume_complete (h.symm.trans hrow)
    rw [volume_append] at hvolume
    linarith

/-- With positive volumes, the row of a window is complete exactly when the window was kept. -/
theorem complete_iff_kept (hpos : ∀ t ∈ ticksOf k polls, 0 < t.volume) :
    latest k (run now polls) = Candle.complete (ticksOf k polls) ↔ Kept now polls k :=
  ⟨kept_of_complete hpos, latest_run⟩

/-- After the last flush every window that was kept has the candle of all its ticks: its first,
highest, lowest and last price, and their volume. -/
theorem candles_complete (now : ℚ) (polls : List (Polled × ℚ)) :
    ∀ k, Kept now polls k → latest k (run now polls) = Candle.complete (ticksOf k polls) :=
  fun _ h => latest_run h

section Demo

def demoTick (symbol : String) (minute second : ℤ) (price volume : ℚ) : Tick :=
  ⟨symbol, price, volume, minute * 60000000 + second * 1000000⟩

theorem kept_iff_forall : Kept now polls k ↔ ∀ i : Fin polls.length,
    ticksOf k (polls.take (i + 1)) ≠ [] → (after now (polls.take i)).Evicts (polls.get i) k →
      ticksOf k (polls.drop (i + 1)) = [] := by
  constructor
  · intro h i hne hev
    refine h (polls.take i) (polls.get i) (polls.drop (i + 1)) ?_ ?_ hev
    · exact (List.take_append_drop i polls).symm.trans (by rw [List.drop_eq_getElem_cons i.2]; rfl)
    · rwa [List.get_eq_getElem, List.take_append_getElem]
  · rintro h pre e post rfl hne hev
    have htake : (pre ++ e :: post).take (pre.length + 1) = pre ++ [e] := by simp [List.take_append]
    have hdrop : (pre ++ e :: post).drop (pre.length + 1) = post := by simp [List.drop_append]
    have hi := h ⟨pre.length, by simp⟩
    simp only [htake, hdrop, List.take_left, List.get_eq_getElem] at hi
    exact hi hne (by simpa using hev)

theorem kept_of_forall_ticks (h : ∀ t ∈ ticks polls, Kept now polls t.window) (k : Window) :
    Kept now polls k := by
  by_cases hk : ∃ t ∈ ticks polls, t.window = k
  · obtain ⟨t, ht, rfl⟩ := hk
    exact h t ht
  · rintro pre e post rfl - -
    refine List.filter_eq_nil_iff.mpr fun t ht hwindow => hk ⟨t, ?_, of_decide_eq_true hwindow⟩
    have happ : pre ++ e :: post = (pre ++ [e]) ++ post := by simp
    rw [happ, ticks, List.filterMap_append]
    exact List.mem_append_right _ ht

instance : Decidable (s.Evicts e k) := inferInstanceAs (Decidable (_ ∧ _))

instance : Decidable (Kept now polls k) := decidable_of_iff _ kept_iff_forall.symm

/-- Two minutes of a symbol over four flushes, a tick late but before the watermark, a symbol two
minutes ahead, and turns without a tick. -/
def demoPolls : List (Polled × ℚ) :=
  [(.tick (demoTick "KRW-BTC" 0 10 100 1), 1), (.nothing, 2),
    (.tick (demoTick "KRW-BTC" 0 40 120 2), 3), (.bad, 4), (.tick (demoTick "KRW-BTC" 1 5 110 1), 5),
    (.tick (demoTick "KRW-BTC" 0 55 90 3), 6), (.tick (demoTick "KRW-ETH" 3 0 5 1), 7),
    (.tick (demoTick "KRW-BTC" 1 50 105 2), 9), (.nothing, 12)]

theorem candles_complete_demo :
    latest ("KRW-BTC", 0) (run 0 demoPolls) = some ⟨100, 120, 90, 90, 6⟩ ∧
      latest ("KRW-BTC", 1) (run 0 demoPolls) = some ⟨110, 110, 105, 105, 3⟩ :=
  ⟨(candles_complete 0 demoPolls ("KRW-BTC", 0) (by decide +kernel)).trans (by decide +kernel),
    (candles_complete 0 demoPolls ("KRW-BTC", 1) (by decide +kernel)).trans (by decide +kernel)⟩

/-- A symbol three minutes ahead moves the watermark past a window of another one. -/
def latePolls : List (Polled × ℚ) :=
  [(.tick (demoTick "KRW-BTC" 0 10 100 1), 1), (.tick (demoTick "KRW-ETH" 3 0 5 1), 2),
    (.tick (demoTick "KRW-BTC" 0 50 90 2), 3)]

/-- The late tick of an evicted window opens it anew, and its row replaces the first one. -/
theorem late_tick_replaces :
    ((ticks latePolls).Pairwise fun a b => a.symbol = b.symbol → a.tradeTs ≤ b.tradeTs) ∧
      latest ("KRW-BTC", 0) (run 0 latePolls) = some ⟨90, 90, 90, 90, 2⟩ ∧
      Candle.complete (ticksOf ("KRW-BTC", 0) latePolls) = some ⟨100, 100, 90, 90, 3⟩ ∧
      latest ("KRW-BTC", 0) (run 0 latePolls) ≠
        Candle.complete (ticksOf ("KRW-BTC", 0) latePolls) := by
  decide +kernel

end Demo

end QuantTrader.Streaming
