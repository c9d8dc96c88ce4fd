import Mathlib.Data.List.ReduceOption
import QuantTrader.Streaming.Completeness
import QuantTrader.Streaming.Restart

/-! # Candles across restarts

Offsets are committed for ticks whose window is still open, and an open window
lives in memory only. A window whose ticks no restart parts keeps the candle of
all its ticks; a parted one ends with the candle of the later ticks.
-/

namespace QuantTrader.Streaming

open ClickHouse Transition

variable {topic : List Message} {k : Window} {s : Aggregator} {resumed committed : ℕ} {rows : Rows}
  {seen : List Tick} {now clock : ℚ} {got : Bool} {written : Window → Bool}

def windowTicks (k : Window) (ms : List Message) : List Tick :=
  ms.reduceOption.filter fun t => t.window = k

theorem windowTicks_append (k : Window) (ms ms' : List Message) :
    windowTicks k (ms ++ ms') = windowTicks k ms ++ windowTicks k ms' := by
  simp [windowTicks, List.reduceOption_append]

theorem windowTicks_take_drop (k : Window) (topic : List Message) (n : ℕ) :
    windowTicks k topic = windowTicks k (topic.take n) ++ windowTicks k (topic.drop n) := by
  rw [← windowTicks_append, List.take_append_drop]

theorem windowTicks_drop_of_le {m n : ℕ} (h : m ≤ n) (hnil : windowTicks k (topic.drop m) = []) :
    windowTicks k (topic.drop n) = [] := by
  obtain ⟨d, rfl⟩ := Nat.exists_eq_add_of_le h
  rw [windowTicks_take_drop k (topic.drop m) d, List.append_eq_nil_iff, List.drop_drop] at hnil
  exact hnil.2

theorem windowTicks_take_succ {n : ℕ} {m : Message} (h : topic[n]? = some m) (k : Window) :
    windowTicks k (topic.take (n + 1)) = windowTicks k (topic.take n) ++ windowTicks k [m] := by
  rw [List.take_add_one, h, Option.toList_some, windowTicks_append]

/-- The trade times of the partition do not decrease. -/
def InOrder (topic : List Message) : Prop :=
  topic.reduceOption.Pairwise fun a b => a.tradeTs ≤ b.tradeTs

instance (topic : List Message) : Decidable (InOrder topic) :=
  inferInstanceAs (Decidable (List.Pairwise _ _))

/-! ## What is durable -/

/-- Once every tick of a window is before the committed offset, its row is complete. -/
def Saved (topic : List Message) (k : Window) (committed : ℕ) (rows : Rows) : Prop :=
  windowTicks k (topic.drop committed) = [] →
    latest k rows = Candle.complete (windowTicks k topic)

/-- A later tick than the window has come. -/
def Passed (topic : List Message) (k : Window) (position : ℕ) : Prop :=
  ∃ t ∈ (topic.take position).reduceOption, k.2 < t.window.2

/-- The process started after the last tick of the window and has not touched it. -/
structure Untouched (topic : List Message) (k : Window) (resumed : ℕ) (s : Aggregator) : Prop where
  none_left : windowTicks k (topic.drop resumed) = []
  memory : s.candles k = none
  clean : k ∉ s.dirty

/-- The process started before the first tick of the window: it knows all of them. -/
structure Follows (topic : List Message) (k : Window) (resumed : ℕ) (s : Aggregator) : Prop where
  none_before : windowTicks k (topic.take resumed) = []
  tracks : ∃ r, (windowTicks k topic = [] → r = none) ∧
    Tracks (fun c seen => Candle.complete seen = some c) r s k
      (windowTicks k (topic.take s.position))
  evicted : s.candles k = none →
    windowTicks k (topic.take s.position) = [] ∨ Passed topic k s.position

/-- What a running process keeps for a window. -/
structure Running (topic : List Message) (k : Window) (resumed : ℕ) (s : Aggregator) : Prop where
  saved : Saved topic k s.committed s.rows
  resumed_le : resumed ≤ s.committed
  committed_le : s.committed ≤ s.position
  seen_max : ∀ m, s.maxWindow = some m → ∃ t ∈ (topic.take s.position).reduceOption, t.window.2 = m
  state : Untouched topic k resumed s ∨ Follows topic k resumed s

/-! ## Inserts and commits -/

theorem Saved.of_le {m n : ℕ} (h : Saved topic k n rows) (hle : m ≤ n) : Saved topic k m rows :=
  fun hnil => h (windowTicks_drop_of_le hle hnil)

namespace Running

theorem saved_upsert (h : Running topic k resumed s) : Saved topic k s.position s.upsert.rows := by
  intro hnil
  have hall : windowTicks k topic = windowTicks k (topic.take s.position) := by
    rw [windowTicks_take_drop k topic s.position, hnil, List.append_nil]
  rcases h.state with hu | hf
  · have hrow : latest k s.upsert.rows = latest k s.rows := by
      simp only [Aggregator.upsert, latest_append_batch, if_neg hu.clean]
    rw [hrow]
    exact h.saved (windowTicks_drop_of_le h.resumed_le hu.none_left)
  · obtain ⟨r, hr, ht⟩ := hf.tracks
    rw [hall]
    rcases ht.latest_upsert with ⟨hseen, hrow⟩ | ⟨c, hrow, hc⟩
    · rw [hrow, hseen, hr (hall.trans hseen)]
      rfl
    · rw [hrow, hc]

theorem saved_insertSome (h : Running topic k resumed s) (written : Window → Bool) :
    Saved topic k s.committed (s.insertSome written) := by
  intro hnil
  unfold Aggregator.insertSome
  rw [latest_append_filter_batch]
  split_ifs with hk
  · rcases h.state with hu | hf
    · exact absurd hk.1 hu.clean
    · obtain ⟨r, -, ht⟩ := hf.tracks
      obtain ⟨c, hc⟩ := Option.isSome_iff_exists.mp (s.known k hk.1)
      rw [hc, ← ht.memory c hc, windowTicks_take_drop k topic s.position,
        windowTicks_drop_of_le h.committed_le hnil, List.append_nil]
  · exact h.saved hnil

theorem insertSome (h : Running topic k resumed s) (written : Window → Bool) :
    Running topic k resumed { s with rows := s.insertSome written } where
  saved := h.saved_insertSome written
  resumed_le := h.resumed_le
  committed_le := h.committed_le
  seen_max := h.seen_max
  state := by
    rcases h.state with hu | hf
    · exact Or.inl ⟨hu.none_left, hu.memory, hu.clean⟩
    · obtain ⟨r, hr, ht⟩ := hf.tracks
      refine Or.inr ⟨hf.none_before, ⟨r, hr, ht.memory, ?_⟩, hf.evicted⟩
      intro hk
      have hrow : latest k (s.insertSome written) = latest k s.rows := by
        unfold Aggregator.insertSome
        rw [latest_append_filter_batch, if_neg fun h => hk h.1]
      rw [hrow]
      exact ht.saved hk

theorem upsert (h : Running topic k resumed s) : Running topic k resumed s.upsert where
  saved := h.saved_upsert.of_le h.committed_le
  resumed_le := h.resumed_le
  committed_le := h.committed_le
  seen_max := h.seen_max
  state := by
    rcases h.state with hu | hf
    · exact Or.inl ⟨hu.none_left, hu.memory, List.not_mem_nil⟩
    · obtain ⟨r, hr, ht⟩ := hf.tracks
      exact Or.inr ⟨hf.none_before, ⟨r, hr, ht.memory, fun _ => ht.latest_upsert⟩, hf.evicted⟩

theorem commit (h : Running topic k resumed s) (hs : Saved topic k s.position s.rows) :
    Running topic k resumed s.commit := by
  unfold Aggregator.commit
  split_ifs
  · refine ⟨hs, h.resumed_le.trans h.committed_le, le_rfl, h.seen_max, ?_⟩
    rcases h.state with hu | hf
    · exact Or.inl ⟨hu.none_left, hu.memory, hu.clean⟩
    · obtain ⟨r, hr, ht⟩ := hf.tracks
      exact Or.inr ⟨hf.none_before, ⟨r, hr, ht.memory, ht.saved⟩, hf.evicted⟩
  · exact h

theorem evict (h : Running topic k resumed s) (hd : s.dirty = []) :
    Running topic k resumed (s.evict hd) where
  saved := h.saved
  resumed_le := h.resumed_le
  committed_le := h.committed_le
  seen_max := h.seen_max
  state := by
    rcases h.state with hu | hf
    · refine Or.inl ⟨hu.none_left, ?_, hu.clean⟩
      simp [Aggregator.evict, hu.memory]
    · obtain ⟨r, hr, ht⟩ := hf.tracks
      refine Or.inr ⟨hf.none_before, ⟨r, hr, ?_, ht.saved⟩, ?_⟩
      · intro c hc
        simp only [Aggregator.evict] at hc
        split_ifs at hc
        exact ht.memory c hc
      · intro hnone
        simp only [Aggregator.evict] at hnone
        split_ifs at hnone with hpast
        · obtain ⟨m, hm, hlt⟩ := hpast
          obtain ⟨t, ht, rfl⟩ := h.seen_max m hm
          refine Or.inr ⟨t, ht, ?_⟩
          unfold watermark at hlt
          omega
        · exact hf.evicted hnone

theorem flush (h : Running topic k resumed s) (clock : ℚ) :
    Running topic k resumed (s.flush clock) := by
  have hf := ((h.upsert.commit h.saved_upsert).evict s.dirty_commit_upsert)
  refine ⟨hf.saved, hf.resumed_le, hf.committed_le, hf.seen_max, ?_⟩
  rcases hf.state with hu | hw
  · exact Or.inl ⟨hu.none_left, hu.memory, hu.clean⟩
  · obtain ⟨r, hr, ht⟩ := hw.tracks
    exact Or.inr ⟨hw.none_before, ⟨r, hr, ht.memory, ht.saved⟩, hw.evicted⟩

/-! ## Deaths and starts -/

theorem saved_finally (h : Running topic k resumed s) (last : Finally) :
    Saved topic k (last.leave s).1 (last.leave s).2 := by
  cases last with
  | killed => exact h.saved
  | insertFails written => exact h.saved_insertSome written
  | commitFails => exact h.upsert.saved
  | done => exact h.saved_upsert

theorem saved_death (h : Running topic k resumed s) (death : Death) :
    Saved topic k (death.leave s).1 (death.leave s).2 := by
  cases death with
  | killed => exact h.saved
  | killedInInsert written => exact h.saved_insertSome written
  | killedBeforeCommit => exact h.upsert.saved
  | killedAfterCommit =>
    have hc := (h.upsert.commit h.saved_upsert).saved
    have hrows : s.upsert.commit.rows = s.upsert.rows := by
      unfold Aggregator.commit
      split <;> rfl
    rwa [hrows] at hc
  | interrupted last => exact h.saved_finally last
  | insertFails written last => exact (h.insertSome written).saved_finally last
  | commitFails last => exact h.upsert.saved_finally last

/-- A restart does not part the ticks of the window. -/
theorem resume (h : Saved topic k committed rows) (now : ℚ)
    (hu : windowTicks k (topic.take committed) = [] ∨ windowTicks k (topic.drop committed) = []) :
    Running topic k committed (.resume now committed rows) where
  saved := h
  resumed_le := le_rfl
  committed_le := le_rfl
  seen_max m hm := by cases hm
  state := by
    rcases hu with hbefore | hleft
    · refine Or.inr ⟨hbefore, ⟨latest k rows, ?_, nofun, fun _ => Or.inl ⟨hbefore, rfl⟩⟩,
        fun _ => Or.inl hbefore⟩
      intro hnil
      rw [windowTicks_take_drop k topic committed, List.append_eq_nil_iff] at hnil
      rw [h hnil.2, windowTicks_take_drop k topic committed, hnil.1, hnil.2]
      rfl
    · exact Or.inl ⟨hleft, rfl, List.not_mem_nil⟩

end Running

/-! ## Messages -/

variable {m : Message} {t : Tick}

theorem reduceOption_take_succ {n : ℕ} (h : topic[n]? = some m) :
    (topic.take (n + 1)).reduceOption = (topic.take n).reduceOption ++ [m].reduceOption := by
  rw [List.take_add_one, h, Option.toList_some, List.reduceOption_append]

theorem Passed.succ {n : ℕ} (h : Passed topic k n) (hm : topic[n]? = some m) :
    Passed topic k (n + 1) := by
  obtain ⟨t, ht, hlt⟩ := h
  refine ⟨t, ?_, hlt⟩
  rw [reduceOption_take_succ hm]
  exact List.mem_append_left _ ht

theorem windowTicks_singleton_of_ne (h : ∀ t, m = some t → t.window ≠ k) :
    windowTicks k [m] = [] := by
  cases m with
  | none => rfl
  | some t => simp [windowTicks, List.reduceOption, h t rfl]

theorem windowTicks_singleton (t : Tick) : windowTicks t.window [some t] = [t] := by
  simp [windowTicks, List.reduceOption]

/-- No tick of a window comes after a tick of a later one. -/
theorem Passed.elim {n : ℕ} (ho : InOrder topic) (h : Passed topic k n)
    (ht : topic[n]? = some (some t)) : t.window ≠ k := by
  rintro rfl
  obtain ⟨t', ht', hlt⟩ := h
  have hlen : n < topic.length := (List.getElem?_eq_some_iff.mp ht).1
  have hsplit : topic.reduceOption =
      (topic.take n).reduceOption ++ (topic.drop n).reduceOption := by
    rw [← List.reduceOption_append, List.take_append_drop]
  have hmem : t ∈ (topic.drop n).reduceOption := by
    rw [List.reduceOption_mem_iff]
    exact List.mem_of_getElem? (i := 0) (by rwa [List.getElem?_drop])
  unfold InOrder at ho
  rw [hsplit, List.pairwise_append] at ho
  have hle := ho.2.2 t' ht' t hmem
  have hwindow : t'.window.2 ≤ t.window.2 := Int.ediv_le_ediv (by decide) hle
  omega

theorem seen_max_receive (h : Running topic k resumed s) (hm : topic[s.position]? = some m) :
    ∀ w, (s.receive (.ofMessage m)).maxWindow = some w →
      ∃ t ∈ (topic.take (s.position + 1)).reduceOption, t.window.2 = w := by
  intro w hw
  rw [reduceOption_take_succ hm]
  cases m with
  | none =>
    obtain ⟨t, ht, rfl⟩ := h.seen_max w hw
    exact ⟨t, List.mem_append_left _ ht, rfl⟩
  | some t =>
    have hmax : Aggregator.maxWith t.window.2 s.maxWindow = w := Option.some.inj hw
    cases hold : s.maxWindow with
    | none =>
      rw [hold] at hmax
      exact ⟨t, by simp [List.reduceOption], hmax⟩
    | some w' =>
      simp only [hold, Aggregator.maxWith] at hmax
      split_ifs at hmax
      · exact ⟨t, by simp [List.reduceOption], hmax⟩
      · obtain ⟨t', ht', rfl⟩ := h.seen_max w' hold
        exact ⟨t', List.mem_append_left _ ht', hmax⟩

namespace Running

theorem receive_of_ne (h : Running topic k resumed s) (hm : topic[s.position]? = some m)
    (hne : ∀ t, m = some t → t.window ≠ k) : Running topic k resumed (s.receive (.ofMessage m)) := by
  have hne' : ∀ t, Polled.ofMessage m = .tick t → t.window ≠ k := by
    intro t ht
    cases m with
    | none => cases ht
    | some t' => exact hne t (congrArg some (Polled.tick.inj ht))
  obtain ⟨hcandles, hdirty, hrows⟩ := Aggregator.receive_of_ne (s := s) hne'
  have hposition : (s.receive (.ofMessage m)).position = s.position + 1 := by cases m <;> rfl
  have hcommitted : (s.receive (.ofMessage m)).committed = s.committed := by cases m <;> rfl
  have hticks : windowTicks k (topic.take (s.position + 1)) =
      windowTicks k (topic.take s.position) := by
    rw [windowTicks_take_succ hm, windowTicks_singleton_of_ne hne, List.append_nil]
  refine ⟨?_, ?_, ?_, ?_, ?_⟩
  · rw [hcommitted, hrows]
    exact h.saved
  · rw [hcommitted]
    exact h.resumed_le
  · rw [hcommitted, hposition]
    exact h.committed_le.trans (Nat.le_succ _)
  · rw [hposition]
    exact seen_max_receive h hm
  · rcases h.state with hu | hf
    · refine Or.inl ⟨hu.none_left, by rw [hcandles]; exact hu.memory, ?_⟩
      rw [hdirty]
      exact hu.clean
    · obtain ⟨r, hr, ht⟩ := hf.tracks
      refine Or.inr ⟨hf.none_before, ⟨r, hr, ?_⟩, ?_⟩
      · rw [hposition, hticks]
        exact ht.receive_of_ne hne'
      · rw [hposition, hticks, hcandles]
        exact fun hnone => (hf.evicted hnone).imp_right fun hp => hp.succ hm

theorem receive_tick (h : Running topic t.window resumed s) (ho : InOrder topic)
    (hm : topic[s.position]? = some (some t)) :
    Running topic t.window resumed (s.receive (.tick t)) where
  saved := h.saved
  resumed_le := h.resumed_le
  committed_le := h.committed_le.trans (Nat.le_succ _)
  seen_max := seen_max_receive h hm
  state := by
    rcases h.state with hu | hf
    · -- the tick is at or after the start of the process
      have hmem : t ∈ windowTicks t.window (topic.drop resumed) := by
        refine List.mem_filter.mpr ⟨?_, by simp⟩
        rw [List.reduceOption_mem_iff]
        refine List.mem_of_getElem? (i := s.position - resumed) ?_
        rw [List.getElem?_drop, Nat.add_sub_cancel' (h.resumed_le.trans h.committed_le), hm]
      rw [hu.none_left] at hmem
      cases hmem
    · obtain ⟨r, hr, ht⟩ := hf.tracks
      have hcandle : (s.receive (.tick t)).candles t.window ≠ none := by
        simp [Aggregator.receive, Aggregator.take]
      refine Or.inr ⟨hf.none_before, ⟨r, hr, ?_⟩, fun hnone => absurd hnone hcandle⟩
      show Tracks _ r _ t.window (windowTicks t.window (topic.take (s.position + 1)))
      rw [windowTicks_take_succ hm, windowTicks_singleton]
      apply Tracks.receive
      intro c hc
      rw [Candle.complete_snoc, ← hc, Aggregator.candles_take]
      cases hk : s.candles t.window with
      | none =>
        have hnil := (hf.evicted hk).resolve_right fun hp => Passed.elim ho hp hm rfl
        rw [hnil]
        rfl
      | some c => rw [ht.memory c hk]

theorem receive (h : Running topic k resumed s) (ho : InOrder topic) (got : Bool) :
    Running topic k resumed (s.receive (polled topic s got)) := by
  cases got with
  | false => exact h
  | true =>
    cases hm : topic[s.position]? with
    | none => simpa [polled, hm, Aggregator.receive] using h
    | some m =>
      simp only [polled, hm, if_true]
      by_cases hk : ∀ t, m = some t → t.window ≠ k
      · exact h.receive_of_ne hm hk
      · push Not at hk
        obtain ⟨t, rfl, rfl⟩ := hk
        exact h.receive_tick ho hm

theorem turn (h : Running topic k resumed s) (ho : InOrder topic) (got : Bool) (clock : ℚ) :
    Running topic k resumed (s.turn (polled topic s got, clock)) := by
  simp only [Aggregator.turn]
  split_ifs
  · exact (h.receive ho got).flush clock
  · exact h.receive ho got

end Running

/-! ## Runs -/

/-- A restart parts the ticks of no window it does not already have all of. -/
def Unparted (topic : List Message) (k : Window) : World → Event → Prop
  | .down committed _, .start _ =>
    windowTicks k (topic.take committed) = [] ∨ windowTicks k (topic.drop committed) = []
  | _, _ => True

instance (topic : List Message) (k : Window) : ∀ w e, Decidable (Unparted topic k w e)
  | .down committed _, .start _ =>
    inferInstanceAs (Decidable (windowTicks k (topic.take committed) = [] ∨
      windowTicks k (topic.drop committed) = []))
  | .down _ _, .turn _ _ | .down _ _, .die .. | .up _ _, _ => isTrue trivial

def Inv (topic : List Message) (k : Window) : World → Prop
  | .up resumed s => Running topic k resumed s
  | .down committed rows => Saved topic k committed rows

theorem Inv.next {w : World} {e : Event} (h : Inv topic k w) (ho : InOrder topic)
    (he : Event.Enabled topic w e) (hu : Unparted topic k w e) :
    Inv topic k (Event.next topic w e) := by
  cases w with
  | up resumed s =>
    cases e with
    | start => cases he
    | turn got clock => exact Running.turn h ho got clock
    | die got clock death => exact (Running.receive h ho got).saved_death death
  | down committed rows =>
    cases e with
    | start now => exact Running.resume h now hu
    | turn => cases he
    | die => cases he

/-- A process runs that has consumed every message, and no changed window waits for a flush. -/
def Drained (topic : List Message) : World → Prop
  | .up _ s => s.position = topic.length ∧ s.dirty = []
  | .down _ _ => False

instance (topic : List Message) : DecidablePred (Drained topic)
  | .up _ s => inferInstanceAs (Decidable (s.position = topic.length ∧ s.dirty = []))
  | .down _ _ => isFalse id

theorem Running.latest_of_drained (h : Running topic k resumed s)
    (hd : Drained topic (.up resumed s)) :
    latest k s.rows = Candle.complete (windowTicks k topic) := by
  have hrows : s.upsert.rows = s.rows := by
    simp [Aggregator.upsert, hd.2, batch]
  rw [← hrows]
  exact h.saved_upsert (by rw [hd.1, List.drop_length]; rfl)

/-- In every run, whatever kills the processes, a window that no restart parts ends with the candle
of all its ticks. -/
theorem candles_survive {w : World} (ho : InOrder topic)
    (h : ((system topic).restrict (Unparted topic k)).Reaches World.init w)
    (hd : Drained topic w) : latest k w.rows = Candle.complete (windowTicks k topic) := by
  have hinv : Inv topic k w := by
    apply h.invariant
    · intro hnil
      rw [List.drop_zero] at hnil
      rw [hnil]
      rfl
    · intro w e hi he
      exact hi.next ho he.1 he.2
  cases w with
  | up resumed s => exact Running.latest_of_drained hinv hd
  | down committed rows => cases hd

section Demo

/-- A minute with one tick before the kill and a tick after it, `second` seconds past the start. -/
def demoTopic (second : ℤ) : List Message :=
  [some (demoTick "KRW-BTC" 0 10 100 1), some (demoTick "KRW-BTC" 0 second 90 2)]

/-- The first tick is flushed and committed, the process is killed, and the next one reads on. -/
def demoKill : List Event :=
  [.start 0, .turn true 5, .die false 6 .killed, .start 7, .turn true 12]

theorem candles_survive_demo :
    latest ("KRW-BTC", 0) ((system (demoTopic 70)).run World.init demoKill).rows =
      some ⟨100, 100, 100, 100, 1⟩ := by
  have hr : ((system (demoTopic 70)).restrict (Unparted (demoTopic 70) ("KRW-BTC", 0))).Reaches
      World.init ((system (demoTopic 70)).run World.init demoKill) :=
    System.Reaches.start.run (by decide +kernel)
  exact (candles_survive (by decide +kernel) hr (by decide +kernel)).trans (by decide +kernel)

/-- Both ticks fall into one minute: the row of the second process replaces the first one. -/
theorem kill_parts_window :
    InOrder (demoTopic 50) ∧ (system (demoTopic 50)).Allowed World.init demoKill ∧
    Drained (demoTopic 50) ((system (demoTopic 50)).run World.init demoKill) ∧
    latest ("KRW-BTC", 0) ((system (demoTopic 50)).run World.init demoKill).rows =
      some ⟨90, 90, 90, 90, 2⟩ ∧
    Candle.complete (windowTicks ("KRW-BTC", 0) (demoTopic 50)) = some ⟨100, 100, 90, 90, 3⟩ ∧
    ¬ ∀ (topic : List Message) (w : World) (k : Window), InOrder topic →
      (system topic).Reaches World.init w → Drained topic w →
        latest k w.rows = Candle.complete (windowTicks k topic) := by
  have hall : InOrder (demoTopic 50) ∧ (system (demoTopic 50)).Allowed World.init demoKill ∧
      Drained (demoTopic 50) ((system (demoTopic 50)).run World.init demoKill) ∧
      latest ("KRW-BTC", 0) ((system (demoTopic 50)).run World.init demoKill).rows =
        some ⟨90, 90, 90, 90, 2⟩ ∧
      Candle.complete (windowTicks ("KRW-BTC", 0) (demoTopic 50)) =
        some ⟨100, 100, 90, 90, 3⟩ := by
    decide +kernel
  obtain ⟨ho, ha, hd, hrow, hcomplete⟩ := hall
  refine ⟨ho, ha, hd, hrow, hcomplete, ?_⟩
  intro h
  have heq := h _ _ ("KRW-BTC", 0) ho (System.Reaches.start.run ha) hd
  rw [hrow, hcomplete] at heq
  exact absurd heq (by decide +kernel)

end Demo

end QuantTrader.Streaming
