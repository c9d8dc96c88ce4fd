import Mathlib.Data.List.MinMax
import Mathlib.Data.List.Sort
import QuantTrader.Streaming.Completeness

/-! # Daily candles

The resampler of the minute candles: every hour it inserts the daily candles of
the two days before today, each from the final minute rows of its day. A day
whose minutes are complete gets the candle of all its ticks.
-/

namespace QuantTrader.Streaming

open ClickHouse

/-- A symbol and a day. -/
abbrev Day := String × ℤ

/-- `LOOKBACK_DAYS`. -/
def lookbackDays : ℤ := 2

/-- `toStartOfDay` of a minute, as a number of days. -/
def dayOf (k : Window) : Day := (k.1, k.2 / 1440)

/-- `candles_1m FINAL`: the last row of every window. -/
def finalMinutes (rows : List (Window × Candle)) : List (Window × Candle) :=
  (rows.map Prod.fst).dedup.filterMap fun k => (latest k rows).map fun c => (k, c)

/-- `argMin(_, minute)`: the row of the first minute. -/
def argMin (rows : List (Window × Candle)) : Option (Window × Candle) :=
  rows.find? fun e => rows.all fun r => e.1.2 ≤ r.1.2

/-- `argMax(_, minute)`: the row of the last minute. -/
def argMax (rows : List (Window × Candle)) : Option (Window × Candle) :=
  rows.find? fun e => rows.all fun r => r.1.2 ≤ e.1.2

/-- The aggregates of a group: `argMin(open)`, `max(high)`, `min(low)`, `argMax(close)` over the
minutes, and `sum(volume)`. -/
def resample (rows : List (Window × Candle)) : Option Candle := do
  let first ← argMin rows
  let last ← argMax rows
  let high ← (rows.map fun e => e.2.high).max?
  let low ← (rows.map fun e => e.2.low).min?
  return ⟨first.2.opening, high, low, last.2.close, (rows.map fun e => e.2.volume).sum⟩

/-- The rows `_SQL` inserts on a day. -/
def resampled (minutes : List (Window × Candle)) (today : ℤ) : List (Day × Candle) :=
  let rows := (finalMinutes minutes).filter fun e =>
    (today - lookbackDays) * 1440 ≤ e.1.2 ∧ e.1.2 < today * 1440
  (rows.map fun e => dayOf e.1).dedup.filterMap fun d =>
    (resample (rows.filter fun e => dayOf e.1 = d)).map fun c => (d, c)

/-! ## The candle of a group -/

section Groups

variable {ts : List Tick} {rows : List (Window × Candle)} {c : Candle} {sym : String}

theorem of_argMin {e : Window × Candle} (h : argMin rows = some e) :
    e ∈ rows ∧ ∀ r ∈ rows, e.1.2 ≤ r.1.2 :=
  ⟨List.mem_of_find?_eq_some h, by simpa using List.find?_some h⟩

theorem of_argMax {e : Window × Candle} (h : argMax rows = some e) :
    e ∈ rows ∧ ∀ r ∈ rows, r.1.2 ≤ e.1.2 :=
  ⟨List.mem_of_find?_eq_some h, by simpa using List.find?_some h⟩

theorem argMin_eq_none (h : argMin rows = none) : rows = [] := by
  by_contra hne
  cases hmin : rows.argmin fun e => e.1.2 with
  | none => exact hne (List.argmin_eq_none.mp hmin)
  | some e =>
    refine List.find?_eq_none.mp h e (List.argmin_mem hmin) (List.all_eq_true.mpr fun r hr => ?_)
    exact decide_eq_true (List.le_of_mem_argmin (f := fun e => e.1.2) hr hmin)

theorem argMax_eq_none (h : argMax rows = none) : rows = [] := by
  by_contra hne
  cases hmax : rows.argmax fun e => e.1.2 with
  | none => exact hne (List.argmax_eq_none.mp hmax)
  | some e =>
    refine List.find?_eq_none.mp h e (List.argmax_mem hmax) (List.all_eq_true.mpr fun r hr => ?_)
    exact decide_eq_true (List.le_of_mem_argmax (f := fun e => e.1.2) hr hmax)

theorem complete_eq_some_iff : Candle.complete ts = some c ↔
    ts.head?.map Tick.price = some c.opening ∧ (ts.map Tick.price).max? = some c.high ∧
      (ts.map Tick.price).min? = some c.low ∧ ts.getLast?.map Tick.price = some c.close ∧
        (ts.map Tick.volume).sum = c.volume := by
  cases ts with
  | nil => simp [Candle.complete]
  | cons t later =>
    have hlast : (t :: later).getLast?.map Tick.price =
        some ((later.map Tick.price).getLastD t.price) := by
      rw [← List.getLast?_map, List.map_cons, List.getLast?_cons, List.getLastD_eq_getLast?]
    rw [hlast, List.map_cons, List.max?_cons', List.min?_cons']
    obtain ⟨o, h, l, cl, v⟩ := c
    simp [Candle.complete]

theorem sum_groups {α κ : Type*} [DecidableEq κ] (key : α → κ) (f : α → ℚ) {keys : List κ}
    (hnodup : keys.Nodup) : ∀ l : List α, (∀ a ∈ l, key a ∈ keys) →
      (keys.map fun k => ((l.filter fun a => key a = k).map f).sum).sum = (l.map f).sum
  | [], _ => by simp
  | a :: l, h => by
    obtain ⟨ha, hl⟩ := List.forall_mem_cons.mp h
    have hstep : ∀ k, (((a :: l).filter fun a => key a = k).map f).sum =
        (if k = key a then f a else 0) + ((l.filter fun a => key a = k).map f).sum := by
      intro k
      by_cases hk : key a = k
      · simp [hk]
      · simp [hk, Ne.symm hk]
    have hone : (keys.map fun k => if k = key a then f a else 0).sum = f a := by
      rw [List.sum_map_ite_eq, List.count_eq_one_of_mem hnodup ha]
      simp
    simp only [hstep, List.sum_map_add, hone, sum_groups key f hnodup l hl, List.map_cons,
      List.sum_cons]

/-- The rows of a group have the candles of its windows. -/
structure Summarises (rows : List (Window × Candle)) (ts : List Tick) : Prop where
  nodup : (rows.map Prod.fst).Nodup
  complete : ∀ k c, (k, c) ∈ rows ↔ Candle.complete (ts.filter fun t => t.window = k) = some c

theorem exists_of_complete {k : Window}
    (h : Candle.complete (ts.filter fun t => t.window = k) = some c) : ∃ t ∈ ts, t.window = k := by
  cases hts : ts.filter fun t => t.window = k with
  | nil =>
    rw [hts] at h
    cases h
  | cons t l =>
    have hmem : t ∈ ts.filter fun t => t.window = k := hts ▸ List.mem_cons_self
    simp only [List.mem_filter, decide_eq_true_eq] at hmem
    exact ⟨t, hmem.1, hmem.2⟩

namespace Summarises

theorem exists_row (h : Summarises rows ts) {t : Tick} (ht : t ∈ ts) :
    ∃ c, (t.window, c) ∈ rows := by
  have hmem : t ∈ ts.filter fun t' => t'.window = t.window := by simp [ht]
  cases hc : Candle.complete (ts.filter fun t' => t'.window = t.window) with
  | none =>
    cases hts : ts.filter fun t' => t'.window = t.window with
    | nil =>
      rw [hts] at hmem
      cases hmem
    | cons a l =>
      rw [hts] at hc
      cases hc
  | some c => exact ⟨c, (h.complete _ _).mpr hc⟩

theorem exists_tick (h : Summarises rows ts) {e : Window × Candle} (he : e ∈ rows) :
    ∃ t ∈ ts, t.window = e.1 :=
  exists_of_complete ((h.complete e.1 e.2).mp he)

theorem extremum (h : Summarises rows ts) {op : List ℚ → Option ℚ} {le : ℚ → ℚ → Prop}
    (hop : ∀ l a, op l = some a ↔ a ∈ l ∧ ∀ b ∈ l, le b a)
    (htrans : ∀ a b c, le a b → le b c → le a c) (hanti : ∀ a b, le a b → le b a → a = b)
    {f : Candle → ℚ} (hf : ∀ k c, (k, c) ∈ rows →
      op ((ts.filter fun t => t.window = k).map Tick.price) = some (f c)) :
    op (rows.map fun e => f e.2) = op (ts.map Tick.price) := by
  have hrow : ∀ e ∈ rows, f e.2 ∈ ts.map Tick.price := fun e he =>
    List.map_subset _ (List.filter_subset_self _) ((hop _ _).mp (hf e.1 e.2 he)).1
  have htick : ∀ t ∈ ts, ∃ e ∈ rows, le t.price (f e.2) := by
    intro t ht
    obtain ⟨c, hc⟩ := h.exists_row ht
    exact ⟨_, hc, ((hop _ _).mp (hf _ _ hc)).2 _ (List.mem_map_of_mem (by simp [ht]))⟩
  refine Option.ext fun a => ?_
  rw [hop, hop, List.mem_map]
  constructor
  · rintro ⟨⟨e, he, rfl⟩, hall⟩
    refine ⟨hrow e he, fun b hb => ?_⟩
    obtain ⟨t, ht, rfl⟩ := List.mem_map.mp hb
    obtain ⟨e', he', hle⟩ := htick t ht
    exact htrans _ _ _ hle (hall _ (List.mem_map_of_mem he'))
  · rintro ⟨ha, hall⟩
    obtain ⟨t, ht, rfl⟩ := List.mem_map.mp ha
    obtain ⟨e, he, hle⟩ := htick t ht
    refine ⟨⟨e, he, hanti _ _ (hall _ (hrow e he)) hle⟩, fun b hb => ?_⟩
    obtain ⟨e', he', rfl⟩ := List.mem_map.mp hb
    exact hall _ (hrow e' he')

theorem volume (h : Summarises rows ts) :
    (rows.map fun e => e.2.volume).sum = (ts.map Tick.volume).sum := by
  rw [← sum_groups Tick.window Tick.volume h.nodup ts, List.map_map]
  · refine congrArg List.sum (List.map_congr_left fun e he => ?_)
    exact (complete_eq_some_iff.mp ((h.complete e.1 e.2).mp he)).2.2.2.2.symm
  · intro t ht
    obtain ⟨c, hc⟩ := h.exists_row ht
    exact List.mem_map_of_mem hc

/-- The group of the first tick is the one of the first minute. -/
theorem opening (h : Summarises rows ts) (hsym : ∀ t ∈ ts, t.symbol = sym)
    (horder : ts.Pairwise fun a b => a.window.2 ≤ b.window.2) :
    (argMin rows).map (fun e => e.2.opening) = ts.head?.map Tick.price := by
  cases hmin : argMin rows with
  | none =>
    obtain rfl := argMin_eq_none hmin
    cases ts with
    | nil => rfl
    | cons t l =>
      obtain ⟨c, hc⟩ := h.exists_row List.mem_cons_self
      cases hc
  | some e =>
    obtain ⟨he, hall⟩ := of_argMin hmin
    obtain ⟨t', ht', hwin⟩ := h.exists_tick he
    cases ts with
    | nil => cases ht'
    | cons t l =>
      obtain ⟨c, hc⟩ := h.exists_row (t := t) List.mem_cons_self
      have hle : e.1.2 ≤ t.window.2 := hall _ hc
      have hge : t.window.2 ≤ e.1.2 := by
        rw [← hwin]
        rcases List.mem_cons.mp ht' with rfl | ht'
        · exact le_rfl
        · exact (List.pairwise_cons.mp horder).1 t' ht'
      have hkey : t.window = e.1 := by
        rw [← hwin]
        refine Prod.ext ((hsym t List.mem_cons_self).trans (hsym t' ht').symm) ?_
        rw [hwin]
        omega
      have hopen := (complete_eq_some_iff.mp ((h.complete e.1 e.2).mp he)).1
      rw [List.filter_cons_of_pos (by simpa using hkey)] at hopen
      exact hopen.symm

theorem close (h : Summarises rows ts) (hsym : ∀ t ∈ ts, t.symbol = sym)
    (horder : ts.Pairwise fun a b => a.window.2 ≤ b.window.2) :
    (argMax rows).map (fun e => e.2.close) = ts.getLast?.map Tick.price := by
  cases hmax : argMax rows with
  | none =>
    obtain rfl := argMax_eq_none hmax
    cases ts with
    | nil => rfl
    | cons t l =>
      obtain ⟨c, hc⟩ := h.exists_row List.mem_cons_self
      cases hc
  | some e =>
    obtain ⟨he, hall⟩ := of_argMax hmax
    obtain ⟨t', ht', hwin⟩ := h.exists_tick he
    rcases List.eq_nil_or_concat ts with rfl | ⟨l, t, rfl⟩
    · cases ht'
    · rw [List.concat_eq_append] at *
      have hmem : t ∈ l ++ [t] := List.mem_append_right _ List.mem_cons_self
      obtain ⟨c, hc⟩ := h.exists_row hmem
      have hge : t.window.2 ≤ e.1.2 := hall _ hc
      have hle : e.1.2 ≤ t.window.2 := by
        rw [← hwin]
        rcases List.mem_append.mp ht' with ht' | ht'
        · exact (List.pairwise_append.mp horder).2.2 t' ht' t List.mem_cons_self
        · rw [List.mem_singleton.mp ht']
      have hkey : t.window = e.1 := by
        rw [← hwin]
        refine Prod.ext ((hsym t hmem).trans (hsym t' ht').symm) ?_
        rw [hwin]
        omega
      have hclose := (complete_eq_some_iff.mp ((h.complete e.1 e.2).mp he)).2.2.2.1
      rw [List.filter_append, List.filter_cons_of_pos (by simpa using hkey), List.filter_nil,
        List.getLast?_concat] at hclose
      rw [List.getLast?_concat]
      exact hclose.symm

/-- The candle of the candles of the minutes is the candle of the ticks. -/
theorem resample (h : Summarises rows ts) (hsym : ∀ t ∈ ts, t.symbol = sym)
    (horder : ts.Pairwise fun a b => a.window.2 ≤ b.window.2) :
    Streaming.resample rows = Candle.complete ts := by
  have hhigh : (rows.map fun e => e.2.high).max? = (ts.map Tick.price).max? :=
    h.extremum (fun l a => List.max?_eq_some_iff) (fun _ _ _ => le_trans) (fun _ _ => le_antisymm)
      fun k c hc => (complete_eq_some_iff.mp ((h.complete k c).mp hc)).2.1
  have hlow : (rows.map fun e => e.2.low).min? = (ts.map Tick.price).min? :=
    h.extremum (fun l a => List.min?_eq_some_iff) (fun _ _ _ hab hbc => hbc.trans hab)
      (fun _ _ hab hba => le_antisymm hba hab)
      fun k c hc => (complete_eq_some_iff.mp ((h.complete k c).mp hc)).2.2.1
  refine Option.ext fun c => ?_
  rw [complete_eq_some_iff, ← h.opening hsym horder, ← hhigh, ← hlow, ← h.close hsym horder,
    ← h.volume]
  obtain ⟨o, hi, lo, cl, v⟩ := c
  simp only [Streaming.resample, Option.bind_eq_bind, Option.bind_eq_some_iff,
    Option.map_eq_some_iff, Option.pure_def, Option.some.injEq, Candle.mk.injEq]
  constructor
  · rintro ⟨first, hfirst, last, hlast, hi', hhi, lo', hlo, rfl, rfl, rfl, rfl, rfl⟩
    exact ⟨⟨first, hfirst, rfl⟩, hhi, hlo, ⟨last, hlast, rfl⟩, rfl⟩
  · rintro ⟨⟨first, hfirst, rfl⟩, hhi, hlo, ⟨last, hlast, rfl⟩, rfl⟩
    exact ⟨first, hfirst, last, hlast, hi, hhi, lo, hlo, rfl, rfl, rfl, rfl, rfl⟩

end Summarises

end Groups

/-! ## The rows of a resample -/

section Tables

variable {rows : List (Window × Candle)} {k : Window} {c : Candle} {d : Day} {today : ℤ}

theorem mem_finalMinutes : (k, c) ∈ finalMinutes rows ↔ latest k rows = some c := by
  simp only [finalMinutes, List.mem_filterMap, Option.map_eq_some_iff, Prod.mk.injEq]
  constructor
  · rintro ⟨_, -, _, h, rfl, rfl⟩
    exact h
  · intro h
    exact ⟨k, List.mem_dedup.mpr (List.mem_map.mpr ⟨_, mem_of_latest h, rfl⟩), c, h, rfl, rfl⟩

theorem nodup_finalMinutes : ((finalMinutes rows).map Prod.fst).Nodup := by
  have hfst : (finalMinutes rows).map Prod.fst =
      (rows.map Prod.fst).dedup.filter fun k => (latest k rows).isSome := by
    unfold finalMinutes
    induction (rows.map Prod.fst).dedup with
    | nil => rfl
    | cons k keys ih => cases hk : latest k rows <;> simp [hk, ih]
  rw [hfst]
  exact (List.nodup_dedup _).filter _

theorem latest_filterMap {κ α : Type*} [DecidableEq κ] (f : κ → Option α) (k : κ) :
    ∀ keys : List κ, latest k (keys.filterMap fun k => (f k).map fun a => (k, a)) =
      if k ∈ keys then f k else none
  | [] => rfl
  | a :: keys => by
    have ih := latest_filterMap f k keys
    cases ha : f a with
    | none =>
      rw [List.filterMap_cons_none (by rw [ha]; rfl), ih]
      rcases eq_or_ne k a with rfl | hne
      · simp [ha]
      · simp [hne]
    | some v =>
      rw [List.filterMap_cons_some (by rw [ha]; rfl), latest_cons, ih]
      rcases eq_or_ne k a with rfl | hne
      · by_cases hk : k ∈ keys <;> simp [hk, ha]
      · simp [hne, hne.symm]

def minutesOf (rows : List (Window × Candle)) (d : Day) : List (Window × Candle) :=
  (finalMinutes rows).filter fun e => dayOf e.1 = d

/-- A resample writes the days of its range, each from its final minute rows. -/
theorem latest_resampled : latest d (resampled rows today) =
    if today - lookbackDays ≤ d.2 ∧ d.2 < today then resample (minutesOf rows d) else none := by
  have hgroup : ∀ p : Window × Candle → Bool, (∀ e, dayOf e.1 = d → p e = true) →
      ((finalMinutes rows).filter p).filter (fun e => dayOf e.1 = d) = minutesOf rows d := by
    intro p hp
    rw [List.filter_filter, minutesOf]
    refine List.filter_congr fun e _ => ?_
    by_cases he : dayOf e.1 = d <;> simp [he, hp]
  rw [resampled, latest_filterMap]
  by_cases hrange : today - lookbackDays ≤ d.2 ∧ d.2 < today
  · have hrows := hgroup (fun e =>
        (today - lookbackDays) * 1440 ≤ e.1.2 ∧ e.1.2 < today * 1440) <| by
      rintro e rfl
      simp only [dayOf, lookbackDays] at hrange ⊢
      exact decide_eq_true (by omega)
    rw [if_pos hrange]
    split_ifs with hmem
    · rw [hrows]
    · have hnil : minutesOf rows d = [] := by
        rw [← hrows, List.filter_eq_nil_iff]
        intro e he hd
        exact hmem (List.mem_dedup.mpr (List.mem_map.mpr ⟨e, he, of_decide_eq_true hd⟩))
      rw [hnil]
      rfl
  · rw [if_neg hrange, if_neg]
    intro hmem
    obtain ⟨e, he, rfl⟩ := List.mem_map.mp (List.mem_dedup.mp hmem)
    have hwhere := of_decide_eq_true (List.mem_filter.mp he).2
    simp only [dayOf, lookbackDays] at hrange hwhere
    omega

end Tables

/-! ## The resampler beside the aggregator -/

/-- A poll of the aggregator, a resample on a day, or rows another program loads. -/
inductive Feed
  | poll (e : Polled × ℚ)
  | resample (today : ℤ)
  | load (rows : List (Day × Candle))

/-- The aggregator with its minute rows, and the rows of `candles_1d`. -/
structure Store where
  aggregator : Aggregator
  daily : List (Day × Candle)

namespace Store

def step (s : Store) : Feed → Store
  | .poll e => { s with aggregator := s.aggregator.turn e }
  | .resample today => { s with daily := s.daily ++ resampled s.aggregator.rows today }
  | .load rows => { s with daily := s.daily ++ rows }

def run (s : Store) (feeds : List Feed) : Store := feeds.foldl step s

end Store

def Feed.poll? : Feed → Option (Polled × ℚ)
  | .poll e => some e
  | _ => none

def polls (feeds : List Feed) : List (Polled × ℚ) := feeds.filterMap Feed.poll?

def MinuteOrder (a b : Tick) : Prop := a.window.2 ≤ b.window.2

instance : DecidableRel MinuteOrder := fun a b => inferInstanceAs (Decidable (a.window.2 ≤ b.window.2))

instance : Std.Total MinuteOrder := ⟨fun a b => le_total a.window.2 b.window.2⟩

instance : IsTrans Tick MinuteOrder := ⟨fun _ _ _ => le_trans⟩

/-- The ticks of a day by their minutes, those of a minute in the order polled. -/
def ticksOn (d : Day) (polls : List (Polled × ℚ)) : List Tick :=
  ((ticks polls).filter fun t => dayOf t.window = d).insertionSort MinuteOrder

section Runs

theorem filter_insertionSort {α : Type*} (r : α → α → Prop) [DecidableRel r] [Std.Total r]
    [IsTrans α r] {p : α → Bool} (hp : ∀ a b, p a → p b → r a b) (l : List α) :
    (l.insertionSort r).filter p = l.filter p := by
  have hpairwise : (l.filter p).Pairwise r := List.pairwise_of_forall_mem_list fun a ha b hb =>
    hp a b (List.mem_filter.mp ha).2 (List.mem_filter.mp hb).2
  have hsub := (List.sublist_insertionSort hpairwise List.filter_sublist).filter p
  simp only [List.filter_filter, Bool.and_self] at hsub
  exact (hsub.eq_of_length ((List.perm_insertionSort r l).filter p).length_eq.symm).symm

variable {polled : List (Polled × ℚ)}

theorem inOrder_ticksOn (d : Day) (polled : List (Polled × ℚ)) :
    (ticksOn d polled).Pairwise fun a b => a.window.2 ≤ b.window.2 :=
  List.pairwise_insertionSort MinuteOrder _

theorem dayOf_of_mem_ticksOn {d : Day} {t : Tick} (ht : t ∈ ticksOn d polled) :
    dayOf t.window = d :=
  of_decide_eq_true (List.mem_filter.mp ((List.mem_insertionSort _).mp ht)).2

theorem filter_ticksOn {d : Day} {k : Window} (hk : dayOf k = d) :
    ((ticksOn d polled).filter fun t => t.window = k) = ticksOf k polled := by
  rw [ticksOn, filter_insertionSort, List.filter_filter, ticksOf]
  · refine List.filter_congr fun t _ => ?_
    by_cases ht : t.window = k
    · simp [ht, hk]
    · simp [ht]
  · intro a b ha hb
    rw [MinuteOrder, of_decide_eq_true ha, of_decide_eq_true hb]

@[simp] theorem Aggregator.dirty_flush (s : Aggregator) (clock : ℚ) : (s.flush clock).dirty = [] :=
  s.dirty_commit_upsert

variable {s : Store} {k : Window} {d : Day} {now : ℚ} {today : ℤ} {daily : List (Day × Candle)}
  {pre post : List Feed} {feed : Feed} {ts : List Tick}

theorem aggregator_run (feeds : List Feed) :
    (s.run feeds).aggregator = (polls feeds).foldl Aggregator.turn s.aggregator := by
  induction feeds generalizing s with
  | nil => rfl
  | cons feed feeds ih =>
    rw [Store.run, List.foldl_cons, ← Store.run, ih]
    cases feed <;> rfl

/-- A finished day: nothing of it is to be written, and its rows are those of its ticks. -/
structure Finished (d : Day) (ts : List Tick) (s : Store) : Prop where
  flushed : ∀ k, dayOf k = d → k ∉ s.aggregator.dirty
  minutes : ∀ k, dayOf k = d → latest k s.aggregator.rows =
    Candle.complete (ts.filter fun t => t.window = k)

theorem Finished.summarises (h : Finished d ts s) (hday : ∀ t ∈ ts, dayOf t.window = d) :
    Summarises (minutesOf s.aggregator.rows d) ts where
  nodup := nodup_finalMinutes.sublist (List.filter_sublist.map _)
  complete k c := by
    rw [minutesOf, List.mem_filter, mem_finalMinutes, decide_eq_true_eq]
    constructor
    · rintro ⟨hlatest, hk⟩
      exact (h.minutes k hk).symm.trans hlatest
    · intro hc
      obtain ⟨t, ht, rfl⟩ := exists_of_complete hc
      have hk := hday t ht
      exact ⟨(h.minutes _ hk).trans hc, hk⟩

theorem Finished.resample (h : Finished d ts s) (hday : ∀ t ∈ ts, dayOf t.window = d)
    (horder : ts.Pairwise fun a b => a.window.2 ≤ b.window.2) :
    Streaming.resample (minutesOf s.aggregator.rows d) = Candle.complete ts :=
  (h.summarises hday).resample (fun t ht => congrArg Prod.fst (hday t ht)) horder

/-- No tick of the day, and no row of it loaded. -/
def Feed.Quiet (d : Day) : Feed → Prop
  | .poll e => ∀ t, e.1 = .tick t → dayOf t.window ≠ d
  | .resample _ => True
  | .load rows => ∀ c, (d, c) ∉ rows

theorem Finished.step (h : Finished d ts s) (hq : feed.Quiet d) : Finished d ts (s.step feed) := by
  cases feed with
  | resample today => exact ⟨h.flushed, h.minutes⟩
  | load rows => exact ⟨h.flushed, h.minutes⟩
  | poll e =>
    have hne : ∀ k, dayOf k = d → ∀ t, e.1 = .tick t → t.window ≠ k := by
      rintro k hk t ht rfl
      exact hq t ht hk
    simp only [Store.step, Aggregator.turn]
    split_ifs with hdue
    · constructor
      · intro k _ hk
        rw [Aggregator.dirty_flush] at hk
        cases hk
      · intro k hk
        obtain ⟨-, hdirty, hrows⟩ := Aggregator.receive_of_ne (s := s.aggregator) (hne k hk)
        rw [Aggregator.rows_flush, latest_append_batch, if_neg, hrows]
        · exact h.minutes k hk
        · rw [hdirty]
          exact h.flushed k hk
    · constructor
      · intro k hk
        rw [(Aggregator.receive_of_ne (hne k hk)).2.1]
        exact h.flushed k hk
      · intro k hk
        rw [(Aggregator.receive_of_ne (hne k hk)).2.2]
        exact h.minutes k hk

theorem Finished.latest_step (h : Finished d ts s) (hday : ∀ t ∈ ts, dayOf t.window = d)
    (horder : ts.Pairwise fun a b => a.window.2 ≤ b.window.2)
    (hlatest : latest d s.daily = Candle.complete ts) (hq : feed.Quiet d) :
    latest d (s.step feed).daily = Candle.complete ts := by
  cases feed with
  | poll e => exact hlatest
  | load rows =>
    rw [Store.step, latest_append, latest_eq_none hq]
    exact hlatest
  | resample today =>
    rw [Store.step, latest_append, latest_resampled, h.resample hday horder, hlatest]
    split_ifs
    · exact Option.or_self
    · exact Option.none_or

theorem Finished.latest_run {feeds : List Feed} (h : Finished d ts s)
    (hday : ∀ t ∈ ts, dayOf t.window = d)
    (horder : ts.Pairwise fun a b => a.window.2 ≤ b.window.2)
    (hlatest : latest d s.daily = Candle.complete ts) (hq : ∀ feed ∈ feeds, feed.Quiet d) :
    latest d (s.run feeds).daily = Candle.complete ts := by
  induction feeds generalizing s with
  | nil => exact hlatest
  | cons feed feeds ih =>
    obtain ⟨hfeed, hfeeds⟩ := List.forall_mem_cons.mp hq
    exact ih (h.step hfeed) (h.latest_step hday horder hlatest hfeed) hfeeds

/-- A day whose windows were all kept and flushed is finished. -/
theorem finished_of_kept (hkept : ∀ k, dayOf k = d → Kept now (polls pre) k)
    (hflushed : ∀ k, dayOf k = d → k ∉ (after now (polls pre)).dirty) :
    Finished d (ticksOn d (polls pre)) ((⟨.start now, daily⟩ : Store).run pre) := by
  have hrun : ((⟨.start now, daily⟩ : Store).run pre).aggregator = after now (polls pre) :=
    aggregator_run pre
  constructor
  · rw [hrun]
    exact hflushed
  · intro k hk
    rw [hrun, filter_ticksOn hk]
    rcases (tracks_after (hkept k hk)).saved (hflushed k hk) with ⟨hnil, hrow⟩ | ⟨c, hrow, hc⟩
    · rw [hnil]
      exact hrow
    · exact hrow.trans hc.symm

end Runs

/-- Whatever is interleaved, a resample on one of the two days after a day whose minutes were all
flushed and kept leaves the candle of all the day's ticks. It stays until another tick of the day is
polled or a row of it is loaded. -/
theorem daily_candle_complete {now : ℚ} {daily : List (Day × Candle)} {pre post : List Feed}
    {today : ℤ} {d : Day} (hrange : today - lookbackDays ≤ d.2 ∧ d.2 < today)
    (hkept : ∀ k, dayOf k = d → Kept now (polls pre) k)
    (hflushed : ∀ k, dayOf k = d → k ∉ (after now (polls pre)).dirty)
    (hticks : ticksOn d (polls pre) ≠ []) (hquiet : ∀ feed ∈ post, feed.Quiet d) :
    latest d ((⟨.start now, daily⟩ : Store).run (pre ++ .resample today :: post)).daily =
      Candle.complete (ticksOn d (polls pre)) := by
  have hday : ∀ t ∈ ticksOn d (polls pre), dayOf t.window = d := fun t => dayOf_of_mem_ticksOn
  have horder := inOrder_ticksOn d (polls pre)
  have hfin : Finished d (ticksOn d (polls pre)) ((⟨.start now, daily⟩ : Store).run pre) :=
    finished_of_kept hkept hflushed
  obtain ⟨t, later, hts⟩ := List.exists_cons_of_ne_nil hticks
  rw [Store.run, List.foldl_append, List.foldl_cons, ← Store.run, ← Store.run]
  have hnow : (Feed.resample today).Quiet d := trivial
  refine (hfin.step hnow).latest_run hday horder ?_ hquiet
  rw [Store.step, latest_append, latest_resampled, if_pos hrange, hfin.resample hday horder, hts]
  exact Option.some_or

section Demo

/-- Three minutes of a day. The tick of the first one comes after that of the second, another
program loads a wrong row of the day, and the last minute is flushed with a tick of the next day. -/
def demoDay : List Feed :=
  [.poll (.tick (demoTick "KRW-BTC" 1 5 110 1), 1), .poll (.tick (demoTick "KRW-BTC" 0 59 100 2), 2),
    .load [(("KRW-BTC", 0), ⟨1, 1, 1, 1, 1⟩)], .poll (.tick (demoTick "KRW-BTC" 1 50 120 1), 3),
    .poll (.tick (demoTick "KRW-BTC" 1439 50 90 2), 5),
    .poll (.tick (demoTick "KRW-BTC" 1440 0 95 1), 8)]

/-- The resampler runs twice more, and the next day and another symbol go on. -/
def demoNextDay : List Feed :=
  [.poll (.tick (demoTick "KRW-BTC" 1441 0 96 1), 9), .resample 1,
    .load [(("KRW-BTC", 1), ⟨1, 1, 1, 1, 1⟩)], .poll (.tick (demoTick "KRW-ETH" 0 0 5 1), 12),
    .resample 2]

theorem daily_candle_complete_demo :
    latest ("KRW-BTC", 0) ((⟨.start 0, []⟩ : Store).run
      (demoDay ++ .resample 1 :: demoNextDay)).daily = some ⟨100, 120, 90, 90, 6⟩ := by
  have hdirty : (after 0 (polls demoDay)).dirty = [] := by decide +kernel
  have hquiet : ∀ feed ∈ demoNextDay, feed.Quiet ("KRW-BTC", 0) := by
    simp only [demoNextDay, List.forall_mem_cons]
    refine ⟨?_, trivial, ?_, ?_, trivial, List.forall_mem_nil _⟩
    · rintro t ⟨⟩
      decide
    · simp [Feed.Quiet]
    · rintro t ⟨⟩
      decide
  have hkept := kept_of_forall_ticks (show ∀ t ∈ ticks (polls demoDay),
    Kept 0 (polls demoDay) t.window by decide +kernel)
  refine (daily_candle_complete (by decide) (fun k _ => hkept k) ?_ (by decide +kernel)
    hquiet).trans (by decide +kernel)
  intro k _
  rw [hdirty]
  exact List.not_mem_nil

end Demo

end QuantTrader.Streaming
