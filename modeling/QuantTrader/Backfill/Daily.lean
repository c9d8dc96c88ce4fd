import Mathlib.Data.List.Sort
import QuantTrader.Backfill.GapFree

/-! # The daily candle table of a market

`backfill_daily` fetches the daily bars of each market from new to old, down to
the newest stored one or the requested number of days, and inserts them in one
batch; a market that fails is skipped. The bar of the day that is not over is
left out.
-/

namespace QuantTrader.Backfill.Daily

open Transition

/-- A row of `candles_1d`. -/
structure Row where
  symbol : String
  bar : Candle
  deriving DecidableEq

def dayMs : ℤ := 86400000

/-- `complete_until`: the start of the day, from the seconds of the clock. -/
def completeUntil (now : ℤ) : ℤ := now * 1000 / dayMs * dayMs

/-- How the turn of a market goes: the clock when its cutoff is taken, the time of its first
request, and whether the fetch and the insert go through. -/
structure Answer where
  clock : ℤ
  seen : ℤ
  stored : Bool

/-- A run of `main` over its markets. -/
structure Run where
  now : ℤ
  days : ℕ
  markets : List String
  answer : String → Answer

def barsOf (table : List Row) (market : String) : List Candle :=
  (table.filter fun r => r.symbol = market).map Row.bar

/-- `max(window_start)`, the epoch for a market without rows. -/
def since (table : List Row) (market : String) : ℤ :=
  ((barsOf table market).map Candle.ts).foldl max 0

/-- The cutoff of `fetch_daily`, raised to the newest stored bar. -/
def cutoff (r : Run) (table : List Row) (market : String) : ℤ :=
  max ((r.answer market).clock - r.days * dayMs) (since table market)

/-- `fetch_daily`: the complete bars, in ascending order. -/
def fetchDaily (api : Api) (r : Run) (table : List Row) (market : String) : List Row :=
  ((api.fetchBackward (r.answer market).seen (cutoff r table market) (completeUntil r.now)
    none).insertionSort fun a b => a.ts ≤ b.ts).map fun c => ⟨market, c⟩

def load (apis : String → Api) (r : Run) (table : List Row) (market : String) : List Row :=
  if (r.answer market).stored then table ++ fetchDaily (apis market) r table market else table

structure World where
  clock : ℤ
  table : List Row

/-- Clocks do not go back, the markets are distinct, and requests come after the day was read off
the clock. -/
def Enabled (w : World) (r : Run) : Prop :=
  w.clock ≤ r.now ∧ r.markets.Nodup ∧
    ∀ market ∈ r.markets, r.now * 1000 ≤ (r.answer market).seen

/-- The runs of the job over one table; a run that is killed has failed its last markets. -/
def backfillDaily (apis : String → Api) : System World Run where
  Enabled := Enabled
  next w r := ⟨r.now, r.markets.foldl (load apis r) w.table⟩

/-- The days asked for of a market reach back to the bars that it has. -/
def Overlaps (r : Run) (table : List Row) (market : String) : Prop :=
  barsOf table market ≠ [] → (r.answer market).clock - r.days * dayMs ≤ since table market

def InTime (w : World) (r : Run) : Prop := ∀ market ∈ r.markets, Overlaps r w.table market

instance (apis : String → Api) (w : World) (r : Run) :
    Decidable ((backfillDaily apis).Enabled w r) :=
  inferInstanceAs (Decidable (_ ∧ _ ∧ _))

instance (w : World) (r : Run) : Decidable (InTime w r) :=
  inferInstanceAs (Decidable (∀ market ∈ r.markets, _ ≠ _ → _))

section Tables

variable {apis : String → Api} {r : Run} {table : List Row} {market other : String} {w : World}
  {limit : ℤ}

theorem completeUntil_le (now : ℤ) : completeUntil now ≤ now * 1000 :=
  Int.ediv_mul_le _ (by decide)

theorem completeUntil_mono {t t' : ℤ} (h : t ≤ t') : completeUntil t ≤ completeUntil t' := by
  have hle : t * 1000 / dayMs ≤ t' * 1000 / dayMs := Int.ediv_le_ediv (by decide) (by omega)
  exact Int.mul_le_mul_of_nonneg_right hle (by decide)

theorem barsOf_append (table rows : List Row) :
    barsOf (table ++ rows) market = barsOf table market ++ barsOf rows market := by
  rw [barsOf, List.filter_append, List.map_append]
  rfl

theorem foldl_max_spec {l : List ℤ} {a : ℤ} :
    (l.foldl max a = a ∨ l.foldl max a ∈ l) ∧ a ≤ l.foldl max a ∧ ∀ x ∈ l, x ≤ l.foldl max a := by
  induction l generalizing a with
  | nil => simp
  | cons b l ih =>
    obtain ⟨hmem, hle, hall⟩ := ih (a := max a b)
    rw [List.foldl_cons]
    refine ⟨?_, by omega, List.forall_mem_cons.mpr ⟨by omega, hall⟩⟩
    rcases hmem with hmem | hmem
    · rcases max_choice a b with hm | hm
      · exact .inl (hmem.trans hm)
      · exact .inr (by rw [hmem, hm]; exact List.mem_cons_self)
    · exact .inr (List.mem_cons_of_mem _ hmem)

theorem exists_newest (h : barsOf table market ≠ []) (h0 : ∀ c ∈ barsOf table market, 0 ≤ c.ts) :
    ∃ c ∈ barsOf table market, c.ts = since table market := by
  obtain ⟨c, hc⟩ := List.exists_mem_of_ne_nil _ h
  obtain ⟨hmem, -, hall⟩ := foldl_max_spec (l := (barsOf table market).map Candle.ts) (a := 0)
  rcases hmem with hzero | hmem
  · -- the newest bar starts at the epoch
    have hle := hall c.ts (List.mem_map_of_mem hc)
    have hge := h0 c hc
    exact ⟨c, hc, by rw [since]; omega⟩
  · obtain ⟨c', hc', heq⟩ := List.mem_map.mp hmem
    exact ⟨c', hc', heq⟩

theorem barsOf_load_of_ne (hne : other ≠ market) :
    barsOf (load apis r table market) other = barsOf table other := by
  unfold load
  split_ifs
  · have hnil : barsOf (fetchDaily (apis market) r table market) other = [] := by
      simp [barsOf, fetchDaily, hne.symm]
    rw [barsOf_append, hnil, List.append_nil]
  · rfl

theorem barsOf_foldl_of_not_mem {markets : List String} (h : other ∉ markets) :
    barsOf (markets.foldl (load apis r) table) other = barsOf table other := by
  induction markets generalizing table with
  | nil => rfl
  | cons market markets ih =>
    rw [List.mem_cons, not_or] at h
    rw [List.foldl_cons, ih h.2, barsOf_load_of_ne h.1]

theorem mem_barsOf_load (hstored : (r.answer market).stored = true) {c : Candle} :
    c ∈ barsOf (load apis r table market) market ↔ c ∈ barsOf table market ++
      (apis market).fetchBackward (r.answer market).seen (cutoff r table market)
        (completeUntil r.now) none := by
  rw [load, if_pos hstored, barsOf_append, List.mem_append, List.mem_append]
  refine or_congr_right ?_
  simp [barsOf, fetchDaily, List.mem_insertionSort]

variable (table) in
theorem fetched (api : Api) (hseen : r.now * 1000 ≤ (r.answer market).seen) :
    Fetched (fun c => c ∈ api.candles ∧ c.ts < completeUntil r.now) (cutoff r table market)
      (api.fetchBackward (r.answer market).seen (cutoff r table market) (completeUntil r.now)
        none) := by
  have hle := completeUntil_le r.now
  apply Api.fetchBackward_spec.congr
  intro c
  rw [Api.mem_visible]
  constructor
  · rintro ⟨⟨hc, -⟩, hlt⟩
    exact ⟨hc, hlt⟩
  · rintro ⟨hc, hlt⟩
    exact ⟨⟨hc, by omega, nofun⟩, hlt⟩

/-- The cutoff of an overlapping run is the newest bar, or the first day asked for. -/
theorem cutoff_le_newest (h : Overlaps r table market) (hne : barsOf table market ≠ []) :
    cutoff r table market = since table market :=
  max_eq_right (h hne)

/-- A turn leaves no gap. -/
theorem solid_load (hapi : ∀ c ∈ (apis market).candles, 0 ≤ c.ts)
    (hseen : r.now * 1000 ≤ (r.answer market).seen) (hover : Overlaps r table market)
    (h : Solid (apis market) (completeUntil r.now) (barsOf table market)) :
    Solid (apis market) (completeUntil r.now) (barsOf (load apis r table market) market) := by
  by_cases hstored : (r.answer market).stored = true
  · refine Solid.of_mem_iff ?_ fun c => mem_barsOf_load hstored
    have hf := fetched table (apis market) hseen
    by_cases hne : barsOf table market = []
    · rw [hne, List.nil_append]
      exact Solid.of_top hf.top
    · obtain ⟨newest, hnew, hts⟩ := exists_newest hne fun c hc => hapi c (h.sub c hc).1
      refine h.append_newer hnew hf.top fun c hc hlt hlimit => hf.reached c ⟨hc, hlimit⟩ ?_
      rw [cutoff_le_newest hover hne, ← hts]
      exact hlt.le
  · rw [load, if_neg hstored]
    exact h

/-- The bars that a run makes sure of: from the first stored one, or from the first day asked for
of a market without rows. -/
def Covers (r : Run) (table : List Row) (market : String) (c : Candle) : Prop :=
  (∃ a ∈ barsOf table market, a.ts ≤ c.ts) ∨
    barsOf table market = [] ∧ 0 ≤ c.ts ∧ (r.answer market).clock - r.days * dayMs ≤ c.ts

/-- A turn that is stored has every complete bar from there on. -/
theorem mem_load (hapi : ∀ c ∈ (apis market).candles, 0 ≤ c.ts)
    (hseen : r.now * 1000 ≤ (r.answer market).seen) (hover : Overlaps r table market)
    (h : Solid (apis market) (completeUntil r.now) (barsOf table market))
    (hstored : (r.answer market).stored = true) {c : Candle} (hc : c ∈ (apis market).candles)
    (hlt : c.ts < completeUntil r.now) (hcov : Covers r table market c) :
    c ∈ barsOf (load apis r table market) market := by
  have hf := fetched table (apis market) hseen
  refine (mem_barsOf_load hstored).mpr (List.mem_append.mpr ?_)
  rcases hcov with ⟨a, ha, hle⟩ | ⟨hnil, h0, hfirst⟩
  · have hne := List.ne_nil_of_mem ha
    obtain ⟨newest, hnew, hts⟩ := exists_newest hne fun c hc => hapi c (h.sub c hc).1
    rcases le_or_gt c.ts newest.ts with hold | hnewer
    · exact .inl (h.convex a ha newest hnew c hc hle hold)
    · refine .inr (hf.reached c ⟨hc, hlt⟩ ?_)
      rw [cutoff_le_newest hover hne, ← hts]
      exact hnewer.le
  · refine .inr (hf.reached c ⟨hc, hlt⟩ ?_)
    rw [cutoff, since, hnil]
    exact max_le hfirst h0

theorem barsOf_load_congr {table' : List Row} (h : barsOf table market = barsOf table' market) :
    barsOf (load apis r table market) market = barsOf (load apis r table' market) market := by
  unfold load
  split_ifs
  · rw [barsOf_append, barsOf_append, h]
    simp only [fetchDaily, cutoff, since, h]
  · exact h

theorem barsOf_run (hnodup : r.markets.Nodup) (hmem : market ∈ r.markets) :
    barsOf (r.markets.foldl (load apis r) table) market =
      barsOf (load apis r table market) market := by
  obtain ⟨pre, post, hsplit⟩ := List.append_of_mem hmem
  rw [hsplit, List.nodup_middle, List.nodup_cons, List.mem_append, not_or] at hnodup
  obtain ⟨⟨hpre, hpost⟩, -⟩ := hnodup
  rw [hsplit, List.foldl_append, List.foldl_cons, barsOf_foldl_of_not_mem hpost]
  exact barsOf_load_congr (barsOf_foldl_of_not_mem hpre)

def Inv (apis : String → Api) (w : World) : Prop :=
  ∀ market, Solid (apis market) (completeUntil w.clock) (barsOf w.table market)

theorem Inv.next (hapi : ∀ market, ∀ c ∈ (apis market).candles, 0 ≤ c.ts) (h : Inv apis w)
    (he : Enabled w r) (hover : InTime w r) : Inv apis ((backfillDaily apis).next w r) := by
  obtain ⟨hclock, hnodup, hseen⟩ := he
  intro market
  have hsolid := (h market).mono (completeUntil_mono hclock)
  show Solid (apis market) (completeUntil r.now)
    (barsOf (r.markets.foldl (load apis r) w.table) market)
  by_cases hmem : market ∈ r.markets
  · rw [barsOf_run hnodup hmem]
    exact solid_load (hapi market) (hseen market hmem) (hover market hmem) hsolid
  · rw [barsOf_foldl_of_not_mem hmem]
    exact hsolid

end Tables

/-- Over every sequence of runs that overlap what they find, with any markets failing, the stored
bars of a market are complete bars of its history without a gap, and a run that stores a market
has every complete bar from the first stored one on, or of the days asked for. -/
theorem daily_table_solid {apis : String → Api} {clock : ℤ} {w : World}
    (hapi : ∀ market, ∀ c ∈ (apis market).candles, 0 ≤ c.ts)
    (h : ((backfillDaily apis).restrict InTime).Reaches ⟨clock, []⟩ w) :
    (∀ market, Solid (apis market) (completeUntil w.clock) (barsOf w.table market)) ∧
      ∀ r, Enabled w r → InTime w r → ∀ market ∈ r.markets, (r.answer market).stored = true →
        ∀ c ∈ (apis market).candles, c.ts < completeUntil r.now → Covers r w.table market c →
          c ∈ barsOf ((backfillDaily apis).next w r).table market := by
  have hstart : Inv apis ⟨clock, []⟩ := fun _ => Solid.nil
  have hinv : Inv apis w := by
    refine h.invariant hstart ?_
    rintro w r hw ⟨he, hover⟩
    exact hw.next hapi he hover
  refine ⟨hinv, ?_⟩
  rintro r ⟨hclock, hnodup, hseen⟩ hover market hmem hstored c hc hlt hcov
  have hsolid := (hinv market).mono (completeUntil_mono hclock)
  show c ∈ barsOf (r.markets.foldl (load apis r) w.table) market
  rw [barsOf_run hnodup hmem]
  exact mem_load (hapi market) (hseen market hmem) (hover market hmem) hsolid hstored hc hlt hcov

section Demo

def demoApi : Api where
  unit := 1440
  unit_pos := by decide
  candles := [⟨2 * dayMs, 3, 3, 3, 3, 1⟩, ⟨dayMs, 2, 2, 2, 2, 1⟩, ⟨0, 1, 1, 1, 1, 1⟩]
  sorted := by decide

def demoRun (day : ℤ) (stored : Bool) : Run where
  now := day * 86400 + 60
  days := 400
  markets := ["KRW-BTC"]
  answer _ := ⟨(day * 86400 + 61) * 1000, (day * 86400 + 62) * 1000, stored⟩

/-- The run of the second day failed; that of the third day has what it missed. -/
theorem daily_table_solid_demo :
    Solid demoApi (completeUntil (2 * 86400 + 60))
      (barsOf ((backfillDaily fun _ => demoApi).run ⟨0, []⟩ [demoRun 1 true, demoRun 2 false]).table
        "KRW-BTC") ∧
      ∀ c ∈ demoApi.candles, c.ts < completeUntil (3 * 86400 + 60) →
        c ∈ barsOf ((backfillDaily fun _ => demoApi).run ⟨0, []⟩
          [demoRun 1 true, demoRun 2 false, demoRun 3 true]).table "KRW-BTC" := by
  have hzero : ∀ c ∈ demoApi.candles, 0 ≤ c.ts := by decide
  have hallowed : ((backfillDaily fun _ => demoApi).restrict InTime).Allowed ⟨0, []⟩
      [demoRun 1 true, demoRun 2 false] := by
    decide +kernel
  have hnext : ((backfillDaily fun _ => demoApi).restrict InTime).Enabled
      ((backfillDaily fun _ => demoApi).run ⟨0, []⟩ [demoRun 1 true, demoRun 2 false])
      (demoRun 3 true) := by
    decide +kernel
  have hfirst : ∃ a ∈ barsOf ((backfillDaily fun _ => demoApi).run ⟨0, []⟩
      [demoRun 1 true, demoRun 2 false]).table "KRW-BTC", a.ts ≤ 0 := by
    decide +kernel
  obtain ⟨hsolid, hall⟩ := daily_table_solid (fun _ => hzero) (System.Reaches.start.run hallowed)
  refine ⟨hsolid "KRW-BTC", fun c hc hlt => ?_⟩
  obtain ⟨a, ha, hle⟩ := hfirst
  exact hall (demoRun 3 true) hnext.1 hnext.2 "KRW-BTC" List.mem_cons_self rfl c hc hlt
    (.inl ⟨a, ha, hle.trans (hzero c hc)⟩)

end Demo

end QuantTrader.Backfill.Daily
