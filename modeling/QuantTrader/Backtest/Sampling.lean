import Mathlib.Data.List.TakeWhile
import QuantTrader.Backtest.Replay
import QuantTrader.Series.Drawdown

/-! # Equity sampling and drawdown

Beside a run stands the equity after every tick. The curve has one sample for each
stamp of the grid that the ticks reach, with the equity before that; the drawdown of
the engine is that of the initial cash and the equities.
-/

namespace QuantTrader.Backtest.Sampling

open Transition

/-! ## The equities of a run -/

section Traced

variable {S : Type} (cfg : ReplayConfig) (onTick : S → Tick → Script S)

/-- A tick, with its time and the equity of the book after it. -/
def tick (acc : (S × Replay) × List (ℚ × ℚ)) (t : Tick) :
    Except Failure ((S × Replay) × List (ℚ × ℚ)) := do
  let x ← Replay.tick cfg onTick acc.1 t
  let eq ← decimals (x.2.book.equity cfg.context x.2.lastPrice)
  return (x, acc.2 ++ [(t.ts, eq)])

/-- A run on a fresh account, with the equity after every tick. -/
def traced (s : S) (cash : ℚ) (ticks : List Tick) : Except Failure ((S × Replay) × List (ℚ × ℚ)) :=
  ticks.foldlM (tick cfg onTick) ((s, Replay.init cash), [])

end Traced

/-- The equity before the first tick that reaches a stamp, the initial cash at first. -/
def before (cash : ℚ) (trace : List (ℚ × ℚ)) (stamp : ℚ) : ℚ :=
  ((trace.takeWhile (·.1 < stamp)).getLast?.map Prod.snd).getD cash

/-- How many steps of the grid fit between two times. -/
def gridIndex (sec first ts : ℚ) : ℕ := ⌊(ts - first) / sec⌋.toNat

/-- The samples of the grid, up to the stamp with number `n`. -/
def grid (cash sec first : ℚ) (trace : List (ℚ × ℚ)) (n : ℕ) : List (ℚ × ℚ) :=
  (List.range (n + 1)).map fun k : ℕ => (first + k * sec, before cash trace (first + k * sec))

/-- The stamp with number `n` is the last one that the ticks reach. -/
structure LastStamp (sec first : ℚ) (trace : List (ℚ × ℚ)) (n : ℕ) : Prop where
  reached : ∃ x ∈ trace, first + n * sec ≤ x.1
  within : ∀ x ∈ trace, x.1 < first + (n + 1) * sec

section Grid

variable {cash sec first last lastEq ts stamp eq : ℚ} {trace early : List (ℚ × ℚ)} {n k : ℕ}

theorem before_snoc (h : ∃ x ∈ trace, stamp ≤ x.1) :
    before cash (trace ++ [(ts, eq)]) stamp = before cash trace stamp := by
  obtain ⟨x, hx, hle⟩ := h
  rw [before, before, List.takeWhile_append, if_neg]
  intro hall
  have htake : trace.takeWhile (·.1 < stamp) = trace :=
    (List.takeWhile_prefix _).eq_of_length hall
  have hlt := of_decide_eq_true (List.takeWhile_eq_self_iff.mp htake x hx)
  exact absurd hlt (not_lt.mpr hle)

theorem before_reached (htrace : trace = early ++ [(last, lastEq)])
    (hall : ∀ x ∈ trace, x.1 < stamp) (hts : stamp ≤ ts) :
    before cash (trace ++ [(ts, eq)]) stamp = lastEq := by
  have htake : (trace ++ [(ts, eq)]).takeWhile (·.1 < stamp) = trace := by
    rw [List.takeWhile_append_of_pos (by simpa using hall), List.takeWhile_cons_of_neg]
    · exact List.append_nil trace
    · simpa using hts
  rw [before, htake, htrace]
  simp

theorem lt_gridIndex_succ (hsec : 0 < sec) : ts < first + (gridIndex sec first ts + 1) * sec := by
  have hfloor := Int.lt_floor_add_one ((ts - first) / sec)
  have hle : (⌊(ts - first) / sec⌋ : ℚ) ≤ gridIndex sec first ts := by
    rw [gridIndex, ← Int.cast_natCast]
    exact Int.cast_le.mpr (Int.self_le_toNat _)
  rw [div_lt_iff₀ hsec] at hfloor
  have := mul_le_mul_of_nonneg_right hle hsec.le
  linarith

theorem gridIndex_stamp_le (hsec : 0 < sec) (h : 0 < gridIndex sec first ts) :
    first + gridIndex sec first ts * sec ≤ ts := by
  have hcast : (gridIndex sec first ts : ℚ) = (⌊(ts - first) / sec⌋ : ℤ) := by
    rw [gridIndex] at h ⊢
    rw [← Int.cast_natCast, Int.toNat_of_nonneg (by omega)]
  have hfloor := Int.floor_le ((ts - first) / sec)
  rw [hcast]
  rw [le_div_iff₀ hsec] at hfloor
  linarith

/-- The loop samples the stamps after `last`, up to the tick. -/
theorem sampleGrid_spec {cfg : EngineConfig} (hfl : cfg.fl = id) (hsec : 0 < cfg.equitySampleSec)
    {curve : List (ℚ × ℚ)} (hle : last + n * cfg.equitySampleSec ≤ ts ∨ n = 0)
    (hlt : ts < last + (n + 1) * cfg.equitySampleSec) :
    Engine.sampleGrid cfg ts eq (n + 1) last curve = .ok (last + n * cfg.equitySampleSec,
      curve ++ (List.range n).map fun k : ℕ => (last + (k + 1) * cfg.equitySampleSec, eq)) := by
  induction n generalizing last curve with
  | zero =>
    unfold Engine.sampleGrid
    rw [hfl, id, if_neg]
    · simp
    · push_cast at hlt
      linarith
  | succ n ih =>
    have hle : last + (n + 1) * cfg.equitySampleSec ≤ ts := by
      rcases hle with h | h
      · exact_mod_cast h
      · cases h
    have hn : 0 ≤ n * cfg.equitySampleSec := mul_nonneg n.cast_nonneg hsec.le
    unfold Engine.sampleGrid
    push_cast at hlt
    rw [hfl, id, id, if_pos (by linarith), ih (Or.inl (by linarith)) (by linarith)]
    rw [List.range_succ_eq_map, List.map_cons, List.map_map, List.append_assoc]
    congr 2
    · push_cast
      ring
    · simp only [List.singleton_append, Nat.cast_zero, zero_add, one_mul]
      congr 2
      apply List.map_congr_left
      intro k _
      simp only [Function.comp_apply, Nat.cast_succ, Prod.mk.injEq, and_true]
      ring

/-- The loop goes on from the stamp with number `n` to the last one up to the tick. -/
theorem sampleGrid_after {cfg : EngineConfig} {curve : List (ℚ × ℚ)} (hfl : cfg.fl = id)
    (heq : cfg.equitySampleSec = sec) (hsec : 0 < sec) :
    Engine.sampleGrid cfg ts eq (gridIndex sec first ts - n + 1) (first + n * sec) curve =
      .ok (first + (n + (gridIndex sec first ts - n) : ℕ) * sec,
        curve ++ (List.range (gridIndex sec first ts - n)).map fun k : ℕ =>
          (first + (n + (k + 1) : ℕ) * sec, eq)) := by
  have hlt : ts < first + (gridIndex sec first ts + 1) * sec := lt_gridIndex_succ hsec
  subst heq
  rw [sampleGrid_spec hfl hsec]
  · push_cast
    simp only [add_assoc, add_mul]
  · rcases Nat.eq_zero_or_pos (gridIndex cfg.equitySampleSec first ts - n) with h | h
    · exact Or.inr h
    · left
      have hcast : ((gridIndex cfg.equitySampleSec first ts - n : ℕ) : ℚ) =
          gridIndex cfg.equitySampleSec first ts - n := Nat.cast_sub (by omega)
      rw [hcast, sub_mul, add_add_sub_cancel]
      exact gridIndex_stamp_le hsec (by omega)
  · have hcast : (gridIndex cfg.equitySampleSec first ts : ℚ) ≤
        n + (gridIndex cfg.equitySampleSec first ts - n : ℕ) := by
      have : gridIndex cfg.equitySampleSec first ts ≤
          n + (gridIndex cfg.equitySampleSec first ts - n) := by omega
      exact_mod_cast this
    have := mul_le_mul_of_nonneg_right hcast hsec.le
    linarith

theorem LastStamp.snoc (hsec : 0 < sec) (h : LastStamp sec first trace n) :
    LastStamp sec first (trace ++ [(ts, eq)]) (n + (gridIndex sec first ts - n)) := by
  constructor
  · rcases Nat.eq_zero_or_pos (gridIndex sec first ts - n) with hz | hpos
    · obtain ⟨x, hx, hle⟩ := h.reached
      exact ⟨x, List.mem_append_left _ hx, by rwa [hz, add_zero]⟩
    · refine ⟨(ts, eq), by simp, ?_⟩
      rw [Nat.add_sub_cancel' (by omega)]
      exact gridIndex_stamp_le hsec (by omega)
  · intro x hx
    have hsum : n ≤ n + (gridIndex sec first ts - n) ∧
        gridIndex sec first ts ≤ n + (gridIndex sec first ts - n) := by omega
    rcases List.mem_append.mp hx with hx | hx
    · have := mul_le_mul_of_nonneg_right (Nat.cast_le (α := ℚ).mpr hsum.1) hsec.le
      linarith [h.within x hx]
    · rw [List.mem_singleton.mp hx]
      have := mul_le_mul_of_nonneg_right (Nat.cast_le (α := ℚ).mpr hsum.2) hsec.le
      have hlt : ts < first + (gridIndex sec first ts + 1) * sec := lt_gridIndex_succ hsec
      linarith

/-- The grid of a further tick: the new stamps carry the equity before it. -/
theorem LastStamp.grid_snoc {m : ℕ} (hsec : 0 < sec) (h : LastStamp sec first trace n)
    (htrace : trace = early ++ [(last, lastEq)]) (hts : m ≠ 0 → first + (n + m : ℕ) * sec ≤ ts) :
    grid cash sec first (trace ++ [(ts, eq)]) (n + m) =
      grid cash sec first trace n ++ (List.range m).map fun k : ℕ =>
        (first + (n + (k + 1) : ℕ) * sec, lastEq) := by
  rw [grid, grid, Nat.add_right_comm, List.range_add, List.map_append, List.map_map]
  congr 1
  · apply List.map_congr_left
    intro k hk
    obtain ⟨x, hx, hle⟩ := h.reached
    have hk : k ≤ n := Nat.lt_succ_iff.mp (List.mem_range.mp hk)
    have := mul_le_mul_of_nonneg_right (Nat.cast_le (α := ℚ).mpr hk) hsec.le
    rw [before_snoc ⟨x, hx, by linarith⟩]
  · apply List.map_congr_left
    intro k hk
    have hk : k + 1 ≤ m := List.mem_range.mp hk
    have hstamp : (n + 1 + k : ℕ) ≤ n + m := by omega
    have hle := mul_le_mul_of_nonneg_right (Nat.cast_le (α := ℚ).mpr hstamp) hsec.le
    have hge : (n + 1 : ℕ) ≤ n + 1 + k := by omega
    have hge := mul_le_mul_of_nonneg_right (Nat.cast_le (α := ℚ).mpr hge) hsec.le
    push_cast at hge
    rw [Function.comp_apply, before_reached htrace]
    · rw [Nat.add_right_comm, add_assoc]
    · intro x hx
      have := h.within x hx
      push_cast
      linarith
    · have := hts (by omega)
      linarith

end Grid

/-! ## One tick -/

section Steps

variable {S : Type} {cfg : ReplayConfig} {onTick : S → Tick → Script S} {s s' : S} {r r' : Replay}
  {t : Tick}

/-- Orders leave the samples alone. -/
structure SameCurve (e e' : Engine) : Prop where
  equityCurve : e'.equityCurve = e.equityCurve
  lastSampleTs : e'.lastSampleTs = e.lastSampleTs
  lastEq : e'.lastEq = e.lastEq

theorem SameCurve.refl (e : Engine) : SameCurve e e := ⟨rfl, rfl, rfl⟩

theorem SameCurve.trans {e e' e'' : Engine} (h : SameCurve e e') (h' : SameCurve e' e'') :
    SameCurve e e'' :=
  ⟨h'.equityCurve.trans h.equityCurve, h'.lastSampleTs.trans h.lastSampleTs,
    h'.lastEq.trans h.lastEq⟩

theorem sameCurve_buyAt {c : EngineConfig} {e e' : Engine} {symbol : String} {qty ts : ℚ}
    {price : Option ℚ} {ok : Bool} (h : e.buyAt c symbol qty ts price = .ok (e', ok)) :
    SameCurve e e' := by
  unfold Engine.buyAt at h
  cases hp : e.orderPrice symbol price with
  | none =>
    simp only [hp] at h
    obtain ⟨rfl, -⟩ := Prod.mk.inj (Except.ok.inj h)
    exact .refl e
  | some mp =>
    simp only [hp] at h
    split_ifs at h
    · obtain ⟨rfl, -⟩ := Prod.mk.inj (Except.ok.inj h)
      exact .refl e
    · obtain ⟨fp, -, h⟩ := bind_ok_iff.mp h
      obtain ⟨fee, -, h⟩ := bind_ok_iff.mp h
      obtain ⟨x, -, h⟩ := bind_ok_iff.mp h
      obtain ⟨rfl, -⟩ := Prod.mk.inj (Except.ok.inj h)
      exact ⟨rfl, rfl, rfl⟩

theorem sameCurve_sellAt {c : EngineConfig} {e e' : Engine} {symbol reason : String} {qty ts : ℚ}
    {price : Option ℚ} {ok : Bool} (h : e.sellAt c symbol qty reason ts price = .ok (e', ok)) :
    SameCurve e e' := by
  unfold Engine.sellAt at h
  cases hp : e.orderPrice symbol price with
  | none =>
    simp only [hp] at h
    obtain ⟨rfl, -⟩ := Prod.mk.inj (Except.ok.inj h)
    exact .refl e
  | some mp =>
    simp only [hp] at h
    split_ifs at h
    · obtain ⟨rfl, -⟩ := Prod.mk.inj (Except.ok.inj h)
      exact .refl e
    · obtain ⟨fp, -, h⟩ := bind_ok_iff.mp h
      obtain ⟨fee, -, h⟩ := bind_ok_iff.mp h
      obtain ⟨tax, -, h⟩ := bind_ok_iff.mp h
      obtain ⟨⟨account, _ | trade⟩, -, h⟩ := bind_ok_iff.mp h
      · obtain ⟨rfl, -⟩ := Prod.mk.inj (Except.ok.inj h)
        exact .refl e
      · obtain ⟨rfl, -⟩ := Prod.mk.inj (Except.ok.inj h)
        exact ⟨rfl, rfl, rfl⟩

theorem sameCurve_exec {c : EngineConfig} {script : Script S} {e e' : Engine}
    (h : script.exec c e = .ok (s, e')) : SameCurve e e' := by
  induction script generalizing e with
  | done s =>
    obtain ⟨-, rfl⟩ := Prod.mk.inj (Except.ok.inj h)
    exact .refl e
  | fail err => cases h
  | read k ih => exact ih _ h
  | equity k ih =>
    obtain ⟨eq, -, h⟩ := bind_ok_iff.mp h
    exact ih eq h
  | buy symbol qty ts price k ih =>
    obtain ⟨⟨e₁, ok⟩, hbuy, h⟩ := bind_ok_iff.mp h
    exact (sameCurve_buyAt hbuy).trans (ih ok h)
  | sell symbol qty reason ts price k ih =>
    obtain ⟨⟨e₁, ok⟩, hsell, h⟩ := bind_ok_iff.mp h
    exact (sameCurve_sellAt hsell).trans (ih ok h)

theorem decimals_ok_iff {α : Type} {x : Except Signal α} {a : α} :
    decimals x = .ok a ↔ x = .ok a := by
  cases x with
  | error e => simp [decimals]
  | ok b => simp [decimals]

theorem tick_cases (h : Replay.tick cfg onTick (s, r) t = .ok (s', r')) :
    ∃ e, Engine.begin cfg.engine
          { r.toEngine with lastPrice := Function.update r.lastPrice t.symbol (some t.price) } t =
        .ok e ∧
      r'.book.equity cfg.context r'.lastPrice = .ok r'.finalEquity ∧ r'.lastEq = r'.finalEquity ∧
      r'.peakEquity = (if r.peakEquity < r'.finalEquity then r'.finalEquity else r.peakEquity) ∧
      drawdown cfg.context r'.peakEquity r.maxDrawdown r'.finalEquity = .ok r'.maxDrawdown ∧
      ∃ last curve, r'.lastSampleTs = some last ∧ r'.equityCurve = curve ∧
        Engine.sampleGrid cfg.engine t.ts e.lastEq
          (Replay.gridSteps cfg t.ts (e.lastSampleTs.getD t.ts) + 1) (e.lastSampleTs.getD t.ts)
          e.equityCurve = .ok (last, curve) := by
  unfold Replay.tick at h
  obtain ⟨e, hbegin, h⟩ := bind_ok_iff.mp h
  obtain ⟨⟨s₁, e₁⟩, hexec, h⟩ := bind_ok_iff.mp h
  obtain ⟨eq, heq, h⟩ := bind_ok_iff.mp h
  obtain ⟨mdd, hmdd, h⟩ := bind_ok_iff.mp h
  obtain ⟨⟨last, curve⟩, hgrid, h⟩ := bind_ok_iff.mp h
  obtain ⟨rfl, rfl⟩ := Prod.mk.inj (Except.ok.inj h)
  have hsame := sameCurve_exec (decimals_ok_iff.mp hexec)
  rw [hsame.lastSampleTs, hsame.lastEq, hsame.equityCurve] at hgrid
  exact ⟨e, decimals_ok_iff.mp hbegin, decimals_ok_iff.mp heq, rfl, rfl, decimals_ok_iff.mp hmdd,
    last, curve, rfl, rfl, hgrid⟩

/-- A run so far: the curve is the grid up to the last stamp. -/
structure Sampled (cfg : ReplayConfig) (cash first : ℚ) (trace : List (ℚ × ℚ)) (r : Replay)
    (n : ℕ) : Prop where
  last : ∃ early ts, trace = early ++ [(ts, r.lastEq)]
  lastEq : r.lastEq = r.finalEquity
  stamp : LastStamp cfg.equitySampleSec first trace n
  lastSampleTs : r.lastSampleTs = some (first + n * cfg.equitySampleSec)
  curve : r.equityCurve = grid cash cfg.equitySampleSec first trace n

theorem drawdown_exact (peak mdd v : ℚ) :
    drawdown .exact peak mdd v = .ok (Series.fall peak mdd v) := by
  unfold drawdown Series.fall
  split_ifs with h
  · have hfinish : Context.exact.finish (peak - v) = .ok (peak - v) := rfl
    have hdiv : Context.exact.divFin (peak - v) peak = .ok ((peak - v) / peak) := by
      rw [Context.divFin, if_neg h.ne']
      rfl
    rw [max_def_lt, hfinish]
    change (Context.exact.divFin (peak - v) peak >>= fun dd =>
      pure (if mdd < dd then dd else mdd)) = _
    rw [hdiv]
    rfl
  · rfl

theorem peak_snoc {values : List ℚ} {peak mdd peak' mdd' v : ℚ}
    (h : Series.scanned values = (some peak, mdd)) (hpeak : peak' = if peak < v then v else peak)
    (hmdd : drawdown .exact peak' mdd v = .ok mdd') :
    Series.scanned (values ++ [v]) = (some peak', mdd') := by
  have hrise : Series.rise (some peak) v = peak' := by rw [hpeak, Series.rise, max_def_lt]
  rw [Series.scanned_snoc, h, Series.scan, hrise]
  rw [drawdown_exact] at hmdd
  rw [Except.ok.inj hmdd]

theorem gridIndex_self (sec ts : ℚ) : gridIndex sec ts ts = 0 := by
  simp [gridIndex]

theorem gridIndex_sub {sec first ts : ℚ} {n : ℕ} (hsec : 0 < sec) :
    gridIndex sec (first + n * sec) ts = gridIndex sec first ts - n := by
  have hdiv : (ts - (first + n * sec)) / sec = (ts - first) / sec - n := by
    field_simp
    ring
  rw [gridIndex, gridIndex, hdiv, Int.floor_sub_natCast]
  omega

theorem sampled_first {cash : ℚ}
    (h : Replay.tick cfg onTick (s, .init cash) t = .ok (s', r')) :
    Sampled cfg cash t.ts [(t.ts, r'.finalEquity)] r' 0 := by
  obtain ⟨e, hbegin, -, hlast, -, -, last, curve, hts, hcurve, hgrid⟩ := tick_cases h
  have hsec : 0 < cfg.equitySampleSec := cfg.sampleSec_pos
  have hspec : Engine.sampleGrid cfg.engine t.ts cash 1 t.ts [(t.ts, cash)] =
      .ok (t.ts + (0 : ℕ) * cfg.engine.equitySampleSec, [(t.ts, cash)] ++ []) :=
    sampleGrid_spec rfl hsec (Or.inr rfl) (by push_cast; exact lt_add_of_pos_right _ (by simpa))
  obtain rfl := Except.ok.inj hbegin
  have hsteps : Replay.gridSteps cfg t.ts t.ts = 0 := gridIndex_self _ _
  have hgrid : Engine.sampleGrid cfg.engine t.ts cash (Replay.gridSteps cfg t.ts t.ts + 1) t.ts
      [(t.ts, cash)] = .ok (last, curve) := hgrid
  rw [hsteps, zero_add, hspec] at hgrid
  obtain ⟨rfl, rfl⟩ := Prod.mk.inj (Except.ok.inj hgrid)
  constructor
  · exact ⟨[], t.ts, by rw [hlast, List.nil_append]⟩
  · exact hlast
  · constructor
    · exact ⟨_, List.mem_singleton_self _, by simp⟩
    · intro x hx
      rw [List.mem_singleton.mp hx]
      push_cast
      linarith
  · rw [hts]
    rfl
  · rw [hcurve]
    simp [grid, before]

theorem Sampled.step {cash first : ℚ} {trace : List (ℚ × ℚ)} {n : ℕ}
    (hs : Sampled cfg cash first trace r n)
    (h : Replay.tick cfg onTick (s, r) t = .ok (s', r')) :
    Sampled cfg cash first (trace ++ [(t.ts, r'.finalEquity)]) r'
      (n + (gridIndex cfg.equitySampleSec first t.ts - n)) := by
  obtain ⟨e, hbegin, -, hlast, -, -, last, curve, hts, hcurve, hgrid⟩ := tick_cases h
  have hbegun : Engine.begin cfg.engine
      { r.toEngine with lastPrice := Function.update r.lastPrice t.symbol (some t.price) } t =
      .ok { r.toEngine with lastPrice := Function.update r.lastPrice t.symbol (some t.price) } := by
    unfold Engine.begin
    simp only [hs.lastSampleTs]
    rfl
  obtain rfl := Except.ok.inj (hbegun.symm.trans hbegin)
  have hsec := cfg.sampleSec_pos
  have hsteps : Replay.gridSteps cfg t.ts (first + n * cfg.equitySampleSec) =
      gridIndex cfg.equitySampleSec first t.ts - n := gridIndex_sub hsec
  simp only [hs.lastSampleTs, Option.getD_some, hsteps] at hgrid
  have hgrid := hgrid.symm.trans (sampleGrid_after rfl rfl hsec)
  obtain ⟨rfl, rfl⟩ := Prod.mk.inj (Except.ok.inj hgrid)
  constructor
  · exact ⟨trace, t.ts, by rw [hlast]⟩
  · exact hlast
  · exact hs.stamp.snoc hsec
  · exact hts
  · obtain ⟨early, ts, htrace⟩ := hs.last
    rw [hcurve, hs.curve, hs.stamp.grid_snoc hsec htrace]
    intro hm
    rw [Nat.add_sub_cancel' (by omega)]
    exact gridIndex_stamp_le hsec (by omega)

theorem tick_ok_iff {x : S × Replay} {trace : List (ℚ × ℚ)} {y : (S × Replay) × List (ℚ × ℚ)} :
    tick cfg onTick (x, trace) t = .ok y ↔
      Replay.tick cfg onTick x t = .ok y.1 ∧ y.2 = trace ++ [(t.ts, y.1.2.finalEquity)] := by
  obtain ⟨s, r⟩ := x
  obtain ⟨⟨s', r'⟩, trace'⟩ := y
  unfold tick
  dsimp only
  constructor
  · intro h
    obtain ⟨⟨s₁, r₁⟩, htick, h⟩ := bind_ok_iff.mp h
    obtain ⟨eq, heq, h⟩ := bind_ok_iff.mp h
    obtain ⟨-, -, hequity, -⟩ := tick_cases htick
    obtain rfl := Except.ok.inj ((decimals_ok_iff.mp heq).symm.trans hequity)
    obtain ⟨hx, rfl⟩ := Prod.mk.inj (Except.ok.inj h)
    obtain ⟨rfl, rfl⟩ := Prod.mk.inj hx
    exact ⟨htick, rfl⟩
  · rintro ⟨htick, rfl⟩
    obtain ⟨-, -, hequity, -⟩ := tick_cases htick
    exact bind_ok_iff.mpr ⟨_, htick, bind_ok_iff.mpr ⟨_, decimals_ok_iff.mpr hequity, rfl⟩⟩

end Steps

/-! ## A run -/

section Run

variable {S : Type} {cfg : ReplayConfig} {onTick : S → Tick → Script S} {s s' : S} {r : Replay}
  {cash : ℚ} {ticks : List Tick} {trace : List (ℚ × ℚ)}

theorem traced_snoc {t : Tick} {y : (S × Replay) × List (ℚ × ℚ)} :
    traced cfg onTick s cash (ticks ++ [t]) = .ok y ↔
      ∃ x, traced cfg onTick s cash ticks = .ok x ∧ Replay.tick cfg onTick x.1 t = .ok y.1 ∧
        y.2 = x.2 ++ [(t.ts, y.1.2.finalEquity)] := by
  unfold traced
  rw [List.foldlM_append, bind_ok_iff]
  simp only [List.foldlM_cons, List.foldlM_nil, bind_pure]
  apply exists_congr
  intro x
  rw [← tick_ok_iff]

/-- The equities stand beside the run, they do not change it. -/
theorem exists_traced {x : S × Replay}
    (h : Replay.run cfg onTick s (.init cash) ticks = .ok x) :
    ∃ trace, traced cfg onTick s cash ticks = .ok (x, trace) ∧
      trace.map Prod.fst = ticks.map Tick.ts ∧
      ∀ first, ticks.head? = some first → ∃ n, Sampled cfg cash first.ts trace x.2 n := by
  induction ticks using List.reverseRecOn generalizing x with
  | nil =>
    obtain rfl := Except.ok.inj h
    exact ⟨[], rfl, rfl, nofun⟩
  | append_singleton ticks t ih =>
    rw [Replay.run, List.foldlM_append, bind_ok_iff] at h
    obtain ⟨⟨s₁, r₁⟩, hrun, h⟩ := h
    simp only [List.foldlM_cons, List.foldlM_nil, bind_pure] at h
    obtain ⟨trace, htraced, hfst, hsampled⟩ := ih hrun
    refine ⟨trace ++ [(t.ts, x.2.finalEquity)], traced_snoc.mpr ⟨_, htraced, h, rfl⟩, ?_, ?_⟩
    · rw [List.map_append, hfst, List.map_append]
      rfl
    · intro first hfirst
      cases ticks with
      | nil =>
        obtain rfl : t = first := Option.some.inj hfirst
        obtain ⟨⟨rfl, rfl⟩, rfl⟩ : (s = s₁ ∧ Replay.init cash = r₁) ∧ [] = trace := by
          simpa [traced, pure, Except.pure] using htraced
        exact ⟨0, sampled_first h⟩
      | cons t₁ ticks =>
        obtain rfl : t₁ = first := Option.some.inj hfirst
        obtain ⟨n, hs⟩ := hsampled t₁ rfl
        exact ⟨_, hs.step h⟩

theorem scanned_traced (hc : cfg.context = .exact) {x : (S × Replay) × List (ℚ × ℚ)}
    (h : traced cfg onTick s cash ticks = .ok x) :
    Series.scanned (cash :: x.2.map Prod.snd) = (some x.1.2.peakEquity, x.1.2.maxDrawdown) := by
  induction ticks using List.reverseRecOn generalizing x with
  | nil =>
    obtain rfl := Except.ok.inj h
    simp [Series.scanned, Series.scan, Series.rise, Series.fall, Replay.init]
  | append_singleton ticks t ih =>
    obtain ⟨y, htraced, htick, htrace⟩ := traced_snoc.mp h
    obtain ⟨-, -, -, -, hpeak, hmdd, -⟩ := tick_cases htick
    rw [hc] at hmdd
    rw [htrace, List.map_append, ← List.cons_append]
    exact peak_snoc (ih htraced) hpeak hmdd

theorem maxDrawdown_exact (values : List ℚ) :
    maxDrawdown .exact values = .ok (Series.mdd values) := by
  have hfold : ∀ acc, values.foldlM (drawdownStep .exact) acc =
      .ok (values.foldl Series.scan acc) := by
    induction values with
    | nil =>
      intro acc
      rfl
    | cons v values ih =>
      intro acc
      have hstep : drawdownStep .exact acc v = .ok (Series.scan acc v) := by
        obtain ⟨_ | peak, m⟩ := acc
        · unfold drawdownStep
          simp only [drawdown_exact]
          rfl
        · unfold drawdownStep
          simp only [drawdown_exact, Series.scan, Series.rise, max_def_lt]
          rfl
      rw [List.foldlM_cons, hstep]
      exact ih _
  unfold maxDrawdown
  rw [hfold]
  rfl

/-- The sample of a stamp is the equity at the position that counts the ticks before it. -/
theorem getElem?_before (stamp : ℚ) :
    (cash :: trace.map Prod.snd)[(trace.takeWhile (·.1 < stamp)).length]? =
      some (before cash trace stamp) := by
  have hlast : ∀ early later : List (ℚ × ℚ),
      (cash :: (early ++ later).map Prod.snd)[early.length]? =
        some ((early.getLast?.map Prod.snd).getD cash) := by
    intro early later
    cases early using List.reverseRecOn with
    | nil => rfl
    | append_singleton early x => simp
  have := hlast (trace.takeWhile (·.1 < stamp)) (trace.dropWhile (·.1 < stamp))
  rwa [List.takeWhile_append_dropWhile] at this

theorem grid_getElem? {sec first : ℚ} {n k : ℕ} : (grid cash sec first trace n)[k]? =
    if k ≤ n then some (first + k * sec, before cash trace (first + k * sec)) else none := by
  rw [grid, List.getElem?_map]
  split_ifs with h
  · rw [List.getElem?_range (by omega)]
    rfl
  · rw [List.getElem?_eq_none (by rw [List.length_range]; omega)]
    rfl

theorem length_takeWhile_le {a b : ℚ} (h : a ≤ b) (trace : List (ℚ × ℚ)) :
    (trace.takeWhile (·.1 < a)).length ≤ (trace.takeWhile (·.1 < b)).length := by
  have htake : (trace.takeWhile (·.1 < b)).takeWhile (·.1 < a) = trace.takeWhile (·.1 < a) := by
    rw [List.takeWhile_takeWhile]
    congr 1
    funext x
    have : x.1 < a → x.1 < b := fun hx => hx.trans_le h
    simpa using this
  rw [← htake]
  exact (List.takeWhile_prefix _).length_le

theorem Sampled.drawdown_le {first : ℚ} {n : ℕ} (hs : Sampled cfg cash first trace r n)
    (hnonneg : ∀ x ∈ r.equityCurve, 0 ≤ x.2) :
    Series.mdd (r.equityCurve.map Prod.snd) ≤ Series.mdd (cash :: trace.map Prod.snd) := by
  apply Series.mdd_le_of_read
    (p := fun k : ℕ => (trace.takeWhile (·.1 < first + k * cfg.equitySampleSec)).length)
  · intro i j hij
    have hstamps := mul_le_mul_of_nonneg_right (Nat.cast_le (α := ℚ).mpr hij) cfg.sampleSec_pos.le
    apply length_takeWhile_le
    linarith
  · intro k w hk
    rw [hs.curve, List.getElem?_map, grid_getElem?] at hk
    split_ifs at hk with hn
    · obtain rfl := Option.some.inj hk
      exact getElem?_before _
    · cases hk
  · intro w hw
    obtain ⟨x, hx, rfl⟩ := List.mem_map.mp hw
    exact hnonneg x hx

/-! ### In the order of time -/

/-- The equity after the last tick strictly before a stamp, the initial cash without one. -/
def carried (cash : ℚ) (trace : List (ℚ × ℚ)) (stamp : ℚ) : ℚ :=
  ((trace.filter (·.1 < stamp)).getLast?.map Prod.snd).getD cash

/-- In a sorted trace the ticks before a stamp come first. -/
theorem carried_eq_before (hsorted : (trace.map Prod.fst).Pairwise (· ≤ ·)) (stamp : ℚ) :
    carried cash trace stamp = before cash trace stamp := by
  have hfilter : trace.filter (·.1 < stamp) = trace.takeWhile (·.1 < stamp) := by
    induction trace with
    | nil => rfl
    | cons x trace ih =>
      rw [List.map_cons, List.pairwise_cons] at hsorted
      by_cases hx : x.1 < stamp
      · rw [List.filter_cons_of_pos (by simpa using hx),
          List.takeWhile_cons_of_pos (by simpa using hx), ih hsorted.2]
      · rw [List.takeWhile_cons_of_neg (by simpa using hx)]
        apply List.filter_eq_nil_iff.mpr
        intro y hy
        rcases List.mem_cons.mp hy with rfl | hy
        · simpa using hx
        · have := hsorted.1 y.1 (List.mem_map_of_mem hy)
          simpa using (not_lt.mp hx).trans this
  rw [carried, before, hfilter]

/-- The sample with number `k`, if its stamp is not after the last tick. -/
def sample (sec cash : ℚ) (ticks : List Tick) (trace : List (ℚ × ℚ)) (k : ℕ) : Option (ℚ × ℚ) := do
  let first ← ticks.head?
  let last ← ticks.getLast?
  guard (first.ts + k * sec ≤ last.ts)
  return (first.ts + k * sec, carried cash trace (first.ts + k * sec))

theorem LastStamp.le_iff {sec first last : ℚ} {n k : ℕ} (hsec : 0 < sec)
    (h : LastStamp sec first trace n) (hsorted : (trace.map Prod.fst).Pairwise (· ≤ ·))
    (hlast : (trace.map Prod.fst).getLast? = some last) : k ≤ n ↔ first + k * sec ≤ last := by
  obtain ⟨early, htrace⟩ := List.getLast?_eq_some_iff.mp hlast
  have hmax : ∀ x ∈ trace, x.1 ≤ last := by
    intro x hx
    have hx : x.1 ∈ early ++ [last] := htrace ▸ List.mem_map_of_mem hx
    rcases List.mem_append.mp hx with hx | hx
    · rw [htrace, List.pairwise_append] at hsorted
      exact hsorted.2.2 x.1 hx last (by simp)
    · rw [List.mem_singleton.mp hx]
  obtain ⟨y, hy, hylast⟩ : ∃ y ∈ trace, y.1 = last := by
    have : last ∈ trace.map Prod.fst := by
      rw [htrace]
      simp
    simpa using this
  constructor
  · intro hk
    obtain ⟨x, hx, hle⟩ := h.reached
    have := mul_le_mul_of_nonneg_right (Nat.cast_le (α := ℚ).mpr hk) hsec.le
    linarith [hmax x hx]
  · intro hle
    have hlt := h.within y hy
    rw [hylast] at hlt
    have hlt : (k : ℚ) * sec < (n + 1) * sec := by linarith
    have hlt := lt_of_mul_lt_mul_right hlt hsec.le
    exact Nat.lt_succ_iff.mp (by exact_mod_cast hlt)

theorem Sampled.getElem?_curve {first last : Tick} {n : ℕ}
    (hs : Sampled cfg cash first.ts trace r n)
    (hfirst : ticks.head? = some first) (hlast : ticks.getLast? = some last)
    (hfst : trace.map Prod.fst = ticks.map Tick.ts)
    (hsorted : (ticks.map Tick.ts).Pairwise (· ≤ ·)) (k : ℕ) :
    r.equityCurve[k]? = sample cfg.equitySampleSec cash ticks trace k := by
  rw [← hfst] at hsorted
  have hlastTs : (trace.map Prod.fst).getLast? = some last.ts := by
    rw [hfst, List.getLast?_map, hlast]
    rfl
  have hle : k ≤ n ↔ first.ts + k * cfg.equitySampleSec ≤ last.ts :=
    hs.stamp.le_iff cfg.sampleSec_pos hsorted hlastTs
  rw [hs.curve, grid_getElem?, sample, hfirst, hlast, ← carried_eq_before hsorted]
  by_cases hk : k ≤ n
  · rw [if_pos hk]
    simp [guard, hle.mp hk]
  · rw [if_neg hk]
    simp [guard, hle.not.mp hk]

/-- What a run reports, beside the equities after its ticks: the samples of the grid up to the
last tick, and the drawdown of the equities. A curve without a debt falls no further. -/
structure Reports (cfg : ReplayConfig) (cash : ℚ) (ticks : List Tick) (trace : List (ℚ × ℚ))
    (r : Replay) : Prop where
  stamps : trace.map Prod.fst = ticks.map Tick.ts
  curve : ∀ k, r.equityCurve[k]? = sample cfg.equitySampleSec cash ticks trace k
  drawdown : maxDrawdown .exact (cash :: trace.map Prod.snd) = .ok r.maxDrawdown
  sampled : ∃ d, maxDrawdown .exact (r.equityCurve.map Prod.snd) = .ok d ∧
    ((∀ x ∈ r.equityCurve, 0 ≤ x.2) → d ≤ r.maxDrawdown)

theorem reports_of_run (hc : cfg.context = .exact)
    (hsorted : (ticks.map Tick.ts).Pairwise (· ≤ ·))
    (h : Replay.run cfg onTick s (.init cash) ticks = .ok (s', r)) :
    ∃ trace, traced cfg onTick s cash ticks = .ok ((s', r), trace) ∧
      Reports cfg cash ticks trace r := by
  obtain ⟨trace, htraced, hfst, hsampled⟩ := exists_traced h
  have hmdd : Series.mdd (cash :: trace.map Prod.snd) = r.maxDrawdown :=
    congrArg Prod.snd (scanned_traced hc htraced)
  refine ⟨trace, htraced, hfst, ?_, by rw [maxDrawdown_exact, hmdd], _, maxDrawdown_exact _, ?_⟩
  · cases ticks with
    | nil =>
      obtain ⟨rfl, rfl⟩ := Prod.mk.inj (Except.ok.inj h)
      exact fun k => rfl
    | cons first ticks =>
      obtain ⟨n, hs⟩ := hsampled first rfl
      obtain ⟨last, hlast⟩ : ∃ last, (first :: ticks).getLast? = some last :=
        ⟨_, List.getLast?_eq_some_getLast (List.cons_ne_nil first ticks)⟩
      exact hs.getElem?_curve rfl hlast hfst hsorted
  · intro hnonneg
    rw [← hmdd]
    cases ticks with
    | nil =>
      obtain ⟨rfl, rfl⟩ := Prod.mk.inj (Except.ok.inj h)
      exact Series.mdd_nonneg _
    | cons first ticks =>
      obtain ⟨n, hs⟩ := hsampled first rfl
      exact hs.drawdown_le hnonneg

theorem tenSeconds_pos : (0 : ℚ) < 10 := by norm_num

def dear : ReplayConfig := ⟨.exact, ⟨3, 0⟩, 10, tenSeconds_pos⟩

def buyAndSell (_ : Unit) (t : Tick) : Script Unit :=
  if t.ts = 0 then .buy t.symbol 1 t.ts none fun _ => .done ()
  else if t.ts = 2 then .sell t.symbol 1 "SIGNAL" t.ts none fun _ => .done ()
  else .done ()

def spike : List Tick :=
  [⟨"KRW-BTC", 100, 0⟩, ⟨"KRW-BTC", 1000, 1⟩, ⟨"KRW-BTC", 1000, 2⟩, ⟨"KRW-BTC", 1000, 10⟩]

theorem spike_sorted : (spike.map Tick.ts).Pairwise (· ≤ ·) := by decide +kernel

/-- After the sale the account is in debt. The curve misses the peak before it and falls further
than the engine reports. -/
theorem spike_curve_falls_further : ∃ r d, Replay.run dear buyAndSell () (.init 1000) spike =
    .ok ((), r) ∧ (spike.map Tick.ts).Pairwise (· ≤ ·) ∧
    r.equityCurve = [(0, 1000), (10, -1400)] ∧
    maxDrawdown .exact (r.equityCurve.map Prod.snd) = .ok d ∧ r.maxDrawdown < d := by
  have hview : (fun x => (x.2.equityCurve, x.2.maxDrawdown)) <$>
      Replay.run dear buyAndSell () (.init 1000) spike =
        .ok ([(0, 1000), (10, -1400)], 15 / 8) := by decide +kernel
  obtain ⟨⟨⟨⟩, r⟩, hrun, hview⟩ := map_ok_iff.mp hview
  obtain ⟨hcurve, hmdd⟩ := Prod.mk.inj hview
  refine ⟨r, 12 / 5, hrun, spike_sorted, hcurve, ?_, ?_⟩
  · rw [hcurve]
    decide +kernel
  · rw [hmdd]
    norm_num

theorem reports_of_run_spike : ∃ r trace,
    traced dear buyAndSell () 1000 spike = .ok (((), r), trace) ∧
      Reports dear 1000 spike trace r := by
  have hview : (fun _ => ()) <$> Replay.run dear buyAndSell () (.init 1000) spike = .ok () := by
    decide +kernel
  obtain ⟨⟨⟨⟩, r⟩, hrun, -⟩ := map_ok_iff.mp hview
  exact ⟨r, reports_of_run rfl spike_sorted hrun⟩

end Run

end QuantTrader.Backtest.Sampling
