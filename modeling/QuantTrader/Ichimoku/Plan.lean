import Mathlib.Data.List.Sort
import Mathlib.Data.Prod.Lex
import Mathlib.Data.String.Basic
import QuantTrader.PaperLedger.Fill

/-! # The weekly ichimoku plan

`plan_trades` sells a holding whose signal exits, is gone or is stale, and fills
the free slots with the strongest breakouts. Every budget is a slot's share of
the equity, cut to the cash that the sales and the earlier buys leave.
-/

namespace QuantTrader.Ichimoku

open PaperLedger Rebalance Transition
open Backtest (stockSellTaxRate)

/-- What the plan reads of a `latest_signal`. -/
structure LatestSignal where
  close : Option ℚ
  entry : Bool
  exit : Bool
  breakoutPct : ℚ
  deriving DecidableEq

/-- A planned trade: symbol, shares and price. -/
structure Trade where
  symbol : String
  qty : ℤ
  px : ℚ
  deriving DecidableEq

/-- What `plan_trades` returns. -/
structure TradePlan where
  sells : List Trade
  buys : List Trade
  keep : List (String × ℤ)
  targets : List String
  deriving DecidableEq

/-- `STALE_HOLD_DAYS`. -/
def staleHoldDays : ℤ := 14

/-- `_BUY_COST`. -/
def buyCost : ℚ := 1 + feeRate

/-- `_SELL_KEEP`. -/
def sellKeep : ℚ := 1 - (feeRate + stockSellTaxRate)

/-- The inputs of `plan_trades`, the cash apart: dates are day numbers. -/
structure Inputs where
  signals : List (String × LatestSignal)
  held : List (String × ℤ)
  closes : String → Option ℚ
  lastBar : String → Option ℤ
  today : ℤ
  maxPositions : ℤ

namespace Inputs

variable (c : Context) (i : Inputs)

/-- `_px`: the last close, or else the close of the signal. -/
def px (sym : String) (sig : Option LatestSignal) : Option ℚ :=
  match (i.closes sym).filter (0 < ·) with
  | some p => some p
  | none => sig.bind fun s => s.close.filter (· ≠ 0)

/-- No bar for longer than a holding may go without one. -/
def stale (sym : String) : Bool :=
  match i.lastBar sym with
  | none => true
  | some d => staleHoldDays < i.today - d

/-- The price a holding is sold at, if it is to be sold and has one. -/
def salePx (sym : String) : Option ℚ :=
  let sig := i.signals.lookup sym
  if sig.all (·.exit) || i.stale sym then i.px sym sig else none

def sells : List Trade := i.held.filterMap fun e => (i.salePx e.1).map fun p => ⟨e.1, e.2, p⟩

def keep : List (String × ℤ) := i.held.filter fun e => (i.salePx e.1).isNone

def proceeds (t : Trade) : Except Signal ℚ := do
  c.finish ((← c.finish (t.qty * t.px)) * sellKeep)

/-- `avail`: the cash with the proceeds of the sales. -/
def avail (cash : ℚ) : Except Signal ℚ := do
  let total ← i.sells.foldlM (fun acc t => do c.finish (acc + (← proceeds c t))) 0
  c.finish (cash + total)

/-- `kept_val`: the holdings kept, at their closes. -/
def keptVal : Except Signal ℚ :=
  i.keep.foldlM (fun acc e => do
    c.finish (acc + (← c.finish (e.2 * (i.closes e.1).getD 0)))) 0

/-- `cands`: the entries that are neither kept nor sold, by strength and symbol. -/
def cands : List (String × LatestSignal) :=
  (i.signals.filter fun e => e.2.entry && (i.keep.lookup e.1).isNone &&
    (i.sells.all fun t => t.symbol != e.1)).insertionSort fun a b =>
      toLex (-a.2.breakoutPct, a.1) ≤ toLex (-b.2.breakoutPct, b.1)

/-- The loop over the candidates, from the cash that remains and the buys so far. -/
def fillSlots (free : ℤ) (perName : ℚ) :
    ℚ → List Trade → List (String × LatestSignal) → Except Signal (List Trade)
  | _, buys, [] => return buys
  | remaining, buys, (sym, sig) :: rest =>
    if free ≤ buys.length then return buys
    else match i.px sym (some sig) with
      | none => fillSlots free perName remaining buys rest
      | some p => do
        let budget := min perName remaining
        let qty := Context.truncate (← c.divFin budget (← c.finish (p * buyCost)))
        if qty < 1 then fillSlots free perName remaining buys rest
        else do
          let spent ← c.finish ((← c.finish (qty * p)) * buyCost)
          fillSlots free perName (← c.finish (remaining - spent)) (buys ++ [⟨sym, qty, p⟩]) rest

/-- `plan_trades`. -/
def planTrades (cash : ℚ) : Except Signal TradePlan := do
  let avail ← i.avail c cash
  let equity ← c.finish (avail + (← i.keptVal c))
  let perName ← c.divFin equity (max 1 i.maxPositions : ℤ)
  let free := i.maxPositions - i.keep.length
  let buys ← i.fillSlots c free perName avail [] i.cands
  return ⟨i.sells, buys, i.keep, i.cands.map Prod.fst⟩

end Inputs

/-! ## Whole prices and shares -/

/-- A positive price in whole won. -/
def WholeWon (p : ℚ) : Prop := ∃ n : ℤ, 0 < n ∧ p = n

theorem wholeWon_iff {p : ℚ} : WholeWon p ↔ 0 < p.num ∧ p.den = 1 := by
  constructor
  · rintro ⟨n, hn, rfl⟩
    exact ⟨by rwa [Rat.num_intCast], Rat.den_intCast n⟩
  · rintro ⟨hpos, hden⟩
    exact ⟨p.num, hpos, (Rat.coe_int_num_of_den_eq_one hden).symm⟩

instance : DecidablePred WholeWon := fun _ => decidable_of_iff _ wholeWon_iff.symm

/-- The closes and the closes of the signals are in whole won. -/
structure Inputs.WholePrices (i : Inputs) : Prop where
  closes : ∀ sym p, i.closes sym = some p → WholeWon p
  signals : ∀ e ∈ i.signals, ∀ p, e.2.close = some p → WholeWon p

namespace Trade

def earned (t : Trade) : ℚ := t.px * t.qty * (1 - sellRate)

def cost (t : Trade) : ℚ := t.px * t.qty * (1 + feeRate)

/-- A trade of shares at a price in whole won. -/
structure Whole (t : Trade) : Prop where
  px : WholeWon t.px
  qty : 0 ≤ t.qty

end Trade

/-- The cash covers the exact costs of the buys in their order. -/
def Affords : ℚ → List Trade → Prop
  | _, [] => True
  | r, t :: ts => t.cost ≤ r ∧ Affords (r - t.cost) ts

/-- The buys of the loop from the cash that remains: a candidate is passed over or bought. -/
inductive Bought (c : Context) (i : Inputs) (perName : ℚ) :
    ℚ → List (String × LatestSignal) → List Trade → Prop
  | stop {r : ℚ} {cands : List (String × LatestSignal)} : Bought c i perName r cands []
  | skip {r : ℚ} {e : String × LatestSignal} {cands : List (String × LatestSignal)}
      {ts : List Trade} : Bought c i perName r cands ts → Bought c i perName r (e :: cands) ts
  | buy {r p u z v spent r' : ℚ} {sym : String} {sig : LatestSignal}
      {cands : List (String × LatestSignal)} {ts : List Trade} : i.px sym (some sig) = some p →
      c.finish (p * buyCost) = .ok u → c.divFin (min perName r) u = .ok z →
      1 ≤ Context.truncate z → c.finish (Context.truncate z * p) = .ok v →
      c.finish (v * buyCost) = .ok spent → c.finish (r - spent) = .ok r' →
      Bought c i perName r' cands ts →
      Bought c i perName r ((sym, sig) :: cands) (⟨sym, Context.truncate z, p⟩ :: ts)

section Planning

variable {c : Context} {i : Inputs} {ε r u z cash perName : ℚ} {free : ℤ} {t : Trade}
  {ts buys all : List Trade} {cands : List (String × LatestSignal)} {p : TradePlan}
  {sym : String} {sig : LatestSignal} {q : ℤ} {o : Option LatestSignal} {x : ℚ}

theorem Trade.Whole.value_nonneg (h : t.Whole) : 0 ≤ t.px * t.qty := by
  obtain ⟨n, hn, hpx⟩ := h.px
  have hq : (0 : ℚ) ≤ t.qty := by exact_mod_cast h.qty
  have hn' : (0 : ℚ) ≤ n := by exact_mod_cast hn.le
  rw [hpx]
  exact mul_nonneg hn' hq

theorem Trade.Whole.earned_nonneg (h : t.Whole) : 0 ≤ t.earned :=
  mul_nonneg h.value_nonneg (by norm_num [sellRate, feeRate, stockSellTaxRate])

theorem Trade.Whole.cost_nonneg (h : t.Whole) : 0 ≤ t.cost :=
  mul_nonneg h.value_nonneg (by norm_num [feeRate])

theorem Trade.Whole.onGrid_earned (h : t.Whole) : OnGrid (Postgres.unit 4) t.earned := by
  obtain ⟨n, -, hpx⟩ := h.px
  rw [Trade.earned, hpx]
  exact onGrid_proceeds n t.qty

theorem Trade.Whole.onGrid_cost (h : t.Whole) : OnGrid (Postgres.unit 4) t.cost := by
  obtain ⟨n, -, hpx⟩ := h.px
  rw [Trade.cost, hpx]
  exact PaperLedger.onGrid_cost n t.qty

theorem px_whole (hi : i.WholePrices) (ho : ∀ s, o = some s → (sym, s) ∈ i.signals)
    (h : i.px sym o = some x) : WholeWon x := by
  unfold Inputs.px at h
  split at h
  · rename_i p hp
    obtain rfl := Option.some.inj h
    exact hi.closes sym p (Option.eq_some_of_filter_eq_some hp)
  · obtain ⟨s, hs, hx⟩ := Option.bind_eq_some_iff.mp h
    exact hi.signals _ (ho s hs) x (Option.eq_some_of_filter_eq_some hx)

theorem mem_sells : t ∈ i.sells ↔ (t.symbol, t.qty) ∈ i.held ∧ i.salePx t.symbol = some t.px := by
  simp only [Inputs.sells, List.mem_filterMap, Option.map_eq_some_iff]
  constructor
  · rintro ⟨e, he, p, hp, rfl⟩
    exact ⟨he, hp⟩
  · rintro ⟨he, hp⟩
    exact ⟨_, he, _, hp, rfl⟩

theorem sells_whole (hi : i.WholePrices) (hheld : ∀ e ∈ i.held, 0 ≤ e.2) (ht : t ∈ i.sells) :
    t.Whole := by
  obtain ⟨he, hp⟩ := mem_sells.mp ht
  refine ⟨?_, hheld _ he⟩
  simp only [Inputs.salePx] at hp
  split_ifs at hp
  refine px_whole hi ?_ hp
  intro s hs
  obtain ⟨l₁, l₂, hl, -⟩ := List.lookup_eq_some_iff.mp hs
  rw [hl]
  exact List.mem_append_right _ List.mem_cons_self

theorem sells_nodup (h : (i.held.map Prod.fst).Nodup) : (i.sells.map Trade.symbol).Nodup := by
  rw [List.Nodup, List.pairwise_map] at h ⊢
  apply h.filterMap
  intro e e' hne t ht t' ht'
  obtain ⟨p, -, rfl⟩ := Option.map_eq_some_iff.mp ht
  obtain ⟨p', -, rfl⟩ := Option.map_eq_some_iff.mp ht'
  exact hne

theorem mem_cands {e : String × LatestSignal} : e ∈ i.cands ↔ e ∈ i.signals ∧ e.2.entry = true ∧
    e.1 ∉ i.keep.map Prod.fst ∧ e.1 ∉ i.sells.map Trade.symbol := by
  have hkeep : (i.keep.lookup e.1).isNone = true ↔ e.1 ∉ i.keep.map Prod.fst := by
    rw [Option.isNone_iff_eq_none, List.lookup_eq_none_iff, List.mem_map]
    constructor
    · rintro h ⟨k, hk, heq⟩
      simpa [heq] using h k hk
    · intro h k hk
      simpa using fun heq => h ⟨k, hk, heq.symm⟩
  have hsells : (i.sells.all fun t => t.symbol != e.1) = true ↔
      e.1 ∉ i.sells.map Trade.symbol := by
    simp [List.all_eq_true]
  rw [Inputs.cands, List.mem_insertionSort, List.mem_filter, Bool.and_eq_true, Bool.and_eq_true,
    hkeep, hsells, and_assoc]

/-! ## The loop over the candidates -/

theorem fillSlots_ok (h : i.fillSlots c free perName r buys cands = .ok all) :
    (all.length : ℤ) ≤ max free buys.length ∧
      ∃ ts, all = buys ++ ts ∧ Bought c i perName r cands ts := by
  induction cands generalizing r buys with
  | nil =>
    obtain rfl := Except.ok.inj h
    exact ⟨le_max_right _ _, [], by simp, .stop⟩
  | cons e cands ih =>
    obtain ⟨sym, sig⟩ := e
    rw [Inputs.fillSlots] at h
    split_ifs at h with hfull
    · obtain rfl := Except.ok.inj h
      exact ⟨le_max_right _ _, [], by simp, .stop⟩
    · split at h
      · obtain ⟨hlen, ts, hall, hts⟩ := ih h
        exact ⟨hlen, ts, hall, .skip hts⟩
      · rename_i p hp
        simp only [bind_ok_iff] at h
        obtain ⟨u, hu, z, hz, h⟩ := h
        split_ifs at h with hq
        · obtain ⟨hlen, ts, hall, hts⟩ := ih h
          exact ⟨hlen, ts, hall, .skip hts⟩
        · simp only [bind_ok_iff] at h
          obtain ⟨v, hv, spent, hspent, r', hr', h⟩ := h
          obtain ⟨hlen, ts, hall, hts⟩ := ih h
          refine ⟨?_, _, ?_, .buy hp hu hz (not_lt.mp hq) hv hspent hr' hts⟩
          · rw [List.length_append, List.length_singleton] at hlen
            omega
          · rw [hall, List.append_assoc, List.singleton_append]

theorem Bought.mem_cands (h : Bought c i perName r cands ts) (ht : t ∈ ts) :
    ∃ s, (t.symbol, s) ∈ cands := by
  induction h with
  | stop => cases ht
  | skip _ ih =>
    obtain ⟨s, hs⟩ := ih ht
    exact ⟨s, List.mem_cons_of_mem _ hs⟩
  | buy _ _ _ _ _ _ _ _ ih =>
    rcases List.mem_cons.mp ht with rfl | ht
    · exact ⟨_, List.mem_cons_self⟩
    · obtain ⟨s, hs⟩ := ih ht
      exact ⟨s, List.mem_cons_of_mem _ hs⟩

/-- Shares sized from a budget within the cash cost no more than the cash, at a whole price. -/
theorem sized_cost_le (hc : c.Accurate ε) {n : ℤ} (hn : 0 < n) (hr : OnGrid (Postgres.unit 4) r)
    (hlt : r < 10 ^ 16) {budget : ℚ} (hb : budget ≤ r)
    (hu : c.finish (n * buyCost) = .ok u) (hz : c.divFin budget u = .ok z)
    (hq : 1 ≤ Context.truncate z) : (n : ℚ) * Context.truncate z * (1 + feeRate) ≤ r := by
  have hn' : (0 : ℚ) < n := by exact_mod_cast hn
  have hunit : 0 < (n : ℚ) * buyCost := mul_pos hn' (by norm_num [buyCost, feeRate])
  have hu₁ := hc.le_finish hu hunit.le
  have hu0 : 0 < u := lt_of_lt_of_le (mul_pos hunit (by norm_num)) hu₁
  rw [Context.divFin, if_neg hu0.ne'] at hz
  have hqz := Context.truncate_le hq
  have hq' : (1 : ℚ) ≤ Context.truncate z := by exact_mod_cast hq
  have hquot : 0 ≤ budget / u := by
    by_contra hneg
    have := hc.quot_nonpos hz (not_le.mp hneg).le
    linarith
  have hz₁ := hc.quot_le hz hquot
  have hle : (n : ℚ) * Context.truncate z * (1 + feeRate) * (1 - 1 / 10 ^ 24) ≤
      r * (1 + 1 / 10 ^ 24) := by
    calc (n : ℚ) * Context.truncate z * (1 + feeRate) * (1 - 1 / 10 ^ 24)
        = Context.truncate z * (n * buyCost * (1 - 1 / 10 ^ 24)) := by
          rw [buyCost]
          ring
      _ ≤ Context.truncate z * u := mul_le_mul_of_nonneg_left hu₁ (by linarith)
      _ ≤ budget / u * (1 + 1 / 10 ^ 24) * u :=
          mul_le_mul_of_nonneg_right (hqz.trans hz₁) hu0.le
      _ = budget * (1 + 1 / 10 ^ 24) := by field_simp
      _ ≤ r * (1 + 1 / 10 ^ 24) := mul_le_mul_of_nonneg_right hb (by norm_num)
  -- both sides are multiples of the unit, which the relative errors do not reach
  apply OnGrid.le_of_lt_add (Postgres.unit_pos 4) (PaperLedger.onGrid_cost n _) hr
  norm_num [Postgres.unit]
  linarith

/-- The buys are of whole shares at whole prices, and the cash covers them. -/
theorem Bought.affords (hc : c.Accurate ε) (hi : i.WholePrices) (hcands : ∀ e ∈ cands, e ∈ i.signals)
    (hr : OnGrid (Postgres.unit 4) r) (h0 : 0 ≤ r) (hlt : r < 10 ^ 16)
    (h : Bought c i perName r cands ts) : (∀ t ∈ ts, t.Whole) ∧ Affords r ts := by
  induction h with
  | stop => exact ⟨nofun, trivial⟩
  | skip _ ih => exact ih (fun e he => hcands e (List.mem_cons_of_mem _ he)) hr h0 hlt
  | @buy r p u z v spent r' sym sig cands ts hp hu hz hq hv hspent hr' _ ih =>
    have hpx : WholeWon p := by
      apply px_whole hi _ hp
      intro s hs
      obtain rfl := Option.some.inj hs
      exact hcands _ List.mem_cons_self
    have hwhole : Trade.Whole ⟨sym, Context.truncate z, p⟩ := ⟨hpx, by dsimp only; omega⟩
    obtain ⟨n, hn, rfl⟩ := hpx
    have hle := sized_cost_le hc hn hr hlt (min_le_right _ _) hu hz hq
    have hval : 0 ≤ (n : ℚ) * Context.truncate z := hwhole.value_nonneg
    have habs : |(n : ℚ) * Context.truncate z| < 10 ^ 20 := by
      rw [abs_of_nonneg hval]
      norm_num [feeRate] at hle
      linarith
    -- the arithmetic of the loop is exact
    rw [mul_comm] at hv
    obtain rfl := Except.ok.inj (hv.symm.trans (finish_whole hc habs))
    obtain rfl := Except.ok.inj (hspent.symm.trans (finish_cost hc habs))
    have hcost : 0 ≤ (n : ℚ) * Context.truncate z * (1 + feeRate) := hwhole.cost_nonneg
    have hr'' := hr.sub (PaperLedger.onGrid_cost n (Context.truncate z))
    have hsub : c.finish (r - n * Context.truncate z * buyCost) =
        .ok (r - n * Context.truncate z * (1 + feeRate)) := by
      apply finish_of_onGrid hc hr''
      rw [abs_of_nonneg (by linarith)]
      linarith
    obtain rfl := Except.ok.inj (hr'.symm.trans hsub)
    obtain ⟨hts, hafford⟩ := ih (fun e he => hcands e (List.mem_cons_of_mem _ he)) hr''
      (by linarith) (by linarith)
    exact ⟨List.forall_mem_cons.mpr ⟨hwhole, hts⟩, hle, hafford⟩

/-! ## The cash of the plan -/

theorem proceeds_eq (hc : c.Accurate ε) (ht : t.Whole) (hlt : t.earned < 10 ^ 16) :
    Inputs.proceeds c t = .ok t.earned := by
  have hval := ht.value_nonneg
  obtain ⟨n, hn, hpx⟩ := ht.px
  simp only [Trade.earned, hpx] at hlt hval ⊢
  have habs : |(n : ℚ) * t.qty| < 10 ^ 20 := by
    rw [abs_of_nonneg hval]
    norm_num [sellRate, feeRate, stockSellTaxRate] at hlt
    linarith
  simp only [Inputs.proceeds, bind_ok_iff, hpx]
  refine ⟨n * t.qty, ?_, finish_proceeds hc habs⟩
  rw [mul_comm]
  exact finish_whole hc habs

theorem earned_sum_nonneg (hts : ∀ t ∈ ts, t.Whole) : 0 ≤ (ts.map Trade.earned).sum := by
  apply List.sum_nonneg
  intro x hx
  obtain ⟨t, ht, rfl⟩ := List.mem_map.mp hx
  exact (hts t ht).earned_nonneg

/-- Sums of proceeds are exact as long as they fit. -/
theorem total_proceeds (hc : c.Accurate ε) (hts : ∀ t ∈ ts, t.Whole) {acc : ℚ} (h0 : 0 ≤ acc)
    (hg : OnGrid (Postgres.unit 4) acc) (hlt : acc + (ts.map Trade.earned).sum < 10 ^ 16) :
    ts.foldlM (fun acc t => do c.finish (acc + (← Inputs.proceeds c t))) acc =
        .ok (acc + (ts.map Trade.earned).sum) ∧
      OnGrid (Postgres.unit 4) (acc + (ts.map Trade.earned).sum) := by
  induction ts generalizing acc with
  | nil =>
    rw [List.map_nil, List.sum_nil, add_zero]
    exact ⟨rfl, hg⟩
  | cons t ts ih =>
    obtain ⟨ht, hts⟩ := List.forall_mem_cons.mp hts
    have hsum := earned_sum_nonneg hts
    have hearned := ht.earned_nonneg
    rw [List.map_cons, List.sum_cons, ← add_assoc] at hlt ⊢
    have hg' := hg.add ht.onGrid_earned
    have hadd : c.finish (acc + t.earned) = .ok (acc + t.earned) := by
      apply finish_of_onGrid hc hg'
      rw [abs_of_nonneg (by linarith)]
      linarith
    obtain ⟨hfold, hgrid⟩ := ih hts (by linarith) hg' hlt
    refine ⟨?_, hgrid⟩
    rw [List.foldlM_cons, proceeds_eq hc ht (by linarith), bind_ok_iff]
    exact ⟨_, hadd, hfold⟩

/-- The cash of the plan is the balance with the exact proceeds, as long as it fits. -/
theorem avail_eq (hc : c.Accurate ε) (hts : ∀ t ∈ i.sells, t.Whole) (h0 : 0 ≤ cash)
    (hg : OnGrid (Postgres.unit 4) cash)
    (hlt : cash + (i.sells.map Trade.earned).sum < 10 ^ 16) :
    i.avail c cash = .ok (cash + (i.sells.map Trade.earned).sum) := by
  have hsum := earned_sum_nonneg hts
  obtain ⟨hfold, hgrid⟩ := total_proceeds hc hts le_rfl (.zero _) (by linarith)
  rw [zero_add] at hfold hgrid
  simp only [Inputs.avail, bind_ok_iff]
  refine ⟨_, hfold, finish_of_onGrid hc (hg.add hgrid) ?_⟩
  rw [abs_of_nonneg (by linarith)]
  linarith

/-! ## The plan -/

theorem planTrades_ok (h : i.planTrades c cash = .ok p) : ∃ avail perName,
    i.avail c cash = .ok avail ∧ p.sells = i.sells ∧ p.keep = i.keep ∧
      (p.buys.length : ℤ) ≤ max (i.maxPositions - i.keep.length) 0 ∧
      Bought c i perName avail i.cands p.buys := by
  simp only [Inputs.planTrades, bind_ok_iff] at h
  obtain ⟨avail, havail, kept, -, equity, -, perName, -, buys, hbuys, h⟩ := h
  obtain rfl := Except.ok.inj h
  obtain ⟨hlen, ts, hall, hts⟩ := fillSlots_ok hbuys
  obtain rfl : buys = ts := hall
  exact ⟨avail, perName, havail, rfl, rfl, hlen, hts⟩

end Planning

end QuantTrader.Ichimoku
