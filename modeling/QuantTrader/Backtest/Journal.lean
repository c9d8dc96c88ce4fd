import QuantTrader.Backtest.Conservation
import QuantTrader.Backtest.Sampling

/-! # The fills of a run

Beside a run stands, for every tick, the list of its fills. A strategy that buys only
what it does not hold and sells only all it holds keeps every position whole: of a
positive quantity that an order of it does not change.
-/

namespace QuantTrader.Backtest

open Transition
open Conservation (applyBuy_cases applySell_cases)
open Ledger (Side)

/-- An order that was filled, with what is held after it. -/
structure Filled where
  symbol : String
  side : Side
  qty : ℚ
  ts : ℚ
  left : ℚ
  deriving DecidableEq

/-- The ticks of a run, each with its fills. -/
abbrev Journal := List (Tick × List Filled)

namespace Script

variable {S : Type} (cfg : EngineConfig)

/-- A script with the engine as its broker, and its fills. -/
def execFills : Script S → Engine → Except Signal ((S × Engine) × List Filled)
  | done s, e => return ((s, e), [])
  | fail err, _ => .error err
  | read k, e => (k e.view).execFills e
  | equity k, e => do (k (← e.book.equity cfg.context e.lastPrice)).execFills e
  | buy symbol qty ts price k, e => do
    let (e, ok) ← e.buyAt cfg symbol qty ts price
    let (x, fills) ← (k ok).execFills e
    let fill := ⟨symbol, .buy, adjustQty symbol qty, ts, e.book.account.qty symbol⟩
    return (x, if ok then fill :: fills else fills)
  | sell symbol qty reason ts price k, e => do
    let (e, ok) ← e.sellAt cfg symbol qty reason ts price
    let (x, fills) ← (k ok).execFills e
    let fill := ⟨symbol, .sell, adjustQty symbol qty, ts, e.book.account.qty symbol⟩
    return (x, if ok then fill :: fills else fills)

variable {cfg}

/-- The fills stand beside a script, they do not change it. -/
theorem exec_eq (script : Script S) (e : Engine) :
    script.exec cfg e = Prod.fst <$> script.execFills cfg e := by
  induction script generalizing e with
  | done s => rfl
  | fail err => rfl
  | read k ih => exact ih _ e
  | equity k ih =>
    rw [exec, execFills]
    cases e.book.equity cfg.context e.lastPrice with
    | error err => rfl
    | ok eq => exact ih eq e
  | buy symbol qty ts price k ih =>
    rw [exec, execFills]
    cases e.buyAt cfg symbol qty ts price with
    | error err => rfl
    | ok x =>
      simp only [bind, Except.bind, ih]
      cases (k x.2).execFills cfg x.1 <;> rfl
  | sell symbol qty reason ts price k ih =>
    rw [exec, execFills]
    cases e.sellAt cfg symbol qty reason ts price with
    | error err => rfl
    | ok x =>
      simp only [bind, Except.bind, ih]
      cases (k x.2).execFills cfg x.1 <;> rfl

end Script

/-! ## Whole positions -/

namespace Account

/-- Every position is of a positive quantity that an order keeps as it is. -/
def Whole (a : Account) : Prop :=
  ∀ s p, a.positions s = some p → 0 < p.qty ∧ adjustQty s p.qty = p.qty

variable {a : Account} {s : String} {p : Position} {cash : ℚ}

theorem qty_of_some (h : a.positions s = some p) : a.qty s = p.qty := by simp [qty, h]

theorem qty_of_none (h : a.positions s = none) : a.qty s = 0 := by simp [qty, h]

theorem Whole.qty_pos_iff (hw : a.Whole) : 0 < a.qty s ↔ ∃ p, a.positions s = some p := by
  cases h : a.positions s with
  | none => simp [qty_of_none h]
  | some p => simp [qty_of_some h, (hw s p h).1]

theorem Whole.eq_none (hw : a.Whole) (h : a.qty s ≤ 0) : a.positions s = none := by
  cases hp : a.positions s with
  | none => rfl
  | some p =>
    rw [qty_of_some hp] at h
    exact absurd (hw s p hp).1 h.not_gt

theorem Whole.setPosition {r : Option Position} (hw : a.Whole)
    (hr : ∀ p, r = some p → 0 < p.qty ∧ adjustQty s p.qty = p.qty) :
    ({ a with cash }.setPosition s r).Whole := by
  rintro s' p' hp'
  rcases eq_or_ne s' s with rfl | hne
  · exact hr p' (by simpa [Account.setPosition] using hp')
  · exact hw s' p' (by simpa [Account.setPosition, hne] using hp')

end Account

theorem truncate_intCast (n : ℤ) : Context.truncate (n : ℚ) = n := by
  unfold Context.truncate
  split_ifs <;> simp

@[simp] theorem adjustQty_adjustQty (s : String) (x : ℚ) :
    adjustQty s (adjustQty s x) = adjustQty s x := by
  unfold adjustQty
  split_ifs
  · rfl
  · rw [truncate_intCast]

theorem finish_zero (c : Context) : c.finish 0 = .ok 0 := by
  unfold Context.finish
  cases c.prec with
  | none => rfl
  | some p => simp [Context.emax]

namespace Engine

variable {cfg : EngineConfig} {e e' : Engine} {s : String} {qty ts : ℚ} {price : Option ℚ}
  {ok : Bool} {reason : String}

theorem buyAt_cases (hw : e.book.account.Whole) (hflat : e.book.account.qty s ≤ 0)
    (h : e.buyAt cfg s qty ts price = .ok (e', ok)) :
    ok = false ∧ e' = e ∨
    ok = true ∧ e'.book.account.Whole ∧ e'.lastPrice = e.lastPrice ∧ ∃ p, p.entryTs = ts ∧
      p.qty = adjustQty s qty ∧ e'.book.account.positions s = some p ∧
      ∀ s', s' ≠ s → e'.book.account.positions s' = e.book.account.positions s' := by
  unfold buyAt at h
  cases hp : e.orderPrice s price with
  | none =>
    simp only [hp] at h
    obtain ⟨rfl, rfl⟩ := Prod.mk.inj (Except.ok.inj h)
    exact .inl ⟨rfl, rfl⟩
  | some mp =>
    simp only [hp] at h
    split_ifs at h with hqty
    · obtain ⟨rfl, rfl⟩ := Prod.mk.inj (Except.ok.inj h)
      exact .inl ⟨rfl, rfl⟩
    · obtain ⟨fp, -, h⟩ := bind_ok_iff.mp h
      obtain ⟨fee, -, h⟩ := bind_ok_iff.mp h
      obtain ⟨⟨account, applied⟩, happ, h⟩ := bind_ok_iff.mp h
      obtain ⟨rfl, rfl⟩ := Prod.mk.inj (Except.ok.inj h)
      rcases applyBuy_cases happ with ⟨rfl, rfl⟩ | ⟨rfl, v, cost, x, cash, u, unit, p, -, -, -, -,
        -, -, -, hopen, rfl⟩
      · exact .inl ⟨rfl, by simp⟩
      · rw [hw.eq_none hflat] at hopen
        obtain rfl := Except.ok.inj hopen
        refine .inr ⟨rfl, hw.setPosition ?_, rfl, ⟨adjustQty s qty, unit, ts, fp, fee⟩, rfl, rfl,
          ?_, ?_⟩
        · rintro p hp
          obtain rfl := Option.some.inj hp
          exact ⟨not_le.mp hqty, adjustQty_adjustQty s qty⟩
        · simp [Account.setPosition]
        · rintro s' hne
          simp [Account.setPosition, hne]

theorem sellAt_cases (hw : e.book.account.Whole)
    (h : e.sellAt cfg s (e.book.account.qty s) reason ts price = .ok (e', ok)) :
    ok = false ∧ e' = e ∨
    ok = true ∧ e'.book.account.Whole ∧ e'.lastPrice = e.lastPrice ∧
      e'.book.account.positions s = none ∧
      ∀ s', s' ≠ s → e'.book.account.positions s' = e.book.account.positions s' := by
  unfold sellAt at h
  cases hp : e.orderPrice s price with
  | none =>
    simp only [hp] at h
    obtain ⟨rfl, rfl⟩ := Prod.mk.inj (Except.ok.inj h)
    exact .inl ⟨rfl, rfl⟩
  | some mp =>
    simp only [hp] at h
    split_ifs at h with hqty
    · obtain ⟨rfl, rfl⟩ := Prod.mk.inj (Except.ok.inj h)
      exact .inl ⟨rfl, rfl⟩
    · obtain ⟨fp, -, h⟩ := bind_ok_iff.mp h
      obtain ⟨fee, -, h⟩ := bind_ok_iff.mp h
      obtain ⟨tax, -, h⟩ := bind_ok_iff.mp h
      obtain ⟨⟨account, trade⟩, happ, h⟩ := bind_ok_iff.mp h
      rcases applySell_cases happ with ⟨rfl, rfl, -⟩ | ⟨p, v, w, proceeds, x, cash, basis, pnl,
        newQty, sold, entryFee, hpos, -, -, -, -, -, -, -, -, hnew, rfl, -, -, -, rfl⟩
      · obtain ⟨rfl, rfl⟩ := Prod.mk.inj (Except.ok.inj h)
        exact .inl ⟨rfl, rfl⟩
      · obtain ⟨rfl, rfl⟩ := Prod.mk.inj (Except.ok.inj h)
        rw [Account.qty_of_some hpos, (hw s p hpos).2, sub_self, finish_zero] at hnew
        obtain rfl := Except.ok.inj hnew
        refine .inr ⟨rfl, hw.setPosition (by simp), rfl, by simp [Account.setPosition], ?_⟩
        rintro s' hne
        simp [Account.setPosition, hne]

theorem sellAt_held {mp : ℚ} (hw : e.book.account.Whole) (hheld : 0 < e.book.account.qty s)
    (hmp : 0 < mp) (h : e.sellAt cfg s (e.book.account.qty s) reason ts (some mp) = .ok (e', ok)) :
    ok = true := by
  obtain ⟨p, hp⟩ := hw.qty_pos_iff.mp hheld
  obtain ⟨hpos, hadjust⟩ := hw s p hp
  have hprice : e.orderPrice s (some mp) = some mp := by simp [orderPrice, hmp]
  unfold sellAt at h
  simp only [hprice, Account.qty_of_some hp, hadjust, if_neg hpos.not_ge] at h
  obtain ⟨fp, -, h⟩ := bind_ok_iff.mp h
  obtain ⟨fee, -, h⟩ := bind_ok_iff.mp h
  obtain ⟨tax, -, h⟩ := bind_ok_iff.mp h
  obtain ⟨⟨account, trade⟩, happ, h⟩ := bind_ok_iff.mp h
  cases trade with
  | some trade =>
    obtain ⟨-, rfl⟩ := Prod.mk.inj (Except.ok.inj h)
    rfl
  | none =>
    rcases applySell_cases happ with ⟨-, -, hshort⟩ | ⟨_, _, _, _, _, _, _, _, _, sold, _, -, -, -,
      -, -, -, -, -, -, -, hsold, -⟩
    · exact absurd (hshort p hp) (lt_irrefl _)
    · cases hsold

/-- Orders of one symbol: the positions of the others are as they were, all stay whole. -/
structure Only (s : String) (e e' : Engine) (fills : List Filled) : Prop where
  whole : e'.book.account.Whole
  positions : ∀ s', s' ≠ s → e'.book.account.positions s' = e.book.account.positions s'
  fills : ∀ f ∈ fills, f.symbol = s

theorem Only.refl (hw : e.book.account.Whole) : Only s e e [] := ⟨hw, fun _ _ => rfl, by simp⟩

theorem Only.trans {e'' : Engine} {fills fills' : List Filled} (h : Only s e e' fills)
    (h' : Only s e' e'' fills') : Only s e e'' (fills ++ fills') where
  whole := h'.whole
  positions s' hs := (h'.positions s' hs).trans (h.positions s' hs)
  fills f hf := (List.mem_append.mp hf).elim (h.fills f) (h'.fills f)

end Engine

/-! ## The journal of a run -/

namespace Replay

variable {S : Type} (cfg : ReplayConfig) (onTick : S → Tick → Script S)

/-- The loop body of `run`, with the fills of the tick. -/
def tickFills (acc : (S × Replay) × Journal) (t : Tick) :
    Except Failure ((S × Replay) × Journal) := do
  let r := acc.1.2
  let e := { r.toEngine with lastPrice := Function.update r.lastPrice t.symbol (some t.price) }
  let e ← decimals (e.begin cfg.engine t)
  let (_, fills) ← decimals ((onTick acc.1.1 t).execFills cfg.engine e)
  let x ← tick cfg onTick acc.1 t
  return (x, acc.2 ++ [(t, fills)])

/-- A run on a fresh account, with its journal. -/
def journaled (s : S) (cash : ℚ) (ticks : List Tick) : Except Failure ((S × Replay) × Journal) :=
  ticks.foldlM (tickFills cfg onTick) ((s, init cash), [])

end Replay

namespace Replay

variable {S : Type} {cfg : ReplayConfig} {onTick : S → Tick → Script S} {s s' : S} {r r' : Replay}
  {j j' : Journal} {t : Tick} {cash : ℚ} {ticks : List Tick}

theorem begin_book {c : EngineConfig} {e e' : Engine} (h : e.begin c t = .ok e') :
    e'.book = e.book ∧ e'.lastPrice = e.lastPrice := by
  unfold Engine.begin at h
  cases hl : e.lastSampleTs with
  | some ts =>
    rw [hl] at h
    obtain rfl := Except.ok.inj h
    exact ⟨rfl, rfl⟩
  | none =>
    rw [hl] at h
    obtain ⟨eq, -, h⟩ := bind_ok_iff.mp h
    obtain rfl := Except.ok.inj h
    exact ⟨rfl, rfl⟩

theorem tickFills_cases (h : tickFills cfg onTick ((s, r), j) t = .ok ((s', r'), j')) :
    ∃ e e' fills, e.book = r.book ∧
      e.lastPrice = Function.update r.lastPrice t.symbol (some t.price) ∧
      (onTick s t).execFills cfg.engine e = .ok ((s', e'), fills) ∧ r'.book = e'.book ∧
      j' = j ++ [(t, fills)] := by
  unfold tickFills at h
  obtain ⟨e, hbegin, h⟩ := bind_ok_iff.mp h
  obtain ⟨⟨⟨s₁, e₁⟩, fills⟩, hfills, h⟩ := bind_ok_iff.mp h
  obtain ⟨x, htick, h⟩ := bind_ok_iff.mp h
  obtain ⟨rfl, rfl⟩ := Prod.mk.inj (Except.ok.inj h)
  obtain ⟨hbook, hprice⟩ := begin_book (Sampling.decimals_ok_iff.mp hbegin)
  have hexec : (onTick s t).exec cfg.engine e = .ok (s₁, e₁) := by
    rw [Script.exec_eq, Sampling.decimals_ok_iff.mp hfills]
    rfl
  unfold tick at htick
  obtain ⟨e₂, hbegin₂, htick⟩ := bind_ok_iff.mp htick
  obtain rfl := Except.ok.inj (hbegin.symm.trans hbegin₂)
  obtain ⟨⟨s₂, e₂⟩, hexec₂, htick⟩ := bind_ok_iff.mp htick
  obtain ⟨rfl, rfl⟩ := Prod.mk.inj
    (Except.ok.inj (hexec.symm.trans (Sampling.decimals_ok_iff.mp hexec₂)))
  obtain ⟨eq, -, htick⟩ := bind_ok_iff.mp htick
  obtain ⟨mdd, -, htick⟩ := bind_ok_iff.mp htick
  obtain ⟨⟨last, curve⟩, -, htick⟩ := bind_ok_iff.mp htick
  obtain ⟨rfl, rfl⟩ := Prod.mk.inj (Except.ok.inj htick)
  exact ⟨e, e₁, fills, hbook, hprice, Sampling.decimals_ok_iff.mp hfills, rfl, rfl⟩

theorem tick_ok_iff {x y : S × Replay} : tick cfg onTick x t = .ok y ↔
    ∃ fills, tickFills cfg onTick (x, j) t = .ok (y, j ++ [(t, fills)]) := by
  constructor
  · rintro h
    have htick := h
    unfold tick at h
    obtain ⟨e, hbegin, h⟩ := bind_ok_iff.mp h
    obtain ⟨z, hexec, -⟩ := bind_ok_iff.mp h
    rw [Script.exec_eq] at hexec
    obtain ⟨⟨z, fills⟩, hfills, -⟩ := map_ok_iff.mp (Sampling.decimals_ok_iff.mp hexec)
    refine ⟨fills, bind_ok_iff.mpr ⟨e, hbegin, bind_ok_iff.mpr ⟨(z, fills), ?_, ?_⟩⟩⟩
    · exact Sampling.decimals_ok_iff.mpr hfills
    · exact bind_ok_iff.mpr ⟨y, htick, rfl⟩
  · rintro ⟨fills, h⟩
    obtain ⟨e, -, h⟩ := bind_ok_iff.mp h
    obtain ⟨z, -, h⟩ := bind_ok_iff.mp h
    obtain ⟨x', htick, h⟩ := bind_ok_iff.mp h
    obtain ⟨rfl, -⟩ := Prod.mk.inj (Except.ok.inj h)
    exact htick

theorem journaled_snoc {y : (S × Replay) × Journal} :
    journaled cfg onTick s cash (ticks ++ [t]) = .ok y ↔
      ∃ x, journaled cfg onTick s cash ticks = .ok x ∧ tickFills cfg onTick x t = .ok y := by
  unfold journaled
  rw [List.foldlM_append, bind_ok_iff]
  simp only [List.foldlM_cons, List.foldlM_nil, bind_pure]

/-- The journal stands beside the run, it does not change it. -/
theorem run_ok_iff {x : S × Replay} : run cfg onTick s (.init cash) ticks = .ok x ↔
    ∃ j, journaled cfg onTick s cash ticks = .ok (x, j) := by
  induction ticks using List.reverseRecOn generalizing x with
  | nil =>
    constructor
    · rintro h
      obtain rfl := Except.ok.inj h
      exact ⟨[], rfl⟩
    · rintro ⟨j, h⟩
      obtain ⟨rfl, -⟩ := Prod.mk.inj (Except.ok.inj h)
      rfl
  | append_singleton ticks t ih =>
    rw [run, List.foldlM_append, bind_ok_iff]
    simp only [List.foldlM_cons, List.foldlM_nil, bind_pure, journaled_snoc]
    constructor
    · rintro ⟨y, hrun, htick⟩
      obtain ⟨j, hj⟩ := ih.mp hrun
      obtain ⟨fills, hfills⟩ := (tick_ok_iff (j := j)).mp htick
      exact ⟨_, (y, j), hj, hfills⟩
    · rintro ⟨j', ⟨y, j⟩, hj, htick⟩
      refine ⟨y, ih.mpr ⟨j, hj⟩, ?_⟩
      obtain ⟨s, r⟩ := y
      obtain ⟨e, e', fills, -, -, -, -, hj'⟩ := tickFills_cases htick
      exact tick_ok_iff.mpr ⟨fills, hj' ▸ htick⟩

theorem journaled_ticks {x : S × Replay} (h : journaled cfg onTick s cash ticks = .ok (x, j)) :
    j.map Prod.fst = ticks := by
  induction ticks using List.reverseRecOn generalizing x j with
  | nil =>
    obtain ⟨-, rfl⟩ := Prod.mk.inj (Except.ok.inj h)
    rfl
  | append_singleton ticks t ih =>
    obtain ⟨⟨⟨s₁, r₁⟩, j₁⟩, hrun, h⟩ := journaled_snoc.mp h
    obtain ⟨s', r'⟩ := x
    obtain ⟨e, e', fills, -, -, -, -, rfl⟩ := tickFills_cases h
    rw [List.map_append, ih hrun]
    rfl

/-- What holds at the start and is kept by every tick holds after every run. -/
theorem journaled_induction {P : S → Replay → Journal → Prop} (h₀ : P s (.init cash) [])
    (hstep : ∀ s r j t s' r' j', j.map Prod.fst ++ [t] <+: ticks → P s r j →
      tickFills cfg onTick ((s, r), j) t = .ok ((s', r'), j') → P s' r' j')
    (h : journaled cfg onTick s cash ticks = .ok ((s', r'), j')) : P s' r' j' := by
  induction ticks using List.reverseRecOn generalizing s' r' j' with
  | nil =>
    obtain ⟨hx, rfl⟩ := Prod.mk.inj (Except.ok.inj h)
    obtain ⟨rfl, rfl⟩ := Prod.mk.inj hx
    exact h₀
  | append_singleton ticks t ih =>
    obtain ⟨⟨⟨s₁, r₁⟩, j₁⟩, hrun, h⟩ := journaled_snoc.mp h
    refine hstep _ _ _ t _ _ _ (by rw [journaled_ticks hrun]) (ih ?_ hrun) h
    rintro s r j t s' r' j' ht
    exact hstep s r j t s' r' j' (ht.trans (List.prefix_append _ _))

end Replay

end QuantTrader.Backtest
