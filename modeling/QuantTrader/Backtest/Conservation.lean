import Mathlib.Algebra.BigOperators.Group.Finset.Basic
import Mathlib.Algebra.Order.BigOperators.Group.Finset
import QuantTrader.Backtest.Account

/-! # Conservation of the backtest book

Cash plus the cost of the open positions moves by the profits of the closed trades,
up to the quantisation to `0.0001` and the digits of the context. Each fee and tax
enters once: a buy fee through the average, the charges of a sale through its profit.
-/

namespace QuantTrader.Backtest.Conservation

open Transition

/-! ## Runs of calls -/

/-- The arguments of a call. -/
structure Terms where
  symbol : String
  price : ℚ
  qty : ℚ
  fee : ℚ
  ts : ℚ
  price_pos : 0 < price
  qty_pos : 0 < qty
  fee_nonneg : 0 ≤ fee

inductive Call
  | buy (o : Terms)
  | sell (o : Terms) (tax : ℚ) (tax_nonneg : 0 ≤ tax)

/-- What the applied fills of a run add up to. -/
structure Tally where
  fills : ℕ
  bought : ℚ
  pnl : ℚ
  volume : ℚ

def Tally.zero : Tally := ⟨0, 0, 0, 0⟩

/-- The amounts that an order moves on an account. -/
def size (a : Account) (o : Terms) (charges : ℚ) : ℚ :=
  |a.cash| + a.qty o.symbol * a.avg o.symbol + (o.price * o.qty + charges) + o.qty

/-- A buy counts what it bought and what is held then. -/
def Tally.buy (t : Tally) (a a' : Account) (o : Terms) : Tally :=
  ⟨t.fills + 1, t.bought + (o.qty + a'.qty o.symbol), t.pnl, t.volume + size a o o.fee⟩

def Tally.sell (t : Tally) (a : Account) (o : Terms) (tax : ℚ) (trade : ClosedTrade) : Tally :=
  ⟨t.fills + 1, t.bought, t.pnl + trade.pnl, t.volume + size a o (o.fee + tax)⟩

def step (c : Context) (s : Account × Tally) : Call → Except Signal (Account × Tally)
  | .buy o => do
    let (a, applied) ← s.1.applyBuy c o.symbol o.price o.qty o.fee o.ts
    return (a, if applied then s.2.buy s.1 a o else s.2)
  | .sell o tax _ => do
    let (a, trade) ← s.1.applySell c o.symbol o.price o.qty o.fee o.ts tax
    return (a, match trade with
      | none => s.2
      | some trade => s.2.sell s.1 o tax trade)

def start (cash : ℚ) : Account := ⟨cash, fun _ => none⟩

/-- The account of an initial cash and the tally after a list of calls. -/
def run (c : Context) (cash : ℚ) (calls : List Call) : Except Signal (Account × Tally) :=
  calls.foldlM (step c) (start cash, .zero)

def Call.symbol : Call → String
  | .buy o | .sell o _ _ => o.symbol

/-- `qty * avg` of a symbol. -/
def cost (a : Account) (s : String) : ℚ := a.qty s * a.avg s

/-- What the roundings of the fills may add up to. -/
def Tally.slack (ε : ℚ) (t : Tally) : ℚ :=
  1 / 20000 * (t.fills + t.bought) + 20 * ε * t.volume

/-- Every open position holds something, at a cost that is not negative. -/
def Sound (a : Account) : Prop :=
  ∀ s p, a.positions s = some p → 0 < p.qty ∧ 0 ≤ p.avg

/-! ## Rounded results -/

section Rounding

variable {c : Context} {ε x y z : ℚ}

theorem q_error (h : q c x = .ok y) : |y - x| ≤ 1 / 20000 := by
  have he := Context.quantizeFin_error h
  norm_num at he ⊢
  exact he

theorem quantised_error (hc : c.Accurate ε) (hx : c.finish x = .ok y) (hy : q c y = .ok z) :
    |z - x| ≤ 1 / 20000 + ε * |x| := by
  calc |z - x| ≤ |z - y| + |y - x| := abs_sub_le z y x
    _ ≤ 1 / 20000 + ε * |x| := add_le_add (q_error hy) (hc.error hx)

theorem divFin_error (hc : c.Accurate ε) (h : c.divFin x y = .ok z) :
    |z - x / y| ≤ ε * |x / y| := by
  unfold Context.divFin Context.quot at h
  split_ifs at h
  · obtain rfl := Except.ok.inj h
    rw [sub_self, abs_zero]
    exact mul_nonneg hc.nonneg (abs_nonneg _)
  · exact hc.error h

theorem quotient_error (hc : c.Accurate ε) (hx : 0 ≤ x) (hy : 0 < y) {u : ℚ}
    (hu : c.divFin x y = .ok u) (hz : q c u = .ok z) :
    0 ≤ z ∧ |y * z - x| ≤ y / 20000 + ε * x := by
  have hdiv : 0 ≤ x / y := div_nonneg hx hy.le
  have hx' : y * (x / y) = x := mul_div_cancel₀ x hy.ne'
  have hu' := divFin_error hc hu
  have hz' := q_error hz
  rw [abs_of_nonneg hdiv] at hu'
  constructor
  · refine Context.quantizeFin_nonneg hz ?_
    have hs : ε * (x / y) ≤ 1 * (x / y) := mul_le_mul_of_nonneg_right (by linarith [hc.small]) hdiv
    linarith [abs_le.mp hu']
  · have herr : |z - x / y| ≤ 1 / 20000 + ε * (x / y) :=
      (abs_sub_le z u _).trans (add_le_add hz' hu')
    calc |y * z - x| = |y * (z - x / y)| := by rw [mul_sub, hx']
      _ = y * |z - x / y| := by rw [abs_mul, abs_of_pos hy]
      _ ≤ y * (1 / 20000 + ε * (x / y)) := mul_le_mul_of_nonneg_left herr hy.le
      _ = y / 20000 + ε * (y * (x / y)) := by ring
      _ = y / 20000 + ε * x := by rw [hx']

theorem finish_abs_le (hc : c.Accurate ε) (h : c.finish x = .ok y) : |y| ≤ 2 * |x| := by
  have herr : ε * |x| ≤ 1 * |x| := mul_le_mul_of_nonneg_right (by linarith [hc.small]) (abs_nonneg x)
  have htri : |y| ≤ |y - x| + |x| := by simpa using abs_sub_le y x 0
  linarith [hc.error h]

theorem finish_pos (hc : c.Accurate ε) (h : c.finish x = .ok y) (hx : 0 < x) : 0 < y := by
  have hle := hc.le_finish h hx.le
  have : 0 < x * (1 - 1 / 10 ^ 24) := by positivity
  linarith

theorem finish_of_nonneg (hc : c.Accurate ε) (h : c.finish x = .ok y) (hx : 0 ≤ x) :
    0 ≤ y ∧ y ≤ 2 * x ∧ |y - x| ≤ ε * x := by
  have hle := finish_abs_le hc h
  have herr := hc.error h
  rw [abs_of_nonneg hx] at hle herr
  exact ⟨hc.nonneg_of_finish h hx, (le_abs_self y).trans hle, herr⟩

theorem sum_error (hc : c.Accurate ε) {x' y' : ℚ} (hx : 0 ≤ x) (hy : 0 ≤ y)
    (hx' : c.finish x = .ok x') (hy' : c.finish y = .ok y') (hz : c.finish (x' + y') = .ok z) :
    0 ≤ z ∧ z ≤ 4 * (x + y) ∧ |z - (x + y)| ≤ 3 * ε * (x + y) := by
  obtain ⟨hx₀, hx₂, hxe⟩ := finish_of_nonneg hc hx' hx
  obtain ⟨hy₀, hy₂, hye⟩ := finish_of_nonneg hc hy' hy
  obtain ⟨hz₀, hz₂, hze⟩ := finish_of_nonneg hc hz (add_nonneg hx₀ hy₀)
  refine ⟨hz₀, by linarith, ?_⟩
  have hsum : ε * (x' + y') ≤ ε * (2 * (x + y)) :=
    mul_le_mul_of_nonneg_left (by linarith) hc.nonneg
  calc |z - (x + y)| = |(z - (x' + y')) + ((x' - x) + (y' - y))| := by ring_nf
    _ ≤ |z - (x' + y')| + (|x' - x| + |y' - y|) :=
        (abs_add_le _ _).trans (add_le_add_right (abs_add_le _ _) _)
    _ ≤ ε * (2 * (x + y)) + (ε * x + ε * y) :=
        add_le_add (hze.trans hsum) (add_le_add hxe hye)
    _ = 3 * ε * (x + y) := by ring

end Rounding

/-! ## One call -/

section Calls

open Account

variable {c : Context} {ε : ℚ} {a a' : Account} {t t' : Tally} {o : Terms} {p p' : Position}
  {s : String}

theorem applyBuy_cases {price qty fee ts : ℚ} {applied : Bool}
    (h : a.applyBuy c s price qty fee ts = .ok (a', applied)) :
    applied = false ∧ a' = a ∨
    applied = true ∧ ∃ v cost x cash u unit p, c.finish (price * qty) = .ok v ∧
      c.finish (v + fee) = .ok cost ∧ cost ≤ a.cash ∧ c.finish (a.cash - cost) = .ok x ∧
      q c x = .ok cash ∧ c.divFin cost qty = .ok u ∧ q c u = .ok unit ∧
      openOrAdd c ⟨qty, unit, ts, price, fee⟩ (a.positions s) = .ok p ∧
      a' = { a with cash }.setPosition s (some p) := by
  unfold applyBuy at h
  obtain ⟨v, hv, h⟩ := bind_ok_iff.mp h
  obtain ⟨cost, hcost, h⟩ := bind_ok_iff.mp h
  split_ifs at h with hlt
  · obtain ⟨rfl, rfl⟩ := Prod.mk.inj (Except.ok.inj h)
    exact .inl ⟨rfl, rfl⟩
  · obtain ⟨x, hx, h⟩ := bind_ok_iff.mp h
    obtain ⟨cash, hcash, h⟩ := bind_ok_iff.mp h
    obtain ⟨u, hu, h⟩ := bind_ok_iff.mp h
    obtain ⟨unit, hunit, h⟩ := bind_ok_iff.mp h
    obtain ⟨p, hp, h⟩ := bind_ok_iff.mp h
    obtain ⟨rfl, rfl⟩ := Prod.mk.inj (Except.ok.inj h)
    exact .inr ⟨rfl, v, cost, x, cash, u, unit, p, hv, hcost, not_lt.mp hlt, hx, hcash, hu, hunit,
      hp, rfl⟩

/-- A sale takes its share of the entry fee and leaves the rest. -/
def Allots (c : Context) (p : Position) (qty share rest : ℚ) : Prop :=
  ∃ e u, c.finish (p.entryFee * qty) = .ok e ∧ c.divFin e p.qty = .ok u ∧ q c u = .ok share ∧
    c.finish (p.entryFee - share) = .ok rest

theorem applySell_cases {price qty fee ts tax : ℚ} {trade : Option ClosedTrade}
    (h : a.applySell c s price qty fee ts tax = .ok (a', trade)) :
    (trade = none ∧ a' = a ∧ ∀ p, a.positions s = some p → p.qty < qty) ∨
    ∃ p v w proceeds x cash basis pnl newQty sold entryFee, a.positions s = some p ∧ qty ≤ p.qty ∧
      c.finish (price * qty) = .ok v ∧ c.finish (v - fee) = .ok w ∧
      c.finish (w - tax) = .ok proceeds ∧ c.finish (a.cash + proceeds) = .ok x ∧
      q c x = .ok cash ∧ c.finish (qty * p.avg) = .ok basis ∧
      c.finish (proceeds - basis) = .ok pnl ∧ c.finish (p.qty - qty) = .ok newQty ∧
      trade = some sold ∧ sold.pnl = pnl ∧ (sold.symbol = s ∧ sold.sellFee = fee) ∧
      Allots c p qty sold.buyFee entryFee ∧
      a' = { a with cash }.setPosition s
        (if newQty ≤ 0 then none else some { p with entryFee, qty := newQty }) := by
  unfold applySell at h
  cases hp : a.positions s with
  | none =>
    rw [hp] at h
    obtain ⟨rfl, rfl⟩ := Prod.mk.inj (Except.ok.inj h)
    exact .inl ⟨rfl, rfl, by simp⟩
  | some p =>
    simp only [hp] at h
    split_ifs at h with hlt
    · obtain ⟨rfl, rfl⟩ := Prod.mk.inj (Except.ok.inj h)
      exact .inl ⟨rfl, rfl, by simpa using hlt⟩
    · obtain ⟨v, hv, h⟩ := bind_ok_iff.mp h
      obtain ⟨w, hw, h⟩ := bind_ok_iff.mp h
      obtain ⟨proceeds, hproceeds, h⟩ := bind_ok_iff.mp h
      obtain ⟨x, hx, h⟩ := bind_ok_iff.mp h
      obtain ⟨cash, hcash, h⟩ := bind_ok_iff.mp h
      obtain ⟨basis, hbasis, h⟩ := bind_ok_iff.mp h
      obtain ⟨pnl, hpnl, h⟩ := bind_ok_iff.mp h
      obtain ⟨pct, -, h⟩ := bind_ok_iff.mp h
      obtain ⟨e, he, h⟩ := bind_ok_iff.mp h
      obtain ⟨u, hu, h⟩ := bind_ok_iff.mp h
      obtain ⟨buyFee, hbuyFee, h⟩ := bind_ok_iff.mp h
      obtain ⟨entryFee, hentryFee, h⟩ := bind_ok_iff.mp h
      obtain ⟨newQty, hnew, h⟩ := bind_ok_iff.mp h
      obtain ⟨rfl, rfl⟩ := Prod.mk.inj (Except.ok.inj h)
      exact .inr ⟨p, v, w, proceeds, x, cash, basis, pnl, newQty, _, entryFee, rfl, not_lt.mp hlt,
        hv, hw, hproceeds, hx, hcash, hbasis, hpnl, hnew, rfl, rfl, ⟨rfl, rfl⟩,
        ⟨e, u, he, hu, hbuyFee, hentryFee⟩, rfl⟩

/-- The position after a further buy costs what it cost and what was bought. -/
theorem addTo_error (hc : c.Accurate ε) {qty unit : ℚ} (hp : 0 < p.qty) (ha : 0 ≤ p.avg)
    (hq : 0 < qty) (hu : 0 ≤ unit) (h : addTo c p qty unit = .ok p') :
    0 < p'.qty ∧ 0 ≤ p'.avg ∧ |p'.qty * p'.avg - (p.qty * p.avg + qty * unit)| ≤
      p'.qty / 20000 + 7 * ε * (p.qty * p.avg + qty * unit) := by
  unfold addTo at h
  obtain ⟨newQty, hnew, h⟩ := bind_ok_iff.mp h
  obtain ⟨x, hx, h⟩ := bind_ok_iff.mp h
  obtain ⟨y, hy, h⟩ := bind_ok_iff.mp h
  obtain ⟨z, hz, h⟩ := bind_ok_iff.mp h
  obtain ⟨w, hw, h⟩ := bind_ok_iff.mp h
  obtain ⟨avg, havg, h⟩ := bind_ok_iff.mp h
  obtain rfl := Except.ok.inj h
  have hheld : 0 ≤ p.qty * p.avg := mul_nonneg hp.le ha
  have hadded : 0 ≤ qty * unit := mul_nonneg hq.le hu
  obtain ⟨hz₀, hz₁, hz₂⟩ := sum_error hc hheld hadded hx hy hz
  have hpos : 0 < newQty := finish_pos hc hnew (add_pos hp hq)
  obtain ⟨havg₀, havg₁⟩ := quotient_error hc hz₀ hpos hw havg
  refine ⟨hpos, havg₀, ?_⟩
  have hbig : ε * z ≤ ε * (4 * (p.qty * p.avg + qty * unit)) :=
    mul_le_mul_of_nonneg_left hz₁ hc.nonneg
  calc |newQty * avg - (p.qty * p.avg + qty * unit)|
      ≤ |newQty * avg - z| + |z - (p.qty * p.avg + qty * unit)| := abs_sub_le _ z _
    _ ≤ (newQty / 20000 + ε * (4 * (p.qty * p.avg + qty * unit))) +
          3 * ε * (p.qty * p.avg + qty * unit) := add_le_add (by linarith) hz₂
    _ = newQty / 20000 + 7 * ε * (p.qty * p.avg + qty * unit) := by ring

/-- A call moves the book of its symbol within what it adds to the slack. -/
structure Moves (ε : ℚ) (s : String) (a a' : Account) (t t' : Tally) : Prop where
  sound : Sound a'
  frame : ∀ s', s' ≠ s → a'.positions s' = a.positions s'
  drift : |(a'.cash + cost a' s - t'.pnl) - (a.cash + cost a s - t.pnl)| ≤ t'.slack ε - t.slack ε

theorem Moves.refl (h : Sound a) : Moves ε s a a t t := ⟨h, fun _ _ => rfl, by simp⟩

theorem sound_setPosition {cash : ℚ} {r : Option Position} (h : Sound a)
    (hr : ∀ p, r = some p → 0 < p.qty ∧ 0 ≤ p.avg) :
    Sound ({ a with cash }.setPosition s r) := by
  intro s' p hp
  rcases eq_or_ne s' s with rfl | hne
  · exact hr p (by simpa [setPosition] using hp)
  · exact h s' p (by simpa [setPosition, hne] using hp)

theorem frame_setPosition {cash : ℚ} {r : Option Position} {s' : String} (h : s' ≠ s) :
    ({ a with cash }.setPosition s r).positions s' = a.positions s' :=
  Function.update_of_ne h _ _

theorem cost_of_some (h : a.positions s = some p) : cost a s = p.qty * p.avg := by
  simp [cost, Account.qty, Account.avg, h]

theorem cost_of_none (h : a.positions s = none) : cost a s = 0 := by
  simp [cost, Account.qty, h]

theorem cost_nonneg (h : Sound a) : 0 ≤ cost a s := by
  cases hp : a.positions s with
  | none => exact (cost_of_none hp).ge
  | some p =>
    obtain ⟨hqty, havg⟩ := h s p hp
    rw [cost_of_some hp]
    exact mul_nonneg hqty.le havg

theorem slack_buy : (t.buy a a' o).slack ε - t.slack ε =
    1 / 20000 * (1 + o.qty + a'.qty o.symbol) + 20 * ε * size a o o.fee := by
  simp only [Tally.slack, Tally.buy]
  push_cast
  ring

theorem slack_sell {tax : ℚ} {trade : ClosedTrade} :
    (t.sell a o tax trade).slack ε - t.slack ε =
      1 / 20000 + 20 * ε * size a o (o.fee + tax) := by
  simp only [Tally.slack, Tally.sell]
  push_cast
  ring

theorem openOrAdd_error (hc : c.Accurate ε) (h : Sound a) {unit : ℚ} (hu : 0 ≤ unit)
    (hp : openOrAdd c ⟨o.qty, unit, o.ts, o.price, o.fee⟩ (a.positions o.symbol) = .ok p) :
    0 < p.qty ∧ 0 ≤ p.avg ∧ |p.qty * p.avg - (cost a o.symbol + o.qty * unit)| ≤
      p.qty / 20000 + 7 * ε * (cost a o.symbol + o.qty * unit) := by
  have hq := o.qty_pos
  have hε := hc.nonneg
  cases hheld : a.positions o.symbol with
  | none =>
    rw [hheld] at hp
    obtain rfl := Except.ok.inj hp
    refine ⟨hq, hu, ?_⟩
    rw [cost_of_none hheld, zero_add, sub_self, abs_zero]
    positivity
  | some r =>
    obtain ⟨hqty, havg⟩ := h _ _ hheld
    rw [hheld] at hp
    simp only [openOrAdd, if_neg (not_le.mpr hqty)] at hp
    rw [cost_of_some hheld]
    exact addTo_error hc hqty havg hq hu hp

/-- The cash, the position and its cost after a buy, against what was paid. -/
theorem buy_drift (hc : c.Accurate ε) (h : Sound a) {v paid x cash u unit : ℚ}
    (hv : c.finish (o.price * o.qty) = .ok v) (hpaid : c.finish (v + o.fee) = .ok paid)
    (hle : paid ≤ a.cash) (hx : c.finish (a.cash - paid) = .ok x) (hcash : q c x = .ok cash)
    (hu : c.divFin paid o.qty = .ok u) (hunit : q c u = .ok unit)
    (hp : openOrAdd c ⟨o.qty, unit, o.ts, o.price, o.fee⟩ (a.positions o.symbol) = .ok p) :
    (0 < p.qty ∧ 0 ≤ p.avg) ∧ |(cash + p.qty * p.avg) - (a.cash + cost a o.symbol)| ≤
      1 / 20000 * (1 + o.qty + p.qty) + 20 * ε * size a o o.fee := by
  have hε := hc.nonneg
  have hvalue : 0 ≤ o.price * o.qty := mul_nonneg o.price_pos.le o.qty_pos.le
  have hv₀ := hc.nonneg_of_finish hv hvalue
  have hpaid₀ := hc.nonneg_of_finish hpaid (add_nonneg hv₀ o.fee_nonneg)
  have hcash' := quantised_error hc hx hcash
  rw [abs_of_nonneg (sub_nonneg.mpr hle)] at hcash'
  obtain ⟨hunit₀, hunit'⟩ := quotient_error hc hpaid₀ o.qty_pos hu hunit
  obtain ⟨hqty, havg, hmerge⟩ := openOrAdd_error hc h hunit₀ hp
  have hcost : 0 ≤ cost a o.symbol := cost_nonneg h
  -- what was bought costs at most twice the cash and a unit of the last place
  have hbought : o.qty * unit ≤ 2 * a.cash + o.qty := by
    have hpaid₁ : ε * paid ≤ 1 * paid :=
      mul_le_mul_of_nonneg_right (by linarith [hc.small]) hpaid₀
    linarith [(abs_le.mp hunit').2, o.qty_pos]
  have hmerge' : 7 * ε * (cost a o.symbol + o.qty * unit) ≤
      7 * ε * (cost a o.symbol + (2 * a.cash + o.qty)) :=
    mul_le_mul_of_nonneg_left (by linarith) (by linarith)
  have hsize : ε * (a.cash + cost a o.symbol + o.qty) ≤ ε * size a o o.fee := by
    refine mul_le_mul_of_nonneg_left ?_ hε
    unfold size
    linarith [le_abs_self a.cash, o.fee_nonneg, show a.qty o.symbol * a.avg o.symbol =
      cost a o.symbol from rfl]
  have hcash₀ : 0 ≤ ε * a.cash := mul_nonneg hε (hpaid₀.trans hle)
  have hrest : 0 ≤ ε * (cost a o.symbol + o.qty) :=
    mul_nonneg hε (by linarith [o.qty_pos])
  refine ⟨⟨hqty, havg⟩, ?_⟩
  calc |(cash + p.qty * p.avg) - (a.cash + cost a o.symbol)|
      = |(cash - (a.cash - paid)) + ((p.qty * p.avg - (cost a o.symbol + o.qty * unit)) +
          (o.qty * unit - paid))| := by ring_nf
    _ ≤ |cash - (a.cash - paid)| + (|p.qty * p.avg - (cost a o.symbol + o.qty * unit)| +
          |o.qty * unit - paid|) :=
        (abs_add_le _ _).trans (add_le_add_right (abs_add_le _ _) _)
    _ ≤ (1 / 20000 + ε * (a.cash - paid)) + ((p.qty / 20000 +
          7 * ε * (cost a o.symbol + (2 * a.cash + o.qty))) + (o.qty / 20000 + ε * paid)) :=
        add_le_add hcash' (add_le_add (hmerge.trans (by linarith)) hunit')
    _ ≤ 1 / 20000 * (1 + o.qty + p.qty) + 20 * ε * size a o o.fee := by linarith

theorem Moves.buy (hc : c.Accurate ε) (h : Sound a)
    (hstep : step c (a, t) (.buy o) = .ok (a', t')) : Moves ε o.symbol a a' t t' := by
  obtain ⟨⟨a₁, applied⟩, hbuy, heq⟩ := bind_ok_iff.mp hstep
  obtain ⟨rfl, rfl⟩ := Prod.mk.inj (Except.ok.inj heq)
  rcases applyBuy_cases hbuy with ⟨rfl, rfl⟩ |
    ⟨rfl, v, paid, x, cash, u, unit, p, hv, hpaid, hle, hx, hcash, hu, hunit, hp, rfl⟩
  · exact .refl h
  · obtain ⟨hpos, hdrift⟩ := buy_drift hc h hv hpaid hle hx hcash hu hunit hp
    refine ⟨sound_setPosition h ?_, fun _ => frame_setPosition, ?_⟩
    · rintro _ ⟨⟩
      exact hpos
    · set a' := { a with cash }.setPosition o.symbol (some p)
      have hself : a'.positions o.symbol = some p := Function.update_self _ _ _
      have hheld : a'.qty o.symbol = p.qty := by simp [Account.qty, hself]
      rw [if_pos rfl, slack_buy, hheld, cost_of_some hself]
      calc |cash + p.qty * p.avg - t.pnl - (a.cash + cost a o.symbol - t.pnl)|
          = |(cash + p.qty * p.avg) - (a.cash + cost a o.symbol)| := by ring_nf
        _ ≤ 1 / 20000 * (1 + o.qty + p.qty) + 20 * ε * size a o o.fee := hdrift

theorem proceeds_le (hc : c.Accurate ε) {tax v w proceeds : ℚ} (htax : 0 ≤ tax)
    (hv : c.finish (o.price * o.qty) = .ok v) (hw : c.finish (v - o.fee) = .ok w)
    (hproceeds : c.finish (w - tax) = .ok proceeds) :
    |proceeds| ≤ 8 * (o.price * o.qty + (o.fee + tax)) := by
  have hvalue : 0 ≤ o.price * o.qty := mul_nonneg o.price_pos.le o.qty_pos.le
  obtain ⟨hv₀, hv₁, -⟩ := finish_of_nonneg hc hv hvalue
  have hfee : |v - o.fee| ≤ v + o.fee := by
    rw [abs_le]
    constructor <;> linarith [o.fee_nonneg]
  have htax' : |w - tax| ≤ |w| + tax := by
    simpa [abs_of_nonneg htax] using abs_sub w tax
  linarith [finish_abs_le hc hw, finish_abs_le hc hproceeds, o.fee_nonneg]

def left (p : Position) (newQty entryFee : ℚ) : Option Position :=
  if newQty ≤ 0 then none else some { p with entryFee, qty := newQty }

theorem left_sound {newQty entryFee : ℚ} (havg : 0 ≤ p.avg) (hp : left p newQty entryFee = some p') :
    0 < p'.qty ∧ 0 ≤ p'.avg := by
  unfold left at hp
  split_ifs at hp with hzero
  obtain rfl := Option.some.inj hp
  exact ⟨not_le.mp hzero, havg⟩

theorem cost_left {newQty entryFee : ℚ} (hnew : 0 ≤ newQty)
    (hself : a.positions s = left p newQty entryFee) : cost a s = newQty * p.avg := by
  unfold left at hself
  split_ifs at hself with hzero
  · rw [cost_of_none hself, le_antisymm hzero hnew, zero_mul]
  · rw [cost_of_some hself]

/-- The cash, what is left of the position and the profit of a sale. -/
theorem sell_drift (hc : c.Accurate ε) (h : Sound a) (hp : a.positions o.symbol = some p)
    {tax v w proceeds x cash basis pnl newQty : ℚ} (htax : 0 ≤ tax) (hle : o.qty ≤ p.qty)
    (hv : c.finish (o.price * o.qty) = .ok v) (hw : c.finish (v - o.fee) = .ok w)
    (hproceeds : c.finish (w - tax) = .ok proceeds) (hx : c.finish (a.cash + proceeds) = .ok x)
    (hcash : q c x = .ok cash) (hbasis : c.finish (o.qty * p.avg) = .ok basis)
    (hpnl : c.finish (proceeds - basis) = .ok pnl) (hnew : c.finish (p.qty - o.qty) = .ok newQty) :
    |(cash + newQty * p.avg - pnl) - (a.cash + p.qty * p.avg)| ≤
      1 / 20000 + 20 * ε * size a o (o.fee + tax) := by
  have hε := hc.nonneg
  obtain ⟨hqty, havg⟩ := h _ _ hp
  obtain ⟨hnew₀, -, hnew'⟩ := finish_of_nonneg hc hnew (sub_nonneg.mpr hle)
  have hproceeds' := proceeds_le hc htax hv hw hproceeds
  have hsold : 0 ≤ o.qty * p.avg := mul_nonneg o.qty_pos.le havg
  have hsold' : o.qty * p.avg ≤ p.qty * p.avg := mul_le_mul_of_nonneg_right hle havg
  obtain ⟨hbasis₀, hbasis₁, hbasis'⟩ := finish_of_nonneg hc hbasis hsold
  have hleft : |(newQty - (p.qty - o.qty)) * p.avg| ≤ ε * (p.qty - o.qty) * p.avg := by
    rw [abs_mul, abs_of_nonneg havg]
    exact mul_le_mul_of_nonneg_right hnew' havg
  have hcash' : |cash - (a.cash + proceeds)| ≤ 1 / 20000 + ε * (|a.cash| + |proceeds|) :=
    (quantised_error hc hx hcash).trans
      (add_le_add_right (mul_le_mul_of_nonneg_left (abs_add_le _ _) hε) _)
  have hpnl' : |pnl - (proceeds - basis)| ≤ ε * (|proceeds| + basis) := by
    refine (hc.error hpnl).trans (mul_le_mul_of_nonneg_left ?_ hε)
    simpa [abs_of_nonneg hbasis₀] using abs_sub proceeds basis
  have hsize : |a.cash| + 2 * |proceeds| + basis + p.qty * p.avg ≤
      20 * size a o (o.fee + tax) := by
    have hheld : a.qty o.symbol * a.avg o.symbol = p.qty * p.avg := cost_of_some hp
    have hvalue : 0 ≤ o.price * o.qty := mul_nonneg o.price_pos.le o.qty_pos.le
    unfold size
    linarith [abs_nonneg a.cash, abs_nonneg proceeds, o.qty_pos]
  have hvolume := mul_le_mul_of_nonneg_left hsize hε
  calc |(cash + newQty * p.avg - pnl) - (a.cash + p.qty * p.avg)|
      = |(cash - (a.cash + proceeds)) + ((newQty - (p.qty - o.qty)) * p.avg +
          (-(pnl - (proceeds - basis)) + (basis - o.qty * p.avg)))| := by ring_nf
    _ ≤ |cash - (a.cash + proceeds)| + (|(newQty - (p.qty - o.qty)) * p.avg| +
          (|pnl - (proceeds - basis)| + |basis - o.qty * p.avg|)) := by
        refine (abs_add_le _ _).trans (add_le_add_right ((abs_add_le _ _).trans ?_) _)
        refine add_le_add_right ((abs_add_le _ _).trans ?_) _
        rw [abs_neg]
    _ ≤ (1 / 20000 + ε * (|a.cash| + |proceeds|)) + (ε * (p.qty - o.qty) * p.avg +
          (ε * (|proceeds| + basis) + ε * (o.qty * p.avg))) :=
        add_le_add hcash' (add_le_add hleft (add_le_add hpnl' hbasis'))
    _ = 1 / 20000 + ε * (|a.cash| + 2 * |proceeds| + basis + p.qty * p.avg) := by ring
    _ ≤ 1 / 20000 + 20 * ε * size a o (o.fee + tax) := by linarith

theorem Moves.sell {tax : ℚ} {htax : 0 ≤ tax} (hc : c.Accurate ε) (h : Sound a)
    (hstep : step c (a, t) (.sell o tax htax) = .ok (a', t')) : Moves ε o.symbol a a' t t' := by
  obtain ⟨⟨a₁, trade⟩, hsell, heq⟩ := bind_ok_iff.mp hstep
  obtain ⟨rfl, rfl⟩ := Prod.mk.inj (Except.ok.inj heq)
  rcases applySell_cases hsell with ⟨rfl, rfl, -⟩ |
    ⟨p, v, w, proceeds, x, cash, basis, pnl, newQty, sold, entryFee, hp, hle, hv, hw, hproceeds,
      hx, hcash, hbasis, hpnl, hnew, rfl, rfl, -, -, rfl⟩
  · exact .refl h
  · obtain ⟨-, havg⟩ := h _ _ hp
    have hnew₀ := hc.nonneg_of_finish hnew (sub_nonneg.mpr hle)
    refine ⟨sound_setPosition h fun _ => left_sound havg, fun _ => frame_setPosition, ?_⟩
    rw [slack_sell, cost_left hnew₀ (Function.update_self _ _ _), cost_of_some hp]
    calc |cash + newQty * p.avg - (t.pnl + sold.pnl) - (a.cash + p.qty * p.avg - t.pnl)|
        = |(cash + newQty * p.avg - sold.pnl) - (a.cash + p.qty * p.avg)| := by ring_nf
      _ ≤ 1 / 20000 + 20 * ε * size a o (o.fee + tax) :=
          sell_drift hc h hp htax hle hv hw hproceeds hx hcash hbasis hpnl hnew

theorem Moves.step {call : Call} (hc : c.Accurate ε) (h : Sound a)
    (hstep : step c (a, t) call = .ok (a', t')) : Moves ε call.symbol a a' t t' := by
  cases call with
  | buy o => exact .buy hc h hstep
  | sell o tax htax => exact .sell hc h hstep

theorem Moves.drift_sum {S : Finset String} (h : Moves ε s a a' t t') (hs : s ∈ S) :
    |(a'.cash + ∑ x ∈ S, cost a' x - t'.pnl) - (a.cash + ∑ x ∈ S, cost a x - t.pnl)| ≤
      t'.slack ε - t.slack ε := by
  have hrest : ∑ x ∈ S.erase s, cost a' x = ∑ x ∈ S.erase s, cost a x := by
    refine Finset.sum_congr rfl fun x hx => ?_
    simp only [cost, Account.qty, Account.avg, h.frame x (Finset.ne_of_mem_erase hx)]
  rw [← Finset.add_sum_erase S _ hs, ← Finset.add_sum_erase S (cost a) hs, hrest]
  refine le_trans (le_of_eq ?_) h.drift
  congr 1
  ring

end Calls

/-! ## Runs -/

variable {c : Context} {ε cash : ℚ} {a a' : Account} {t t' : Tally} {calls : List Call}
  {S : Finset String}

theorem foldlM_drift (hc : c.Accurate ε) (hS : ∀ call ∈ calls, call.symbol ∈ S) (h : Sound a)
    (hrun : calls.foldlM (step c) (a, t) = .ok (a', t')) :
    |(a'.cash + ∑ x ∈ S, cost a' x - t'.pnl) - (a.cash + ∑ x ∈ S, cost a x - t.pnl)| ≤
      t'.slack ε - t.slack ε := by
  induction calls generalizing a t with
  | nil =>
    obtain ⟨rfl, rfl⟩ := Prod.mk.inj (Except.ok.inj hrun)
    simp
  | cons call calls ih =>
    rw [List.foldlM_cons] at hrun
    obtain ⟨⟨b, r⟩, hstep, hrun⟩ := bind_ok_iff.mp hrun
    have hmoves := Moves.step hc h hstep
    have hfirst := hmoves.drift_sum (hS call List.mem_cons_self)
    have hrest := ih (fun call h => hS call (List.mem_cons_of_mem _ h)) hmoves.sound hrun
    calc |(a'.cash + ∑ x ∈ S, cost a' x - t'.pnl) - (a.cash + ∑ x ∈ S, cost a x - t.pnl)|
        ≤ |(a'.cash + ∑ x ∈ S, cost a' x - t'.pnl) - (b.cash + ∑ x ∈ S, cost b x - r.pnl)| +
          |(b.cash + ∑ x ∈ S, cost b x - r.pnl) - (a.cash + ∑ x ∈ S, cost a x - t.pnl)| :=
          abs_sub_le _ _ _
      _ ≤ (t'.slack ε - r.slack ε) + (r.slack ε - t.slack ε) := add_le_add hrest hfirst
      _ = t'.slack ε - t.slack ε := by ring

theorem sound_start : Sound (start cash) := by
  intro s p h
  cases h

theorem cost_start (s : String) : cost (start cash) s = 0 := cost_of_none rfl

theorem slack_zero : Tally.zero.slack ε = 0 := by
  simp [Tally.zero, Tally.slack]

theorem foldlM_frame {s : String} (hc : c.Accurate ε) (h : Sound a)
    (hrun : calls.foldlM (step c) (a, t) = .ok (a', t')) (hs : s ∉ calls.map Call.symbol) :
    a'.positions s = a.positions s := by
  induction calls generalizing a t with
  | nil =>
    obtain ⟨rfl, rfl⟩ := Prod.mk.inj (Except.ok.inj hrun)
    rfl
  | cons call calls ih =>
    rw [List.foldlM_cons] at hrun
    obtain ⟨⟨b, r⟩, hstep, hrun⟩ := bind_ok_iff.mp hrun
    rw [List.map_cons, List.mem_cons, not_or] at hs
    have hmoves := Moves.step hc h hstep
    rw [ih hmoves.sound hrun hs.2, hmoves.frame s hs.1]

theorem mem_symbols {s : String} (hc : c.Accurate ε) (hrun : run c cash calls = .ok (a, t))
    (hs : a.positions s ≠ none) : s ∈ calls.map Call.symbol := by
  by_contra hmem
  exact hs (foldlM_frame hc sound_start hrun hmem)

/-- The drift of a run, over any set of symbols that has its open positions. -/
theorem run_drift (hc : c.Accurate ε) (hrun : run c cash calls = .ok (a, t))
    (hS : ∀ s, a.positions s ≠ none → s ∈ S) :
    |a.cash + ∑ s ∈ S, cost a s - cash - t.pnl| ≤ t.slack ε := by
  classical
  have hclosed : ∑ s ∈ S, cost a s = ∑ s ∈ S ∪ (calls.map Call.symbol).toFinset, cost a s := by
    refine Finset.sum_subset Finset.subset_union_left fun s _ hs => cost_of_none ?_
    by_contra hopen
    exact hs (hS s hopen)
  have hdrift := foldlM_drift (S := S ∪ (calls.map Call.symbol).toFinset) hc
    (fun call h => Finset.mem_union_right _ (List.mem_toFinset.mpr (List.mem_map_of_mem h)))
    sound_start hrun
  simp only [cost_start, Finset.sum_const_zero, slack_zero, add_zero, sub_zero] at hdrift
  rw [hclosed]
  refine le_trans (le_of_eq ?_) hdrift
  congr 1
  simp only [start, Tally.zero]
  ring

/-- With exact arithmetic only the quantisation is left. -/
theorem run_drift_exact (hrun : run .exact cash calls = .ok (a, t))
    (hS : ∀ s, a.positions s ≠ none → s ∈ S) :
    |a.cash + ∑ s ∈ S, cost a s - cash - t.pnl| ≤ 1 / 20000 * (t.fills + t.bought) := by
  simpa [Tally.slack] using run_drift Context.accurate_exact hrun hS

theorem book_conserved (hrun : run .default cash calls = .ok (a, t))
    (hS : ∀ s, a.positions s ≠ none → s ∈ S) :
    |a.cash + ∑ s ∈ S, cost a s - cash - t.pnl| ≤
      1 / 20000 * (t.fills + t.bought) + 1 / 10 ^ 26 * t.volume := by
  have hdrift := run_drift Context.accurate_default hrun hS
  rw [Tally.slack, show (20 : ℚ) * (5 / 10 ^ 28) = 1 / 10 ^ 26 by norm_num] at hdrift
  exact hdrift

def coin (price qty fee : ℚ) (hp : 0 < price) (hq : 0 < qty) (hf : 0 ≤ fee) : Terms :=
  ⟨"KRW-BTC", price, qty, fee, 0, hp, hq, hf⟩

theorem demoPrice_pos : (0 : ℚ) < 100 := by norm_num

theorem noFee_nonneg : (0 : ℚ) ≤ 0 := le_rfl

def roundTrip : List Call :=
  [.buy (coin 100 3 (1 / 20) demoPrice_pos (by norm_num) (by norm_num)),
    .sell (coin 120 2 (1 / 10) (by norm_num) (by norm_num) (by norm_num)) (1 / 5) (by norm_num)]

theorem book_conserved_demo : ∃ a t, run .default 1000 roundTrip = .ok (a, t) ∧
    |a.cash + ∑ s ∈ {"KRW-BTC"}, cost a s - 1000 - t.pnl| ≤
      1 / 20000 * (t.fills + t.bought) + 1 / 10 ^ 26 * t.volume := by
  obtain ⟨⟨a, t⟩, hrun⟩ := exists_ok_of_isOk (x := run .default 1000 roundTrip) (by decide +kernel)
  refine ⟨a, t, hrun, book_conserved hrun fun s hs => ?_⟩
  simpa [roundTrip, Call.symbol, coin] using mem_symbols Context.accurate_default hrun hs

/-- A buy so small that the cash of 28 digits is rounded twice. -/
def tinyBuy : List Call :=
  [.buy (coin 54 (1 / 10 ^ 6) 0 (by norm_num) (by norm_num) noFee_nonneg)]

theorem digits_exceed_quantisation : ∃ a t, run .default (5 * 10 ^ 22) tinyBuy = .ok (a, t) ∧
    (∀ s, a.positions s ≠ none → s ∈ ({"KRW-BTC"} : Finset String)) ∧
    1 / 20000 * (t.fills + t.bought) <
      |a.cash + ∑ s ∈ {"KRW-BTC"}, cost a s - 5 * 10 ^ 22 - t.pnl| := by
  have hview : (fun r => (r.1.cash, cost r.1 "KRW-BTC", r.2.fills, r.2.bought, r.2.pnl)) <$>
      run .default (5 * 10 ^ 22) tinyBuy =
        .ok (5 * 10 ^ 22, 54 / 10 ^ 6, 1, 2 / 10 ^ 6, 0) := by decide +kernel
  obtain ⟨⟨a, t⟩, hrun, hview⟩ := map_ok_iff.mp hview
  simp only [Prod.mk.injEq] at hview
  obtain ⟨hcash, hcost, hfills, hbought, hpnl⟩ := hview
  refine ⟨a, t, hrun, fun s hs => ?_, ?_⟩
  · simpa [tinyBuy, Call.symbol, coin] using mem_symbols Context.accurate_default hrun hs
  · rw [Finset.sum_singleton, hcash, hcost, hfills, hbought, hpnl]
    norm_num

end QuantTrader.Backtest.Conservation
