import QuantTrader.Backtest.CrossSectional
import QuantTrader.Rebalance.Quiet

/-! # Buys on a cash that is read once

The second loop sizes every buy on the cash before it, so each alone fits. The
account accepts all of them while their budgets together fit in that cash, and
not once they exceed it by more than the rounding of the quantities.
-/

namespace QuantTrader.Backtest

open Account Ledger Transition

open Rebalance (affordableQty feeQuant minOrderKrw withinBand)
open Strategy (PyFloat)

section Answers

variable (c : Context) (m : FillModel)

/-- `buy` at a given price, with its answer. -/
def Book.buyAnswer (b : Book) (symbol : String) (qty ts price : ℚ) : Except Signal (Book × Bool) :=
  let qty := adjustQty symbol qty
  if qty ≤ 0 ∨ price ≤ 0 then return (b, false)
  else do
    let fp ← m.fillPrice c .buy price
    let fee ← m.fee c fp qty
    let r ← b.account.applyBuy c symbol fp qty fee ts
    return (⟨r.1, if r.2 = true ∧ symbol ∉ b.held then b.held ++ [symbol] else b.held⟩, r.2)

theorem Book.buy_eq (b : Book) (symbol : String) (qty ts price : ℚ) :
    b.buy c m symbol qty ts price = Prod.fst <$> b.buyAnswer c m symbol qty ts price := by
  unfold Book.buy Book.buyAnswer
  dsimp only
  split_ifs
  · rfl
  · simp only [map_bind]
    rfl

/-- Orders applied in order, with the answers to the buys. -/
def answers (ts : ℚ) : Book → List Order → Except Signal (Book × List Bool)
  | b, [] => return (b, [])
  | b, o :: os =>
    match o.side with
    | .sell => do answers ts (← b.sell c m o.symbol o.qty ts o.price) os
    | .buy => do
      let (b, ok) ← b.buyAnswer c m o.symbol o.qty ts o.price
      let (b, oks) ← answers ts b os
      return (b, ok :: oks)

/-- Every buy among some orders is accepted. -/
def NeverRefused (ts : ℚ) (b : Book) (os : List Order) : Prop :=
  ∃ r, answers c m ts b os = .ok r ∧ ∀ ok ∈ r.2, ok = true

def Order.cost (o : Order) : Except Signal ℚ := do
  let fp ← m.fillPrice c .buy o.price
  let fee ← m.fee c fp (adjustQty o.symbol o.qty)
  c.finish ((← c.finish (fp * adjustQty o.symbol o.qty)) + fee)

/-- What a holding may spend on its way to a target: the missing value, within the cash. Nothing is
spent from the target on, inside the band or below the minimal order. -/
def buyBudget (qty price cash equity w band : ℚ) : Except Signal (Option ℚ) :=
  if price ≤ 0 ∨ equity ≤ 0 ∨ w ≤ 0 then return none
  else do
    let curVal ← c.finish (qty * price)
    let targetVal ← c.finish (equity * w)
    if 0 < qty then
      if ← withinBand c curVal targetVal equity w band then return none
    if targetVal ≤ curVal then return none
    else do
      let budget := min (← c.finish (targetVal - curVal)) cash
      return if budget < minOrderKrw then none else some budget

/-- A budget for a symbol at a price. -/
structure Budget where
  symbol : String
  price : ℚ
  amount : ℚ
  deriving DecidableEq

/-- What a budget comes to at a fee rate: it is sized at `FEE_RATE`. -/
def Budget.due (rate : ℚ) (b : Budget) : ℚ := b.amount * ((1 + rate) / (1 + Rebalance.feeRate))

/-- The smallest quantity that an order of a symbol can be short of its size. -/
def qtyStep (symbol : String) : ℚ := if assetClass symbol = .coin then 1 / 10 ^ 8 else 1 + 1 / 10 ^ 8

/-- What a budget may leave unspent: a step of the quantity with its fee, and fee units. -/
def Budget.slack (b : Budget) : ℚ := 3 * qtyStep b.symbol * b.price + 1 / 1000

/-- A stock buys at least one share of it, if it buys anything. -/
def Budget.Whole (b : Budget) : Prop :=
  ∀ q, affordableQty c b.amount b.price = .ok q → 0 < q → assetClass b.symbol ≠ .coin → 1 ≤ q

instance (b : Budget) : Decidable (b.Whole c) :=
  match h : affordableQty c b.amount b.price with
  | .ok q => decidable_of_iff (0 < q → assetClass b.symbol ≠ .coin → 1 ≤ q)
      ⟨fun hw _ hq => Except.ok.inj (h.symm.trans hq) ▸ hw, fun hw => hw q h⟩
  | .error _ => isTrue fun q hq => by simp [h] at hq

variable (cfg : XSConfig) (snapshot : String → Option ℚ) (tw cash equity : ℚ)

/-- The budgets of the second loop, on the quantities, the cash and the equity before it. -/
def budgets (F : Type) [PyFloat F] (a : Account) : List String → Except Signal (List Budget)
  | [] => return []
  | sym :: longs => do
    let px := (snapshot sym).getD 0
    let amount ← buyBudget c (a.qty sym) px cash equity (viaFloat F tw) cfg.band
    return (amount.map (Budget.mk sym px)).toList ++ (← budgets F a longs)

end Answers

/-! ## One buy -/

section Buys

variable {c : Context} {ε : ℚ} {m : FillModel} {b b' : Book} {o : Order} {ts price qty qbuy fee cost : ℚ}
  {ok : Bool}

theorem applyBuy_spec {a a' : Account} {s : String}
    (h : a.applyBuy c s price qty fee ts = .ok (a', ok)) :
    ∃ cost, (do c.finish ((← c.finish (price * qty)) + fee)) = .ok cost ∧
      (ok = true ↔ cost ≤ a.cash) ∧
      (ok = true → ∃ x, c.finish (a.cash - cost) = .ok x ∧ q c x = .ok a'.cash) ∧
      ∀ s', s' ≠ s → a'.qty s' = a.qty s' := by
  unfold Account.applyBuy at h
  obtain ⟨v, hv, h⟩ := bind_ok_iff.mp h
  obtain ⟨cost, hcost, h⟩ := bind_ok_iff.mp h
  refine ⟨cost, bind_ok_iff.mpr ⟨v, hv, hcost⟩, ?_⟩
  split_ifs at h with hlt
  · obtain ⟨rfl, rfl⟩ := Prod.mk.inj (Except.ok.inj h)
    exact ⟨⟨nofun, fun hle => absurd hlt (not_lt.mpr hle)⟩, nofun, fun _ _ => rfl⟩
  · obtain ⟨x, hx, h⟩ := bind_ok_iff.mp h
    obtain ⟨cash, hcash, h⟩ := bind_ok_iff.mp h
    simp only [bind_ok_iff] at h
    obtain ⟨u, -, unit, -, p, -, h⟩ := h
    obtain ⟨rfl, rfl⟩ := Prod.mk.inj (Except.ok.inj h)
    refine ⟨⟨fun _ => not_lt.mp hlt, fun _ => rfl⟩, fun _ => ⟨x, hx, hcash⟩, ?_⟩
    intro s' hne
    simp [Account.qty, setPosition, hne]

/-- A buy is accepted exactly when it reaches the account and the cash covers its cost, and then
the cash pays it. -/
structure BuyAnswered (c : Context) (m : FillModel) (b : Book) (o : Order) (b' : Book) (ok : Bool) :
    Prop where
  computed : 0 < adjustQty o.symbol o.qty → ∃ cost, o.cost c m = .ok cost
  accepted_iff : ok = true ↔ 0 < adjustQty o.symbol o.qty ∧
    ∃ cost, o.cost c m = .ok cost ∧ cost ≤ b.account.cash
  paid : ok = true → ∃ cost x, o.cost c m = .ok cost ∧ c.finish (b.account.cash - cost) = .ok x ∧
    q c x = .ok b'.account.cash
  others : ∀ s, s ≠ o.symbol → b'.account.qty s = b.account.qty s

theorem buyAnswer_spec (hprice : 0 < o.price)
    (h : b.buyAnswer c m o.symbol o.qty ts o.price = .ok (b', ok)) : BuyAnswered c m b o b' ok := by
  unfold Book.buyAnswer at h
  dsimp only at h
  split_ifs at h with hskip
  · obtain ⟨rfl, rfl⟩ := Prod.mk.inj (Except.ok.inj h)
    have hle : adjustQty o.symbol o.qty ≤ 0 := hskip.resolve_right (not_le.mpr hprice)
    exact ⟨fun hpos => absurd hle (not_le.mpr hpos),
      ⟨nofun, fun hpos => absurd hle (not_le.mpr hpos.1)⟩, nofun, fun _ _ => rfl⟩
  · obtain ⟨fp, hfp, h⟩ := bind_ok_iff.mp h
    obtain ⟨fee, hfee, h⟩ := bind_ok_iff.mp h
    obtain ⟨⟨a', ok'⟩, happ, h⟩ := bind_ok_iff.mp h
    obtain ⟨rfl, rfl⟩ := Prod.mk.inj (Except.ok.inj h)
    obtain ⟨cost, hcost, hok, hcash, hqty⟩ := applyBuy_spec happ
    have hcost' : o.cost c m = .ok cost :=
      bind_ok_iff.mpr ⟨fp, hfp, bind_ok_iff.mpr ⟨fee, hfee, hcost⟩⟩
    refine ⟨fun _ => ⟨cost, hcost'⟩, ⟨?_, ?_⟩, ?_, hqty⟩
    · intro htrue
      exact ⟨not_le.mp (not_or.mp hskip).1, cost, hcost', hok.mp htrue⟩
    · rintro ⟨-, cost', hcost₁, hle⟩
      obtain rfl := Except.ok.inj (hcost'.symm.trans hcost₁)
      exact hok.mpr hle
    · intro htrue
      obtain ⟨x, hx, hrest⟩ := hcash htrue
      exact ⟨cost, x, hcost', hx, hrest⟩

theorem adjustQty_bounds (symbol : String) (hq : 0 < qbuy) :
    adjustQty symbol qbuy ≤ qbuy ∧ qbuy + 1 / 10 ^ 8 ≤ adjustQty symbol qbuy + qtyStep symbol ∧
      (0 < adjustQty symbol qbuy ↔ (assetClass symbol ≠ .coin → 1 ≤ qbuy)) := by
  unfold adjustQty qtyStep
  split_ifs with hcoin
  · simp [hcoin, hq]
  · have hfloor : Context.truncate qbuy = ⌊qbuy⌋ := if_pos hq.le
    have hlt := Int.lt_floor_add_one qbuy
    rw [hfloor]
    refine ⟨Int.floor_le qbuy, by linarith, ?_⟩
    rw [Int.cast_pos, Int.floor_pos]
    exact ⟨fun h _ => h, fun h => h hcoin⟩

theorem Order.cost_bounds (hc : c.Accurate ε) (hslip : m.slippageBps = 0) (hrate : 0 ≤ m.feeRate)
    (hprice : 0 < o.price) (hqty : 0 < adjustQty o.symbol o.qty) (h : o.cost c m = .ok cost) :
    0 ≤ cost ∧
      cost ≤ o.price * adjustQty o.symbol o.qty * (1 + m.feeRate) * (1 + 4 / 10 ^ 24) +
        5 / 10 ^ 5 * (1 + 1 / 10 ^ 24) ∧
      o.price * adjustQty o.symbol o.qty * (1 + m.feeRate) * (1 - 4 / 10 ^ 24) - 5 / 10 ^ 5 ≤
        cost := by
  obtain ⟨fp, hfp, hcost⟩ := bind_ok_iff.mp h
  obtain ⟨fee, hfees, hsum⟩ := bind_ok_iff.mp hcost
  obtain ⟨v, hv, hx⟩ := bind_ok_iff.mp hsum
  obtain rfl : o.price = fp := by
    rw [FillModel.fillPrice, if_pos hslip] at hfp
    exact Except.ok.inj hfp
  obtain ⟨v', hv', hrated⟩ := bind_ok_iff.mp hfees
  obtain rfl := Except.ok.inj (hv.symm.trans hv')
  obtain ⟨r, hr, hfee⟩ := bind_ok_iff.mp hrated
  have hX : 0 < o.price * adjustQty o.symbol o.qty := mul_pos hprice hqty
  generalize o.price * adjustQty o.symbol o.qty = X at hv hX ⊢
  have hv₁ := hc.finish_le hv hX.le
  have hv₂ := hc.le_finish hv hX.le
  have hv₀ := hc.nonneg_of_finish hv hX.le
  have hr₀ : 0 ≤ v * m.feeRate := mul_nonneg hv₀ hrate
  have hr₁ := hc.finish_le hr hr₀
  have hr₂ := hc.le_finish hr hr₀
  have hfee₀ := Context.quantizeFin_nonneg hfee (hc.nonneg_of_finish hr hr₀)
  have herr := abs_le.mp (Context.quantizeFin_error hfee)
  norm_num at herr
  have hx₁ := hc.finish_le hx (add_nonneg hv₀ hfee₀)
  have hx₂ := hc.le_finish hx (add_nonneg hv₀ hfee₀)
  have hvr₁ := mul_le_mul_of_nonneg_right hv₁ hrate
  have hvr₂ := mul_le_mul_of_nonneg_right hv₂ hrate
  have hXr : 0 ≤ X * m.feeRate := mul_nonneg hX.le hrate
  refine ⟨hc.nonneg_of_finish hx (add_nonneg hv₀ hfee₀), ?_, ?_⟩
  · linarith
  · linarith

theorem rate_bounds {rate : ℚ} (hrate : 0 ≤ rate) (hrate' : rate ≤ 1) :
    2000 / 2001 ≤ (1 + rate) / (1 + Rebalance.feeRate) ∧
      (1 + rate) / (1 + Rebalance.feeRate) ≤ 2 := by
  have hfee : (0 : ℚ) < 1 + Rebalance.feeRate := by norm_num [Rebalance.feeRate]
  rw [le_div_iff₀ hfee, div_le_iff₀ hfee]
  norm_num [Rebalance.feeRate]
  constructor
  · linarith
  · linarith

theorem rate_mul (rate : ℚ) :
    (1 + rate) / (1 + Rebalance.feeRate) * (1 + Rebalance.feeRate) = 1 + rate :=
  div_mul_cancel₀ _ (by norm_num [Rebalance.feeRate])

/-- What is due pays the cost and the rounding of the cash. -/
theorem Order.cost_le (hc : c.Accurate ε) (hslip : m.slippageBps = 0) (hrate : 0 ≤ m.feeRate)
    (hrate' : m.feeRate ≤ 1) {bud : Budget} (hprice : 0 < o.price)
    (hmin : minOrderKrw ≤ bud.amount) (hq : 0 < o.qty)
    (hafford : affordableQty c bud.amount o.price = .ok o.qty) (hqty : 0 < adjustQty o.symbol o.qty)
    (h : o.cost c m = .ok cost) :
    cost ≤ bud.due m.feeRate * (1 + 10 / 10 ^ 24) - 4994 / 10 ^ 8 := by
  have hmin' : (5000 : ℚ) ≤ bud.amount := hmin
  obtain ⟨-, hcost, -⟩ := Order.cost_bounds hc hslip hrate hprice hqty h
  obtain ⟨hρ, -⟩ := rate_bounds hrate hrate'
  have hsized := Rebalance.affordableQty_le hc hprice hmin hq.le hafford
  have hcut : o.price * adjustQty o.symbol o.qty ≤ o.qty * o.price := by
    rw [mul_comm o.qty]
    exact mul_le_mul_of_nonneg_left (adjustQty_bounds o.symbol hq).1 hprice.le
  have hpaid := mul_le_mul_of_nonneg_right hcut (by linarith : 0 ≤ 1 + m.feeRate)
  have hmul := rate_mul m.feeRate
  unfold Budget.due
  generalize (1 + m.feeRate) / (1 + Rebalance.feeRate) = ρ at hρ hmul ⊢
  have hdue : o.qty * o.price * (1 + m.feeRate) ≤
      (bud.amount * ρ - feeQuant * ρ) * (1 + 4 / 10 ^ 24) := by
    rw [← hmul]
    linarith [mul_le_mul_of_nonneg_left hsized (by linarith : 0 ≤ ρ)]
  have hpos : 0 ≤ bud.amount * ρ := mul_nonneg (by linarith) (by linarith)
  simp only [feeQuant] at hdue
  linarith

/-- What is due leaves a step of the quantity and a few fee units. -/
theorem Order.le_cost (hc : c.Accurate ε) (hslip : m.slippageBps = 0) (hrate : 0 ≤ m.feeRate)
    (hrate' : m.feeRate ≤ 1) {bud : Budget} (hprice : 0 < o.price)
    (hmin : minOrderKrw ≤ bud.amount) (hmax : bud.amount ≤ 10 ^ 15) (hq : 0 < o.qty)
    (hafford : affordableQty c bud.amount o.price = .ok o.qty) (hqty : 0 < adjustQty o.symbol o.qty)
    (h : o.cost c m = .ok cost) :
    bud.due m.feeRate ≤ cost + 3 * qtyStep o.symbol * o.price + 3 / 10 ^ 4 := by
  have hmin' : (5000 : ℚ) ≤ bud.amount := hmin
  obtain ⟨hle, hstep, -⟩ := adjustQty_bounds o.symbol hq
  obtain ⟨hρ, hρ'⟩ := rate_bounds hrate hrate'
  obtain ⟨-, -, hcost⟩ := Order.cost_bounds hc hslip hrate hprice hqty h
  have hupper := Rebalance.affordableQty_le hc hprice hmin hq.le hafford
  have hlower := Rebalance.le_affordableQty hc hprice hmin hafford
  have hunit : 0 < o.price * (1 + m.feeRate) := mul_pos hprice (by linarith)
  have hshort := mul_le_mul_of_nonneg_right hstep hunit.le
  have hcut := mul_le_mul_of_nonneg_right hle hunit.le
  have hs : 0 ≤ qtyStep o.symbol * o.price := by
    refine mul_nonneg ?_ hprice.le
    unfold qtyStep
    split_ifs <;> norm_num
  have hsr := mul_le_mul_of_nonneg_left hrate' hs
  have hmul := rate_mul m.feeRate
  unfold Budget.due
  generalize (1 + m.feeRate) / (1 + Rebalance.feeRate) = ρ at hρ hρ' hmul ⊢
  have hdue : (bud.amount * ρ - feeQuant * ρ) * (1 - 4 / 10 ^ 24) ≤
      (o.qty + 1 / 10 ^ 8) * (o.price * (1 + m.feeRate)) := by
    rw [← hmul]
    linarith [mul_le_mul_of_nonneg_left hlower (by linarith : 0 ≤ ρ)]
  have hsized : o.qty * (o.price * (1 + m.feeRate)) ≤
      (bud.amount * ρ - feeQuant * ρ) * (1 + 4 / 10 ^ 24) := by
    rw [← hmul]
    linarith [mul_le_mul_of_nonneg_left hupper (by linarith : 0 ≤ ρ)]
  have hsize : bud.amount * ρ ≤ 2 * 10 ^ 15 := by
    calc bud.amount * ρ ≤ 10 ^ 15 * 2 := mul_le_mul hmax hρ' (by linarith) (by norm_num)
      _ = 2 * 10 ^ 15 := by norm_num
  simp only [feeQuant] at hdue hsized
  linarith

theorem Budget.due_le_slack {bud : Budget} {rate : ℚ} (hc : c.Accurate ε) (hrate : 0 ≤ rate)
    (hrate' : rate ≤ 1) (hprice : 0 < bud.price) (hmin : minOrderKrw ≤ bud.amount) (hq : qbuy ≤ 0)
    (hafford : affordableQty c bud.amount bud.price = .ok qbuy) : bud.due rate ≤ bud.slack := by
  obtain ⟨hρ, hρ'⟩ := rate_bounds hrate hrate'
  have hlower := Rebalance.le_affordableQty hc hprice hmin hafford
  have hstep : 1 / 10 ^ 8 ≤ qtyStep bud.symbol := by
    unfold qtyStep
    split_ifs <;> norm_num
  have hs : 0 ≤ qtyStep bud.symbol * bud.price := mul_nonneg (le_trans (by norm_num) hstep) hprice.le
  have hunit : (qbuy + 1 / 10 ^ 8) * (bud.price * (1 + rate)) ≤
      qtyStep bud.symbol * (bud.price * (1 + rate)) :=
    mul_le_mul_of_nonneg_right (by linarith) (mul_nonneg hprice.le (by linarith))
  have hsr := mul_le_mul_of_nonneg_left hrate' hs
  have hmul := rate_mul rate
  unfold Budget.due Budget.slack
  generalize (1 + rate) / (1 + Rebalance.feeRate) = ρ at hρ hρ' hmul ⊢
  have hdue : (bud.amount * ρ - feeQuant * ρ) * (1 - 4 / 10 ^ 24) ≤
      (qbuy + 1 / 10 ^ 8) * (bud.price * (1 + rate)) := by
    rw [← hmul]
    linarith [mul_le_mul_of_nonneg_left hlower (by linarith : 0 ≤ ρ)]
  simp only [feeQuant] at hdue
  linarith

end Buys

/-! ## The buys of a loop -/

/-- Budgets spent one after the other: the orders they become, and the answers. -/
inductive Spent (c : Context) (m : FillModel) (ts : ℚ) :
    Book → List Budget → List Order → List Bool → Book → Prop
  | nil (b : Book) : Spent c m ts b [] [] [] b
  | idle {b b' : Book} (bud : Budget) {bs : List Budget} {os : List Order} {oks : List Bool}
      {qbuy : ℚ} : affordableQty c bud.amount bud.price = .ok qbuy → qbuy ≤ 0 →
      Spent c m ts b bs os oks b' → Spent c m ts b (bud :: bs) os oks b'
  | buy {b b₁ b' : Book} {bud : Budget} {bs : List Budget} {os : List Order} {oks : List Bool}
      {qbuy : ℚ} {ok : Bool} : affordableQty c bud.amount bud.price = .ok qbuy → 0 < qbuy →
      b.buyAnswer c m bud.symbol qbuy ts bud.price = .ok (b₁, ok) →
      Spent c m ts b₁ bs os oks b' →
      Spent c m ts b (bud :: bs) (⟨.buy, bud.symbol, qbuy, bud.price⟩ :: os) (ok :: oks) b'

/-- A budget as the loop makes it. -/
structure Budget.Fair (cash : ℚ) (b : Budget) : Prop where
  price_pos : 0 < b.price
  min_le : minOrderKrw ≤ b.amount
  le_cash : b.amount ≤ cash

section Spending

variable {c : Context} {ε : ℚ} {m : FillModel} {b b' : Book} {bs : List Budget} {os : List Order}
  {oks : List Bool} {ts : ℚ}

theorem Spent.answers (h : Spent c m ts b bs os oks b') : answers c m ts b os = .ok (b', oks) := by
  induction h with
  | nil b => rfl
  | idle _ _ _ _ ih => exact ih
  | @buy b b₁ b' bud bs os oks qbuy ok _ _ hanswer _ ih =>
    rw [Backtest.answers]
    dsimp only
    rw [hanswer]
    change (Backtest.answers c m ts b₁ os >>= fun r => pure (r.1, ok :: r.2)) = _
    rw [ih]
    rfl

theorem Budget.Fair.due_bounds {bud : Budget} {cash rate : ℚ} (h : bud.Fair cash) (hrate : 0 ≤ rate)
    (hrate' : rate ≤ 1) : 4995 ≤ bud.due rate ∧ bud.due rate ≤ 2 * cash := by
  have hmin : (5000 : ℚ) ≤ bud.amount := h.min_le
  obtain ⟨hρ, hρ'⟩ := rate_bounds hrate hrate'
  constructor
  · calc (4995 : ℚ) ≤ 5000 * (2000 / 2001) := by norm_num
      _ ≤ bud.due rate := mul_le_mul hmin hρ (by norm_num) (by linarith)
  · calc bud.due rate ≤ bud.amount * 2 := mul_le_mul_of_nonneg_left hρ' (by linarith)
      _ ≤ 2 * cash := by linarith [h.le_cash]

/-- While what is due fits in the cash every buy is accepted; `k` buys before have moved the cash
by a fraction of a fee unit each. -/
theorem Spent.accepted (hc : c.Accurate ε) (hslip : m.slippageBps = 0) (hrate : 0 ≤ m.feeRate)
    (hrate' : m.feeRate ≤ 1) (h : Spent c m ts b bs os oks b')
    (hfair : ∀ bud ∈ bs, bud.Fair (10 ^ 15)) (hwhole : ∀ bud ∈ bs, bud.Whole c) {k : ℕ}
    (hk : k + bs.length ≤ 500) (hcash : b.account.cash ≤ 10 ^ 15 + k)
    (hsum : (bs.map (Budget.due m.feeRate)).sum ≤ b.account.cash + k * (9 / 10 ^ 8)) :
    ∀ ok ∈ oks, ok = true := by
  induction h generalizing k with
  | nil b => exact List.forall_mem_nil _
  | @idle b b' bud bs os oks qbuy _ _ _ ih =>
    rw [List.map_cons, List.sum_cons] at hsum
    have hdue := ((hfair bud List.mem_cons_self).due_bounds hrate hrate').1
    refine ih (fun bud h => hfair bud (List.mem_cons_of_mem _ h))
      (fun bud h => hwhole bud (List.mem_cons_of_mem _ h)) ?_ hcash (by linarith)
    rw [List.length_cons] at hk
    omega
  | @buy b b₁ b' bud bs os oks qbuy ok hafford hpos hanswer _ ih =>
    rw [List.map_cons, List.sum_cons] at hsum
    rw [List.length_cons] at hk
    have hfair₁ := hfair bud List.mem_cons_self
    obtain ⟨hdue, hdue'⟩ := hfair₁.due_bounds hrate hrate'
    have hrest : 0 ≤ (bs.map (Budget.due m.feeRate)).sum := by
      refine List.sum_nonneg fun x hx => ?_
      obtain ⟨bud', hbud', rfl⟩ := List.mem_map.mp hx
      exact le_trans (by norm_num)
        ((hfair bud' (List.mem_cons_of_mem _ hbud')).due_bounds hrate hrate').1
    have hanswered := buyAnswer_spec (o := ⟨.buy, bud.symbol, qbuy, bud.price⟩) hfair₁.price_pos
      hanswer
    have hqty : 0 < adjustQty bud.symbol qbuy := (adjustQty_bounds bud.symbol hpos).2.2.mpr
      (hwhole bud List.mem_cons_self qbuy hafford hpos)
    obtain ⟨cost, hcost⟩ := hanswered.computed hqty
    have hle := Order.cost_le (o := ⟨.buy, bud.symbol, qbuy, bud.price⟩) hc hslip hrate hrate'
      hfair₁.price_pos hfair₁.min_le hpos hafford hqty hcost
    have hcost₀ := (Order.cost_bounds (o := ⟨.buy, bud.symbol, qbuy, bud.price⟩) hc hslip hrate
      hfair₁.price_pos hqty hcost).1
    have hk' : (k : ℚ) ≤ 499 := by exact_mod_cast (by omega : k ≤ 499)
    have hcovered : cost ≤ b.account.cash := by linarith
    have htrue : ok = true := hanswered.accepted_iff.mpr ⟨hqty, cost, hcost, hcovered⟩
    obtain ⟨cost', x, hcost', hx, hleft⟩ := hanswered.paid htrue
    obtain rfl := Except.ok.inj (hcost.symm.trans hcost')
    have hx₁ := hc.finish_le hx (sub_nonneg.mpr hcovered)
    have hx₂ := hc.le_finish hx (sub_nonneg.mpr hcovered)
    have hq := abs_le.mp (Context.quantizeFin_error hleft)
    norm_num at hq
    rw [List.forall_mem_cons]
    refine ⟨htrue, ih (k := k + 1) (fun bud h => hfair bud (List.mem_cons_of_mem _ h))
      (fun bud h => hwhole bud (List.mem_cons_of_mem _ h)) (by omega) ?_ ?_⟩
    · push_cast
      linarith
    · push_cast
      linarith

/-- Accepted buys have left the cash what it is, and what is due exceeds it by the slack at most. -/
theorem Spent.sum_le (hc : c.Accurate ε) (hslip : m.slippageBps = 0) (hrate : 0 ≤ m.feeRate)
    (hrate' : m.feeRate ≤ 1) (h : Spent c m ts b bs os oks b')
    (hfair : ∀ bud ∈ bs, bud.Fair (10 ^ 15)) {k : ℕ} (hk : k + bs.length ≤ 500)
    (hcash : b.account.cash ≤ 10 ^ 15 + k) (hcash₀ : 0 ≤ b.account.cash)
    (hall : ∀ ok ∈ oks, ok = true) : (∀ bud ∈ bs, bud.Whole c) ∧
      (bs.map (Budget.due m.feeRate)).sum ≤ b.account.cash + (bs.map Budget.slack).sum := by
  induction h generalizing k with
  | nil b => exact ⟨List.forall_mem_nil _, by simpa using hcash₀⟩
  | @idle b b' bud bs os oks qbuy hafford hnone _ ih =>
    rw [List.length_cons] at hk
    obtain ⟨hprice, hmin, hmax⟩ := hfair bud List.mem_cons_self
    obtain ⟨hwhole, hsum⟩ := ih (fun bud h => hfair bud (List.mem_cons_of_mem _ h)) (k := k)
      (by omega) hcash hcash₀ hall
    rw [List.forall_mem_cons, List.map_cons, List.map_cons, List.sum_cons, List.sum_cons]
    refine ⟨⟨fun qbuy' hq hpos => ?_, hwhole⟩, ?_⟩
    · obtain rfl := Except.ok.inj (hafford.symm.trans hq)
      exact absurd hnone (not_le.mpr hpos)
    · -- too little for a step of the quantity
      have hslack := Budget.due_le_slack hc hrate hrate' hprice hmin hnone hafford
      linarith
  | @buy b b₁ b' bud bs os oks qbuy ok hafford hpos hanswer _ ih =>
    rw [List.length_cons] at hk
    rw [List.forall_mem_cons] at hall
    obtain ⟨rfl, hall⟩ := hall
    obtain ⟨hprice, hmin, hmax⟩ := hfair bud List.mem_cons_self
    obtain ⟨-, hdue'⟩ := (hfair bud List.mem_cons_self).due_bounds hrate hrate'
    have hanswered := buyAnswer_spec (o := ⟨.buy, bud.symbol, qbuy, bud.price⟩) hprice hanswer
    obtain ⟨hqty, cost, hcost, hcovered⟩ := hanswered.accepted_iff.mp rfl
    obtain ⟨cost', x, hcost', hx, hleft⟩ := hanswered.paid rfl
    obtain rfl := Except.ok.inj (hcost.symm.trans hcost')
    have hle := Order.le_cost (o := ⟨.buy, bud.symbol, qbuy, bud.price⟩) hc hslip hrate hrate' hprice
      hmin hmax hpos hafford hqty hcost
    have hcost₀ := (Order.cost_bounds (o := ⟨.buy, bud.symbol, qbuy, bud.price⟩) hc hslip hrate
      hprice hqty hcost).1
    have hx₁ := hc.finish_le hx (sub_nonneg.mpr hcovered)
    have hx₀ := hc.nonneg_of_finish hx (sub_nonneg.mpr hcovered)
    have hq := abs_le.mp (Context.quantizeFin_error hleft)
    norm_num at hq
    have hk' : (k : ℚ) ≤ 499 := by exact_mod_cast (by omega : k ≤ 499)
    obtain ⟨hwhole, hsum⟩ := ih (fun bud h => hfair bud (List.mem_cons_of_mem _ h)) (k := k + 1)
      (by omega) (by push_cast; linarith) (Context.quantizeFin_nonneg hleft hx₀) hall
    rw [List.forall_mem_cons, List.map_cons, List.map_cons, List.sum_cons, List.sum_cons]
    refine ⟨⟨fun qbuy' hq' hpos' => ?_, hwhole⟩, ?_⟩
    · obtain rfl := Except.ok.inj (hafford.symm.trans hq')
      exact (adjustQty_bounds bud.symbol hpos').2.2.mp hqty
    · have hslack : bud.due m.feeRate ≤ cost + bud.slack - 7 / 10 ^ 4 := by
        dsimp only at hle
        unfold Budget.slack
        linarith
      linarith

end Spending

/-! ## The loops -/

/-- The buy that an amount becomes at a price; without one there is no buy. -/
inductive Buys (c : Context) (px cash : ℚ) : Option (Side × ℚ) → Option ℚ → Prop
  | none {order : Option (Side × ℚ)} : (∀ q, order ≠ some (.buy, q)) → Buys c px cash order none
  | some {amount qbuy : ℚ} : 0 < px → minOrderKrw ≤ amount → amount ≤ cash →
      affordableQty c amount px = .ok qbuy →
      Buys c px cash (Rebalance.positive .buy qbuy) (some amount)

section Loops

variable {c : Context} {cfg : XSConfig} {snapshot prices : String → Option ℚ} {longs : List String}
  {tw cash equity ts qty px w band : ℚ} {F : Type} [PyFloat F] {b b' : Book} {os os' : List Order}
  {a : Account} {order : Option (Side × ℚ)}

theorem sells_run {held : List String}
    (h : held.foldlM (sellStep c cfg snapshot prices longs tw cash equity ts F) (b, os) =
      .ok (b', os')) :
    ∃ sells, os' = os ++ sells ∧ ∀ buys,
      answers c cfg.fills ts b (sells ++ buys) = answers c cfg.fills ts b' buys := by
  induction held generalizing b os with
  | nil =>
    obtain ⟨rfl, rfl⟩ := Prod.mk.inj (Except.ok.inj h)
    exact ⟨[], by simp, fun _ => rfl⟩
  | cons sym held ih =>
    rw [List.foldlM_cons] at h
    obtain ⟨⟨b₁, os₁⟩, hstep, h⟩ := bind_ok_iff.mp h
    obtain ⟨sells, rfl, hsells⟩ := ih h
    unfold sellStep at hstep
    dsimp only at hstep
    by_cases hpx : (snapshot sym).getD ((prices sym).getD 0) ≤ 0
    · rw [if_pos hpx] at hstep
      obtain ⟨rfl, rfl⟩ := Prod.mk.inj (Except.ok.inj hstep)
      exact ⟨sells, rfl, hsells⟩
    · rw [if_neg hpx] at hstep
      obtain ⟨order, -, hstep⟩ := bind_ok_iff.mp hstep
      split at hstep
      · rename_i qty
        obtain ⟨b₂, hsell, hstep⟩ := bind_ok_iff.mp hstep
        obtain ⟨rfl, rfl⟩ := Prod.mk.inj (Except.ok.inj hstep)
        refine ⟨_ :: sells, by rw [List.append_assoc]; rfl, fun buys => ?_⟩
        rw [← hsells buys]
        change (b.sell c cfg.fills sym qty ts _ >>= fun b => answers c cfg.fills ts b _) = _
        rw [hsell]
        rfl
      · obtain ⟨rfl, rfl⟩ := Prod.mk.inj (Except.ok.inj hstep)
        exact ⟨sells, rfl, hsells⟩

/-- What the difference to a target may spend, and the order of that difference. -/
theorem rebalanceTo_budget {v t : ℚ} (hpx : 0 < px)
    (h : Rebalance.rebalanceTo c qty px cash v t = .ok order) :
    ∃ amount, (if t ≤ v then return none
        else do
          let budget := min (← c.finish (t - v)) cash
          return if budget < minOrderKrw then none else some budget : Except Signal (Option ℚ)) =
            .ok amount ∧ Buys c px cash order amount := by
  have hto := h
  unfold Rebalance.rebalanceTo at h
  split_ifs at h with hlt
  · rw [if_neg (not_le.mpr hlt)]
    obtain ⟨gap, hgap, h⟩ := bind_ok_iff.mp h
    dsimp only at h
    split_ifs at h with hmin
    · obtain rfl := Except.ok.inj h
      refine ⟨none, bind_ok_iff.mpr ⟨gap, hgap, ?_⟩, .none nofun⟩
      dsimp only
      rw [if_pos hmin]
      rfl
    · obtain ⟨qbuy, hq, h⟩ := bind_ok_iff.mp h
      obtain rfl := Except.ok.inj h
      refine ⟨some (min gap cash), bind_ok_iff.mpr ⟨gap, hgap, ?_⟩,
        .some hpx (not_lt.mp hmin) (min_le_right _ _) hq⟩
      dsimp only
      rw [if_neg hmin]
      rfl
  · rw [if_pos (not_lt.mp hlt)]
    refine ⟨none, rfl, .none ?_⟩
    rintro q rfl
    obtain ⟨-, ⟨-, hlt', -⟩ | ⟨hside, -⟩⟩ := Rebalance.rebalanceTo_cases hto
    · exact hlt hlt'
    · cases hside

theorem decide_buys (h : Rebalance.decide c qty px cash equity w band = .ok order) :
    ∃ amount, buyBudget c qty px cash equity w band = .ok amount ∧ Buys c px cash order amount := by
  unfold Rebalance.decide at h
  unfold buyBudget
  by_cases hno : px ≤ 0 ∨ equity ≤ 0
  · rw [if_pos hno] at h
    obtain rfl := Except.ok.inj h
    exact ⟨none, if_pos (hno.imp_right Or.inl), .none nofun⟩
  rw [if_neg hno] at h
  obtain ⟨hpx, hequity⟩ := not_or.mp hno
  by_cases hw : w ≤ 0
  · rw [if_pos hw] at h
    obtain rfl := Except.ok.inj h
    refine ⟨none, if_pos (Or.inr (Or.inr hw)), .none fun q hq => ?_⟩
    cases (Rebalance.positive_eq_some_iff.mp hq).1
  rw [if_neg hw] at h
  rw [if_neg (not_or.mpr ⟨hpx, not_or.mpr ⟨hequity, hw⟩⟩)]
  obtain ⟨v, hv, h⟩ := bind_ok_iff.mp h
  obtain ⟨t, ht, h⟩ := bind_ok_iff.mp h
  rw [hv]
  change ∃ amount, (c.finish (equity * w) >>= _) = _ ∧ _
  rw [ht]
  change ∃ amount, (if 0 < qty then _ else _) = _ ∧ _
  by_cases hheld : 0 < qty
  · rw [if_pos hheld] at h ⊢
    obtain ⟨within, hwithin, h⟩ := bind_ok_iff.mp h
    rw [hwithin]
    cases within with
    | true =>
      obtain rfl := Except.ok.inj h
      exact ⟨none, rfl, .none nofun⟩
    | false => exact rebalanceTo_budget (not_le.mp hpx) h
  · rw [if_neg hheld] at h ⊢
    exact rebalanceTo_budget (not_le.mp hpx) h

theorem buyStep_eq (sym : String) :
    buyStep c cfg snapshot tw cash equity ts F (b, os) sym =
      Rebalance.decide c (b.account.qty sym) ((snapshot sym).getD 0) cash equity (viaFloat F tw)
        cfg.band >>= fun o =>
        match o with
        | some (.buy, qty) => b.buy c cfg.fills sym qty ts ((snapshot sym).getD 0) >>= fun b =>
          pure (b, os ++ [⟨.buy, sym, qty, (snapshot sym).getD 0⟩])
        | _ => pure (b, os) := rfl

theorem budgets_cons {sym : String} {amount : Option ℚ} {bs : List Budget}
    (hamount : buyBudget c (a.qty sym) ((snapshot sym).getD 0) cash equity (viaFloat F tw)
      cfg.band = .ok amount)
    (hbs : budgets c cfg snapshot tw cash equity F a longs = .ok bs) :
    budgets c cfg snapshot tw cash equity F a (sym :: longs) =
      .ok ((amount.map (Budget.mk sym ((snapshot sym).getD 0))).toList ++ bs) := by
  rw [budgets, hamount]
  change (budgets c cfg snapshot tw cash equity F a longs >>= fun r => pure (_ ++ r)) = _
  rw [hbs]
  rfl

/-- The second loop spends the budgets that are made before it. -/
theorem buys_run (hnodup : longs.Nodup) (hqty : ∀ sym ∈ longs, b.account.qty sym = a.qty sym)
    (h : longs.foldlM (buyStep c cfg snapshot tw cash equity ts F) (b, os) = .ok (b', os')) :
    ∃ bs buys oks, budgets c cfg snapshot tw cash equity F a longs = .ok bs ∧ os' = os ++ buys ∧
      Spent c cfg.fills ts b bs buys oks b' ∧ (∀ bud ∈ bs, bud.Fair cash) ∧
      bs.length ≤ longs.length := by
  induction longs generalizing b os with
  | nil =>
    obtain ⟨rfl, rfl⟩ := Prod.mk.inj (Except.ok.inj h)
    exact ⟨[], [], [], rfl, by simp, .nil b, List.forall_mem_nil _, le_rfl⟩
  | cons sym longs ih =>
    obtain ⟨hsym, hrest⟩ := List.nodup_cons.mp hnodup
    rw [List.foldlM_cons, buyStep_eq] at h
    obtain ⟨⟨b₁, os₁⟩, hstep, h⟩ := bind_ok_iff.mp h
    obtain ⟨order, hdecide, happlied⟩ := bind_ok_iff.mp hstep
    obtain ⟨amount, hamount, hbuys⟩ := decide_buys hdecide
    rw [hqty sym List.mem_cons_self] at hamount
    cases hbuys with
    | none hno =>
      obtain ⟨rfl, rfl⟩ : b = b₁ ∧ os = os₁ := by
        split at happlied
        · exact absurd rfl (hno _)
        · exact Prod.mk.inj (Except.ok.inj happlied)
      obtain ⟨bs, buys, oks, hbs, hos, hspent, hfair, hlen⟩ :=
        ih hrest (fun s hs => hqty s (List.mem_cons_of_mem _ hs)) h
      exact ⟨bs, buys, oks, budgets_cons hamount hbs, hos, hspent, hfair,
        hlen.trans (Nat.le_succ _)⟩
    | @some amount qbuy hpx hmin hle hafford =>
      by_cases hpos : 0 < qbuy
      · rw [Rebalance.positive, if_pos hpos] at happlied
        obtain ⟨b₂, hbuy, happlied⟩ := bind_ok_iff.mp happlied
        obtain ⟨rfl, rfl⟩ := Prod.mk.inj (Except.ok.inj happlied)
        rw [Book.buy_eq] at hbuy
        obtain ⟨⟨b₂, ok⟩, hanswer, rfl⟩ := map_ok_iff.mp hbuy
        have hothers := (buyAnswer_spec (o := ⟨.buy, sym, qbuy, _⟩) hpx hanswer).others
        obtain ⟨bs, buys, oks, hbs, rfl, hspent, hfair, hlen⟩ := ih hrest (by
          intro s hs
          have hne : s ≠ sym := fun heq => hsym (heq ▸ hs)
          rw [hothers s hne, hqty s (List.mem_cons_of_mem _ hs)]) h
        exact ⟨_, _, _, budgets_cons hamount hbs, by simp, .buy hafford hpos hanswer hspent,
          List.forall_mem_cons.mpr ⟨⟨hpx, hmin, hle⟩, hfair⟩, Nat.succ_le_succ hlen⟩
      · rw [Rebalance.positive, if_neg hpos] at happlied
        obtain ⟨rfl, rfl⟩ := Prod.mk.inj (Except.ok.inj happlied)
        obtain ⟨bs, buys, oks, hbs, hos, hspent, hfair, hlen⟩ :=
          ih hrest (fun s hs => hqty s (List.mem_cons_of_mem _ hs)) h
        exact ⟨_, _, _, budgets_cons hamount hbs, hos,
          .idle ⟨sym, _, amount⟩ hafford (not_lt.mp hpos) hspent,
          List.forall_mem_cons.mpr ⟨⟨hpx, hmin, hle⟩, hfair⟩, Nat.succ_le_succ hlen⟩

end Loops

/-! ## A bar -/

/-- What budgets are due at a fee rate fits in a cash, up to a slack for each of them, and stocks are
bought in whole shares. -/
structure Covers (c : Context) (rate cash : ℚ) (slack : Budget → ℚ) (bs : List Budget) : Prop where
  whole : ∀ bud ∈ bs, bud.Whole c
  total : (bs.map (Budget.due rate)).sum ≤ cash + (bs.map slack).sum

section Bar

variable (c : Context) (cfg : XSConfig) (snapshot prices : String → Option ℚ) (longs : List String)
  (ts : ℚ)

/-- The book after the sales, and the budgets of the second loop on it. -/
def afterSales (F : Type) [PyFloat F] (book : Book) : Except Signal (Book × List Budget) := do
  let tw := min (← c.divFin 1 longs.length) cfg.maxWeight
  let equity ← book.equity c prices
  let sold ← (cfg.order.union book.held longs).foldlM
    (sellStep c cfg snapshot prices longs tw book.account.cash equity ts F) (book, [])
  let equity ← sold.1.equity c prices
  let bs ← budgets c cfg snapshot tw sold.1.account.cash equity F sold.1.account longs
  return (sold.1, bs)

variable {c cfg snapshot prices longs ts} {ε : ℚ} {F : Type} [PyFloat F] {book book' sold : Book}
  {orders : List Order} {bs : List Budget} {s : Sim F}

/-- The buys of a bar spend its budgets after the sales. -/
theorem rebalance_spent (hnodup : longs.Nodup)
    (h : rebalance c cfg snapshot prices longs ts F book = .ok (book', orders)) :
    ∃ sold bs buys oks, afterSales c cfg snapshot prices longs ts F book = .ok (sold, bs) ∧
      Spent c cfg.fills ts sold bs buys oks book' ∧ (∀ bud ∈ bs, bud.Fair sold.account.cash) ∧
      bs.length ≤ longs.length ∧
      (NeverRefused c cfg.fills ts book orders ↔ ∀ ok ∈ oks, ok = true) := by
  unfold rebalance at h
  obtain ⟨weight, hweight, h⟩ := bind_ok_iff.mp h
  obtain ⟨equity, hequity, h⟩ := bind_ok_iff.mp h
  obtain ⟨⟨sold, sales⟩, hsold, h⟩ := bind_ok_iff.mp h
  obtain ⟨equity', hequity', h⟩ := bind_ok_iff.mp h
  obtain ⟨sells, rfl, hsells⟩ := sells_run hsold
  obtain ⟨bs, buys, oks, hbs, rfl, hspent, hfair, hlen⟩ := buys_run hnodup (fun _ _ => rfl) h
  refine ⟨sold, bs, buys, oks, ?_, hspent, hfair, hlen, ?_⟩
  · simp only [afterSales, bind_ok_iff]
    exact ⟨weight, hweight, equity, hequity, _, hsold, equity', hequity', bs, hbs, rfl⟩
  · rw [NeverRefused, hsells, hspent.answers]
    simp

theorem Budget.Fair.mono {bud : Budget} {cash cash' : ℚ} (h : bud.Fair cash) (hle : cash ≤ cash') :
    bud.Fair cash' :=
  ⟨h.price_pos, h.min_le, h.le_cash.trans hle⟩

theorem keys_sublist {α : Type} {f : String → Option (String × α)}
    (hf : ∀ n x, f n = some x → x.1 = n) (l : List String) :
    List.Sublist ((l.filterMap f).map Prod.fst) l := by
  induction l with
  | nil => exact List.Sublist.refl []
  | cons n l ih =>
    cases hn : f n with
    | none =>
      rw [List.filterMap_cons_none hn]
      exact ih.cons n
    | some x =>
      rw [List.filterMap_cons_some hn, List.map_cons, hf n x hn]
      exact ih.cons_cons n

theorem Sim.longs_nodup (hnodup : s.known.Nodup) : (s.longs cfg).Nodup := by
  have hkeys : List.Sublist ((s.scores cfg.lookback).map Prod.fst) s.known := by
    apply keys_sublist
    intro n x hx
    split_ifs at hx
    obtain ⟨r, -, rfl⟩ := Option.map_eq_some_iff.mp hx
    rfl
  have hranked : (rank cfg.ranking (s.scores cfg.lookback)).Nodup :=
    ((List.perm_insertionSort _ (s.scores cfg.lookback)).map Prod.fst).nodup_iff.mpr
      (List.Nodup.sublist hkeys hnodup)
  exact List.Nodup.sublist (List.take_sublist _ _) hranked

/-- The bar trades: it has two symbols and a candidate. -/
def Sim.Trades (s : Sim F) (cfg : XSConfig) : Prop := 2 ≤ s.observed.length ∧ s.longs cfg ≠ []

/-- A bar that does not trade refuses nothing. In one that trades every buy is accepted if the
budgets of the longs, each the value that is missing to the target within the cash, together fit in
the cash after the sales; and if every buy is accepted, they exceed that cash by no more than the
rounding of their quantities. -/
theorem Sim.accepted_of_budgets (hnodup : s.known.Nodup) (hslip : cfg.fills.slippageBps = 0)
    (hrate : 0 ≤ cfg.fills.feeRate) (hrate' : cfg.fills.feeRate ≤ 1) (htop : cfg.topN ≤ 500)
    (h : s.onBarClose .default cfg prices ts = .ok (book', orders)) :
    (¬ s.Trades cfg → NeverRefused .default cfg.fills ts s.book orders) ∧
      (s.Trades cfg → ∃ sold bs,
        afterSales .default cfg s.snapshot prices (s.longs cfg) ts F s.book = .ok (sold, bs) ∧
          (sold.account.cash ≤ 10 ^ 15 →
            (Covers .default cfg.fills.feeRate sold.account.cash (fun _ => 0) bs →
              NeverRefused .default cfg.fills ts s.book orders) ∧
            (0 ≤ sold.account.cash → NeverRefused .default cfg.fills ts s.book orders →
              Covers .default cfg.fills.feeRate sold.account.cash Budget.slack bs))) := by
  unfold Sim.onBarClose at h
  split_ifs at h with hskip
  · obtain ⟨rfl, rfl⟩ := Prod.mk.inj (Except.ok.inj h)
    refine ⟨fun _ => ⟨(s.book, []), rfl, nofun⟩, ?_⟩
    rintro ⟨hlen, hlongs⟩
    rcases hskip with hlt | hnil
    · omega
    · exact absurd hnil hlongs
  · obtain ⟨hlen, hlongs⟩ := not_or.mp hskip
    refine ⟨fun hno => absurd ⟨not_lt.mp hlen, hlongs⟩ hno, fun _ => ?_⟩
    obtain ⟨sold, bs, buys, oks, hafter, hspent, hfair, hcount, hiff⟩ :=
      rebalance_spent (Sim.longs_nodup hnodup) h
    have hbs : 0 + bs.length ≤ 500 := by
      have := List.length_take_le cfg.topN (rank cfg.ranking (s.scores cfg.lookback))
      rw [← Sim.longs] at this
      omega
    refine ⟨sold, bs, hafter, fun hcash => ⟨?_, ?_⟩⟩
    · intro hcovers
      rw [hiff]
      refine hspent.accepted Context.accurate_default hslip hrate hrate'
        (fun bud hb => (hfair bud hb).mono hcash) hcovers.whole hbs (by simpa using hcash) ?_
      simpa using hcovers.total
    · intro hcash₀ hnever
      have hall := hspent.sum_le Context.accurate_default hslip hrate hrate'
        (fun bud hb => (hfair bud hb).mono hcash) hbs (by simpa using hcash) hcash₀ (hiff.mp hnever)
      exact ⟨hall.1, hall.2⟩

end Bar

/-! ## A bar with a refused buy -/

section Crowded

attribute [local instance] PyFloat.rational

theorem mem_dedupUnion (a b : List String) (s : String) :
    s ∈ (a ++ b).dedup ↔ s ∈ a ∨ s ∈ b := by
  rw [List.mem_dedup, List.mem_append]

def fifths : XSConfig where
  ranking := .reversal
  barSec := 60
  lookback := 1
  topN := 10
  band := 3 / 10
  maxWeight := 1 / 5
  order := ⟨fun a b => (a ++ b).dedup, mem_dedupUnion⟩
  fills := ⟨5 / 10000, 0⟩

def fiveCoins : List String := ["KRW-A", "KRW-B", "KRW-C", "KRW-D", "KRW-E"]

/-- Three coins have grown to a quarter of the book each, the last quarter is cash. -/
def crowded : Sim ℚ where
  book := ⟨⟨250000, fun s => if s ∈ fiveCoins.take 3 then some ⟨250, 800, 0, 800, 100⟩ else none⟩,
    fiveCoins.take 3⟩
  prices := fun s => if s ∈ fiveCoins then some 1000 else none
  curBar := some 1
  observed := fiveCoins
  snapshot := fun s => if s ∈ fiveCoins then some 1000 else none
  known := fiveCoins
  history := fun s => if s ∈ fiveCoins then [1000, 1000] else []
  orders := []

theorem crowded_known : crowded.known.Nodup := by decide

theorem crowded_snapshot (s : String) (px : ℚ) (h : crowded.snapshot s = some px) : 0 < px := by
  dsimp only [crowded] at h
  split_ifs at h
  obtain rfl := Option.some.inj h
  norm_num

/-- The coins above their target stay, and the two buys of a fifth each want more than a quarter:
the second one is refused. -/
theorem crowded_refused : ∃ book' orders,
    crowded.onBarClose .default fifths crowded.prices 120 = .ok (book', orders) ∧
      fifths.fills.slippageBps = 0 ∧ crowded.known.Nodup ∧
      (∀ s px, crowded.snapshot s = some px → 0 < px) ∧
      ¬ NeverRefused .default fifths.fills 120 crowded.book orders := by
  have hview : (fun r => Prod.snd <$> answers .default fifths.fills 120 crowded.book r.2) <$>
      crowded.onBarClose .default fifths crowded.prices 120 = .ok (.ok [true, false]) := by
    decide +kernel
  obtain ⟨⟨book', orders⟩, hbar, hanswers⟩ := map_ok_iff.mp hview
  refine ⟨book', orders, hbar, rfl, crowded_known, crowded_snapshot, ?_⟩
  rintro ⟨r, hr, hall⟩
  obtain ⟨r', hr', hoks⟩ := map_ok_iff.mp hanswers
  obtain rfl := Except.ok.inj (hr.symm.trans hr')
  have := hall false (by rw [hoks]; simp)
  cases this

/-- Three coins and a stock. -/
def fourSymbols : List String := ["KRW-A", "KRW-B", "KRW-C", "005930"]

/-- The first coin has grown to three fifths of the book, the rest is cash. -/
def roomy : Sim ℚ where
  book := ⟨⟨400000, fun s => if s = "KRW-A" then some ⟨600, 800, 0, 800, 100⟩ else none⟩, ["KRW-A"]⟩
  prices := fun s => if s ∈ fourSymbols then some 1000 else none
  curBar := some 1
  observed := fourSymbols
  snapshot := fun s => if s ∈ fourSymbols then some 1000 else none
  known := fourSymbols
  history := fun s => if s ∈ fourSymbols then [1000, 1000] else []
  orders := []

/-- The sale frees what three buys of a fifth are due, and all of them are accepted. -/
theorem accepted_of_budgets_roomy : ∃ book' orders,
    roomy.onBarClose .default fifths roomy.prices 120 = .ok (book', orders) ∧
      orders.map (fun o => (o.side, o.symbol)) =
        [(.sell, "KRW-A"), (.buy, "KRW-B"), (.buy, "KRW-C"), (.buy, "005930")] ∧
      NeverRefused .default fifths.fills 120 roomy.book orders := by
  have hview : (fun r => r.2.map fun o => (o.side, o.symbol)) <$>
      roomy.onBarClose .default fifths roomy.prices 120 =
        .ok [(.sell, "KRW-A"), (.buy, "KRW-B"), (.buy, "KRW-C"), (.buy, "005930")] := by
    decide +kernel
  obtain ⟨⟨book', orders⟩, hbar, horders⟩ := map_ok_iff.mp hview
  obtain ⟨-, hbudgets⟩ := Sim.accepted_of_budgets (by decide) rfl (by norm_num [fifths])
    (by norm_num [fifths]) (by decide) hbar
  obtain ⟨sold, bs, hafter, hcovers⟩ := hbudgets ⟨by decide, by decide +kernel⟩
  have hcash : (fun r => (r.1.account.cash, r.2)) <$> afterSales .default fifths roomy.snapshot
      roomy.prices (roomy.longs fifths) 120 ℚ roomy.book =
        .ok (799800, [⟨"KRW-B", 1000, 199960⟩, ⟨"KRW-C", 1000, 199960⟩, ⟨"005930", 1000, 199960⟩]) := by
    decide +kernel
  obtain ⟨r, hr, hsold⟩ := map_ok_iff.mp hcash
  obtain rfl := Except.ok.inj (hafter.symm.trans hr)
  obtain ⟨hcash, rfl⟩ := Prod.mk.inj hsold
  rw [hcash] at hcovers
  refine ⟨book', orders, hbar, horders, (hcovers (by norm_num)).1 ⟨by decide +kernel, ?_⟩⟩
  decide +kernel

end Crowded

end QuantTrader.Backtest
