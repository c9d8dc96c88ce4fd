import QuantTrader.Backtest.CrossSectional
import QuantTrader.Rebalance.Settlement

/-! # Paper fills

`simulate_fill` inserts a market order and settles it at once, a sale with the
transaction tax in its fee. With whole prices and shares the fee needs no
rounding, so the balance moves by the exact amounts.
-/

namespace QuantTrader.PaperLedger

open Ledger Postgres Transition Rebalance
open Backtest (stockSellTaxRate)

/-- `_SELL_RATE`. -/
def sellRate : ℚ := feeRate + stockSellTaxRate

/-- The rate of `kr_fee`: a sale pays the tax as well. -/
def rateOf : Side → ℚ
  | .sell => sellRate
  | .buy => feeRate

section

variable (c : Context)

/-- `kr_fee`. -/
def krFee (side : Side) (price qty : ℚ) : Except Signal ℚ := do
  c.quantizeFin .halfEven 4 (← c.finish ((← c.finish (price * qty)) * rateOf side))

/-- `positions`: the symbols held, each with the whole part of its quantity. -/
structure Positions (db : Db) (acct : String) (held : List (String × ℤ)) : Prop where
  nodup : (held.map Prod.fst).Nodup
  mem_iff : ∀ sym q, (sym, q) ∈ held ↔ ∃ row x, db.positions acct sym = some row ∧
    row.quantity.val.val = .fin x ∧ 0 < x ∧ q = Context.truncate x

/-- `cash`: the balance, zero without an account. -/
def cash (db : Db) (acct : String) : Decimal :=
  match db.accounts acct with
  | some bal => bal.val.val
  | none => .fin 0

/-- `simulate_fill`. -/
def simulateFill (uuid4 : ℕ → String) (s : Session) (acct sym : String) (side : Side) (qty : ℤ)
    (price : ℚ) : Except Raise (Session × Outcome) := do
  let oid := uuid4 s.drawn
  let db ← Raise.pg (Orders.insertOrder s.db
    ⟨oid, acct, sym, side, .market, some (.fin price), .fin qty⟩)
  let fee ← Raise.py (krFee c side price qty)
  let (db, out) ← applyExecution c db
    ⟨uuid4 (s.drawn + 1), oid, acct, sym, side, .fin price, .fin qty, .fin fee⟩
  return (⟨db, s.drawn + 2⟩, out)

end

section Fills

variable {c : Context} {ε x fee : ℚ} {n m : ℤ} {uuid4 : ℕ → String} {s s' : Session}
  {acct sym : String} {side : Side} {db' : Db} {held : Option Position} {out : Outcome}

theorem onGrid_unit_four {k : ℤ} (h : x = k / 10000) : OnGrid (unit 4) x :=
  ⟨k, by rw [h, unit]; ring⟩

theorem finish_of_onGrid (hc : c.Accurate ε) (hg : OnGrid (unit 4) x) (hx : |x| < 10 ^ 24) :
    c.finish x = .ok x :=
  hc.exact_of_decimals (by norm_num) hg (by simpa using hx)

theorem quantizeFin_of_onGrid {r : Nearest ℚ} (hc : c.Accurate ε) (hg : OnGrid (unit 4) x)
    (hx : |x| < 10 ^ 24) : c.quantizeFin r 4 x = .ok x := by
  have hgrid : r.toGrid ((10 : ℚ) ^ 4)⁻¹ x = x := r.toGrid_of_onGrid (unit_pos 4) hg
  rw [hc.quantizeFin_ok (by norm_num) (by simpa [hgrid] using hx), hgrid]

/-- What a fee, a cost or the proceeds of whole shares at a whole price are a multiple of. -/
theorem onGrid_whole (n m k : ℤ) : OnGrid (unit 4) ((n : ℚ) * m * (k / 10000)) :=
  onGrid_unit_four (k := n * m * k) (by push_cast; ring)

theorem finish_whole (hc : c.Accurate ε) (h : |(n : ℚ) * m| < 10 ^ 20) :
    c.finish (n * m) = .ok (n * m) := by
  have hg := onGrid_whole n m 10000
  rw [Int.cast_ofNat, div_self (by norm_num), mul_one] at hg
  exact finish_of_onGrid hc hg (h.trans (by norm_num))

theorem rateOf_eq (side : Side) : ∃ k : ℤ, rateOf side = k / 10000 ∧ 0 ≤ k ∧ k ≤ 25 := by
  cases side with
  | buy => exact ⟨5, by norm_num [rateOf, feeRate], by omega, by omega⟩
  | sell =>
    exact ⟨25, by norm_num [rateOf, sellRate, feeRate, stockSellTaxRate], by omega, by omega⟩

/-- The fee of whole shares at a whole price is exact. -/
theorem krFee_whole (hc : c.Accurate ε) (h : |(n : ℚ) * m| < 10 ^ 20) :
    krFee c side n m = .ok (n * m * rateOf side) := by
  obtain ⟨k, hk, h0, h25⟩ := rateOf_eq side
  have hg := onGrid_whole n m k
  have hlt : |(n : ℚ) * m * (k / 10000)| < 10 ^ 24 := by
    have hk25 : |(k : ℚ) / 10000| ≤ 1 := by
      have h0' : (0 : ℚ) ≤ k := by exact_mod_cast h0
      have h25' : (k : ℚ) ≤ 25 := by exact_mod_cast h25
      rw [abs_of_nonneg (by linarith)]
      linarith
    rw [abs_mul]
    calc |(n : ℚ) * m| * |(k : ℚ) / 10000| ≤ |(n : ℚ) * m| * 1 :=
          mul_le_mul_of_nonneg_left hk25 (abs_nonneg _)
      _ < 10 ^ 24 := by linarith
  rw [← hk] at hg hlt
  simp only [krFee, bind_ok_iff]
  exact ⟨_, finish_whole hc h, _, finish_of_onGrid hc hg hlt, quantizeFin_of_onGrid hc hg hlt⟩

/-- One fill: its ids stay fresh, nothing else moves, and the balance is settled. -/
theorem simulateFill_settled (hinj : Function.Injective uuid4) (hs : s.Fresh uuid4)
    (hx : Holds s.db acct x) (h : simulateFill c uuid4 s acct sym side m n = .ok (s', out)) :
    s'.Fresh uuid4 ∧ SameBut acct sym s.db s'.db ∧ ∃ fee, krFee c side n m = .ok fee ∧
      Settled c (s.db.positions acct sym) acct side m n fee x s'.db out := by
  simp only [simulateFill, bind_ok_iff, Raise.pg_ok_iff, Raise.py_ok_iff] at h
  obtain ⟨db, hdb, fee, hf, ⟨db', out'⟩, ha, h⟩ := h
  cases h
  obtain ⟨row, -, -, -, rfl⟩ := Orders.insertOrder_ok_iff.mp hdb
  obtain ⟨hfresh, hsame, hset⟩ := applyExecution_settled hinj (by exact hs) (by exact hx) ha
  exact ⟨hfresh, ⟨hsame.accounts, hsame.positions⟩, fee, hf, hset⟩

theorem isSome_of_simulateFill {price : ℚ}
    (h : simulateFill c uuid4 s acct sym side m price = .ok (s', out)) :
    (s.db.accounts acct).isSome := by
  simp only [simulateFill, bind_ok_iff, Raise.pg_ok_iff] at h
  obtain ⟨db, hdb, -⟩ := h
  obtain ⟨row, -, -, hacct, -⟩ := Orders.insertOrder_ok_iff.mp hdb
  exact hacct

theorem value_lt_of_sold {v proceeds : ℚ} (hc : c.Accurate ε) (hx : 0 ≤ x) (hp : 0 ≤ (n : ℚ) * m)
    (hfee : krFee c .sell n m = .ok fee) (hv : c.finish (n * m) = .ok v)
    (hpr : c.finish (v - fee) = .ok proceeds) (hlt : roundTo 4 (x + proceeds) < 10 ^ 16) :
    (n : ℚ) * m < 10 ^ 20 := by
  simp only [krFee, bind_ok_iff] at hfee
  obtain ⟨v', hv', r, hr, hf⟩ := hfee
  obtain rfl := Except.ok.inj (hv.symm.trans hv')
  have hround := abs_le.mp (roundTo_error 4 (x + proceeds))
  have herr := abs_le.mp (Context.quantizeFin_error hf)
  norm_num [unit] at hround herr
  have hv₁ := hc.le_finish hv hp
  have hv0 := hc.nonneg_of_finish hv hp
  have hr₁ := hc.finish_le hr (mul_nonneg hv0 (by norm_num [rateOf, sellRate, feeRate,
    stockSellTaxRate]))
  norm_num [rateOf, sellRate, feeRate, stockSellTaxRate] at hr₁
  by_contra hge
  rw [not_lt] at hge
  have hpr₁ := hc.le_finish hpr (by linarith)
  linarith

theorem onGrid_proceeds (n m : ℤ) : OnGrid (unit 4) ((n : ℚ) * m * (1 - sellRate)) := by
  have hrate : 1 - sellRate = ((9975 : ℤ) : ℚ) / 10000 := by
    norm_num [sellRate, feeRate, stockSellTaxRate]
  rw [hrate]
  exact onGrid_whole n m 9975

theorem onGrid_cost (n m : ℤ) : OnGrid (unit 4) ((n : ℚ) * m * (1 + feeRate)) := by
  have hrate : 1 + feeRate = ((10005 : ℤ) : ℚ) / 10000 := by norm_num [feeRate]
  rw [hrate]
  exact onGrid_whole n m 10005

theorem finish_proceeds (hc : c.Accurate ε) (h : |(n : ℚ) * m| < 10 ^ 20) :
    c.finish (n * m * (1 - sellRate)) = .ok (n * m * (1 - sellRate)) := by
  apply finish_of_onGrid hc (onGrid_proceeds n m)
  rw [abs_mul] at h ⊢
  norm_num [sellRate, feeRate, stockSellTaxRate]
  linarith

theorem finish_cost (hc : c.Accurate ε) (h : |(n : ℚ) * m| < 10 ^ 20) :
    c.finish (n * m * (1 + feeRate)) = .ok (n * m * (1 + feeRate)) := by
  apply finish_of_onGrid hc (onGrid_cost n m)
  rw [abs_mul] at h ⊢
  norm_num [feeRate]
  linarith

theorem onGrid_of_holds (h : Holds db' acct x) : OnGrid (unit 4) x := by
  obtain ⟨bal, -, hx⟩ := h
  have hnum := bal.val.2
  rw [hx] at hnum
  exact hnum.1

/-- A sale of whole shares that are held is booked at its exact proceeds. -/
theorem sold_whole (hc : c.Accurate ε) (hx : Holds s.db acct x) (hp : 0 ≤ (n : ℚ) * m)
    (hheld : ∃ row y, held = some row ∧ row.quantity.val.val = .fin y ∧ (m : ℚ) ≤ y)
    (hfee : krFee c .sell n m = .ok fee) (hset : Settled c held acct .sell m n fee x db' out) :
    out = .applied ∧ Holds db' acct (x + n * m * (1 - sellRate)) := by
  cases hset with
  | bought hs => cases hs
  | short hs => cases hs
  | lacking _ hl =>
    obtain ⟨row, y, hrow, hy, hle⟩ := hheld
    exact absurd (hl row y hrow hy) (not_lt.mpr hle)
  | @sold v proceeds _ hv hpr hbal =>
    have hlt := value_lt_of_sold hc hx.nonneg hp hfee hv hpr hbal.lt
    have habs : |(n : ℚ) * m| < 10 ^ 20 := by rwa [abs_of_nonneg hp]
    obtain rfl := Except.ok.inj (hv.symm.trans (finish_whole hc habs))
    obtain rfl := Except.ok.inj (hfee.symm.trans (krFee_whole hc habs))
    have heq : (n : ℚ) * m - n * m * rateOf .sell = n * m * (1 - sellRate) := by
      simp only [rateOf]
      ring
    rw [heq] at hpr
    obtain rfl := Except.ok.inj (hpr.symm.trans (finish_proceeds hc habs))
    rw [roundTo_of_onGrid ((onGrid_of_holds hx).add (onGrid_proceeds n m))] at hbal
    exact ⟨rfl, hbal⟩

/-- A buy of whole shares whose exact cost the balance covers is booked. -/
theorem bought_whole (hc : c.Accurate ε) (hx : Holds s.db acct x) (hp : 0 ≤ (n : ℚ) * m)
    (hle : (n : ℚ) * m * (1 + feeRate) ≤ x) (hfee : krFee c .buy n m = .ok fee)
    (hset : Settled c held acct .buy m n fee x db' out) :
    out = .applied ∧ Holds db' acct (x - n * m * (1 + feeRate)) := by
  have habs : |(n : ℚ) * m| < 10 ^ 20 := by
    have hlt := hx.lt
    rw [abs_of_nonneg hp]
    norm_num [feeRate] at hle
    linarith
  obtain rfl := Except.ok.inj (hfee.symm.trans (krFee_whole hc habs))
  have hcost : ∀ {v cost : ℚ}, c.finish (n * m) = .ok v →
      c.finish (v + n * m * rateOf .buy) = .ok cost → cost = n * m * (1 + feeRate) := by
    intro v cost hv hx
    obtain rfl := Except.ok.inj (hv.symm.trans (finish_whole hc habs))
    have heq : (n : ℚ) * m + n * m * rateOf .buy = n * m * (1 + feeRate) := by
      simp only [rateOf]
      ring
    rw [heq] at hx
    exact Except.ok.inj (hx.symm.trans (finish_cost hc habs))
  cases hset with
  | bought _ hv hadd _ hbal =>
    obtain rfl := hcost hv hadd
    rw [roundTo_of_onGrid ((onGrid_of_holds hx).sub (onGrid_cost n m))] at hbal
    exact ⟨rfl, hbal⟩
  | short _ hv hadd hlt =>
    obtain rfl := hcost hv hadd
    exact absurd hle (not_le.mpr hlt)
  | sold hs => cases hs
  | lacking hs => cases hs

end Fills

end QuantTrader.PaperLedger
