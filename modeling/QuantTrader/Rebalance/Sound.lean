import QuantTrader.Rebalance.Executable

/-! # Orders keep to cash, holding and target

In exact arithmetic a buy costs no more than the cash, fee included, and does not pass
the target, a sale does not fall below it, and without a target the holding is sold as
a whole.
-/

namespace QuantTrader

namespace Context

theorem exact_finish (x : ℚ) : exact.finish x = .ok x := rfl

theorem exact_divFin {x y : ℚ} (hy : y ≠ 0) : exact.divFin x y = .ok (x / y) := if_neg hy

theorem exact_quantizeDown (s : ℕ) (x : ℚ) :
    exact.quantizeDown s x = .ok (truncate (x * 10 ^ s) / 10 ^ s) := rfl

theorem exact_quantizeFin (r : Nearest ℚ) (s : ℕ) (x : ℚ) :
    exact.quantizeFin r s x = .ok (r.toGrid ((10 : ℚ) ^ s)⁻¹ x) := rfl

end Context

namespace Rebalance

open Context Ledger Transition

variable {qty price cash equity w band q budget curVal targetVal : ℚ} {order : Option (Side × ℚ)}

theorem affordableQty_exact (hp : 0 < price) (hb : minOrderKrw ≤ budget) :
    ∃ q, affordableQty .exact budget price = .ok q ∧
      price * q * (1 + feeRate) ≤ budget - feeQuant := by
  have hb' : (5000 : ℚ) ≤ budget := hb
  have hunit : 0 < price * (1 + feeRate) := mul_pos hp (by norm_num [feeRate])
  have hnet : 0 ≤ budget - feeQuant := by
    norm_num [feeQuant]
    linarith
  have hq : affordableQty .exact budget price = exact.quantizeDown 8
      ((budget - feeQuant) / (price * (1 + feeRate))) := by
    rw [affordableQty, if_neg (not_or.mpr ⟨by linarith, by linarith⟩), exact_finish, exact_finish]
    change (exact.divFin _ _ >>= exact.quantizeDown 8) = _
    rw [exact_divFin hunit.ne']
    rfl
  refine ⟨_, hq.trans (exact_quantizeDown 8 _), ?_⟩
  have hle := quantizeDown_le (exact_quantizeDown 8 _) (div_nonneg hnet hunit.le)
  rw [le_div_iff₀ hunit] at hle
  linarith

theorem orderFee_exact (price q : ℚ) : ∃ fee, orderFee .exact price q = .ok fee ∧
    fee ≤ price * q * feeRate + feeQuant / 2 := by
  have hfee : orderFee .exact price q = exact.quantizeFin .halfEven 4 (price * q * feeRate) := rfl
  refine ⟨_, hfee.trans (exact_quantizeFin _ _ _), ?_⟩
  have herr := abs_le.mp (quantizeFin_error (exact_quantizeFin .halfEven 4 (price * q * feeRate)))
  norm_num [feeQuant] at herr ⊢
  linarith

/-- A buy of a book: the holding stays within the target, the cash pays for it with its fee, and
the ledger accepts it on that cash. -/
structure BuySound (qty price cash targetVal q : ℚ) : Prop where
  within : (qty + q) * price ≤ targetVal
  paid : ∃ fee, orderFee .exact price q = .ok fee ∧ price * q + fee ≤ cash
  accepted : ∀ db uuid4 n acct sym fee, orderFee .exact price q = .ok fee → Holds db acct cash →
    Covers .exact db (message uuid4 n acct sym .buy q price fee)

/-- A sale of a book: it is from the holding, and does not fall below the target. -/
structure SellSound (qty price targetVal q : ℚ) : Prop where
  held : q ≤ qty
  within : targetVal ≤ (qty - q) * price

theorem covers_of_paid {db : Db} {uuid4 : ℕ → String} {n : ℕ} {acct sym : String} {fee : ℚ}
    (hle : price * q + fee ≤ cash) (h : Holds db acct cash) :
    Covers .exact db (message uuid4 n acct sym .buy q price fee) := by
  obtain ⟨bal, hbal, hcash⟩ := h
  refine ⟨bal, .fin (price * q + fee), hbal, message_cost.mpr ⟨_, _, rfl, rfl, rfl⟩, ?_⟩
  rw [hcash, Decimal.lt_fin, decide_eq_false (not_lt.mpr hle)]

theorem buySound_of_affordable (hp : 0 < price) (hb : minOrderKrw ≤ budget)
    (hgap : budget ≤ targetVal - qty * price) (hcash : budget ≤ cash) :
    ∃ q, affordableQty .exact budget price = .ok q ∧
      (0 < q → BuySound qty price cash targetVal q) := by
  obtain ⟨q, hq, hle⟩ := affordableQty_exact hp hb
  refine ⟨q, hq, fun hpos => ?_⟩
  obtain ⟨fee, hfee, hfee'⟩ := orderFee_exact price q
  have hval := mul_pos hp hpos
  simp only [feeRate, feeQuant] at hle hfee'
  have hpaid : price * q + fee ≤ cash := by linarith
  refine ⟨by linarith, ⟨fee, hfee, hpaid⟩, ?_⟩
  intro db uuid4 n acct sym fee' hfee' hcash'
  obtain rfl := Except.ok.inj (hfee.symm.trans hfee')
  exact covers_of_paid hpaid hcash'

theorem sellSound_of_down (hp : 0 < price) (hgap : targetVal ≤ qty * price) : ∃ z,
    exact.quantizeDown 8 ((qty * price - targetVal) / price) = .ok z ∧
      SellSound qty price targetVal (min z qty) := by
  refine ⟨_, exact_quantizeDown _ _, min_le_right _ _, ?_⟩
  have hnonneg : 0 ≤ (qty * price - targetVal) / price := div_nonneg (sub_nonneg.mpr hgap) hp.le
  have hle := (min_le_left _ qty).trans (quantizeDown_le (exact_quantizeDown 8 _) hnonneg)
  rw [le_div_iff₀ hp] at hle
  linarith

theorem rebalanceTo_exact (hp : 0 < price) : ∃ order,
    rebalanceTo .exact qty price cash (qty * price) targetVal = .ok order ∧
      (∀ q, order = some (.buy, q) → BuySound qty price cash targetVal q) ∧
      ∀ q, order = some (.sell, q) → SellSound qty price targetVal q := by
  unfold rebalanceTo
  rw [exact_finish, exact_finish]
  split_ifs with hlt
  · by_cases hmin : min (targetVal - qty * price) cash < minOrderKrw
    · exact ⟨none, if_pos hmin, nofun, nofun⟩
    · obtain ⟨b, hb, hsound⟩ := buySound_of_affordable hp (not_lt.mp hmin) (min_le_left _ _)
        (min_le_right _ _)
      refine ⟨positive .buy b, ?_, ?_, ?_⟩
      · change (if min (targetVal - qty * price) cash < minOrderKrw then _ else _) = _
        rw [if_neg hmin, hb]
        rfl
      · intro q h
        obtain ⟨-, rfl, hpos⟩ := positive_eq_some_iff.mp h
        exact hsound hpos
      · intro q h
        obtain ⟨hs, -⟩ := positive_eq_some_iff.mp h
        cases hs
  · by_cases hmin : qty * price - targetVal < minOrderKrw
    · exact ⟨none, if_pos hmin, nofun, nofun⟩
    · obtain ⟨z, hz, hsound⟩ := sellSound_of_down hp (not_lt.mp hlt)
      refine ⟨positive .sell (min z qty), ?_, ?_, ?_⟩
      · change (if qty * price - targetVal < minOrderKrw then _ else _) = _
        rw [if_neg hmin, exact_divFin hp.ne']
        change (do
          let y ← exact.quantizeDown 8 ((qty * price - targetVal) / price)
          pure (positive .sell (min y qty))) = _
        rw [hz]
        rfl
      · intro q h
        obtain ⟨hs, -⟩ := positive_eq_some_iff.mp h
        cases hs
      · intro q h
        obtain ⟨-, rfl, -⟩ := positive_eq_some_iff.mp h
        exact hsound

/-- The orders of `decide`: a buy is paid from the cash and a part of the target, a sale is from
the holding and leaves the target, and without a target a book of some worth sells all it holds. -/
theorem decide_sound (qty price cash equity w band : ℚ) : ∃ order,
    Rebalance.decide .exact qty price cash equity w band = .ok order ∧
      (∀ q, order = some (.buy, q) → BuySound qty price cash (equity * w) q) ∧
      (∀ q, order = some (.sell, q) → 0 < w → SellSound qty price (equity * w) q) ∧
      (w ≤ 0 → 0 < price → 0 < equity → order = if 0 < qty then some (.sell, qty) else none) := by
  unfold Rebalance.decide
  by_cases hno : price ≤ 0 ∨ equity ≤ 0
  · refine ⟨none, if_pos hno, nofun, nofun, fun _ hp he => ?_⟩
    rcases hno with h | h
    · exact absurd hp (not_lt.mpr h)
    · exact absurd he (not_lt.mpr h)
  rw [if_neg hno]
  obtain ⟨hp, he⟩ := not_or.mp hno
  by_cases hexit : w ≤ 0
  · refine ⟨positive .sell qty, if_pos hexit, ?_, fun _ _ hw => absurd hw (not_lt.mpr hexit),
      fun _ _ _ => rfl⟩
    intro q h
    obtain ⟨hs, -⟩ := positive_eq_some_iff.mp h
    cases hs
  · rw [if_neg hexit]
    obtain ⟨order, horder, hbuy, hsell⟩ : ∃ order,
        rebalanceTo .exact qty price cash (qty * price) (equity * w) = .ok order ∧
          (∀ q, order = some (.buy, q) → BuySound qty price cash (equity * w) q) ∧
          ∀ q, order = some (.sell, q) → SellSound qty price (equity * w) q :=
      rebalanceTo_exact (not_le.mp hp)
    have hwithin : withinBand .exact (qty * price) (equity * w) equity w band =
        .ok (decide (|qty * price - equity * w| / equity < band * w)) := by
      unfold withinBand
      rw [exact_finish, exact_finish]
      change (exact.divFin |qty * price - equity * w| equity >>= _) = _
      rw [exact_divFin (not_le.mp he).ne']
      rfl
    by_cases hheld : 0 < qty ∧ |qty * price - equity * w| / equity < band * w
    · refine ⟨none, ?_, nofun, nofun, fun hw => absurd hw hexit⟩
      change (if 0 < qty then _ else _) = _
      rw [if_pos hheld.1, hwithin, decide_eq_true hheld.2]
      rfl
    · refine ⟨order, ?_, hbuy, fun q h _ => hsell q h, fun hw => absurd hw hexit⟩
      change (if 0 < qty then _ else _) = _
      by_cases hq : 0 < qty
      · rw [if_pos hq, hwithin, decide_eq_false fun h => hheld ⟨hq, h⟩]
        exact horder
      · rw [if_neg hq]
        exact horder

/-- A book without any worth keeps what it holds, whatever the target. -/
theorem worthless_book_keeps : ∃ qty price cash equity w band : ℚ, w ≤ 1 ∧ 0 < price ∧ 0 ≤ cash ∧
    0 < qty ∧ 0 ≤ band ∧ w ≤ 0 ∧
    Rebalance.decide .exact qty price cash equity w band = .ok none :=
  ⟨1, 1, 0, 0, 0, 0, by norm_num, by norm_num, le_rfl, by norm_num, le_rfl, le_rfl, by decide +kernel⟩

end Rebalance

end QuantTrader
