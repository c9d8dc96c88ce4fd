import QuantTrader.Ledger.Tables
import QuantTrader.Strategy.TrendSignal

/-! # Rebalancing rules

The pure rules shared by the live commander, the daily job and the backtests:
the weighted target of a roster of loads, and the order that moves a holding to
a target weight. A float argument of `decide` is the decimal of its shortest
representation, which is how the source turns it into a `Decimal`.
-/

namespace QuantTrader.Rebalance

open Ledger (Side)
open Transition

/-- `FEE_RATE`. -/
def feeRate : ℚ := 5 / 10000

/-- `MIN_ORDER_KRW`. -/
def minOrderKrw : ℚ := 5000

/-- `_FEE_QUANT`. -/
def feeQuant : ℚ := 1 / 10000

section Orders

variable (c : Context)

/-- `affordable_qty`: what a budget buys with the fee and a margin for its rounding. -/
def affordableQty (budget price : ℚ) : Except Signal ℚ :=
  if budget ≤ 0 ∨ price ≤ 0 then return 0
  else do
    let net ← c.finish (budget - feeQuant)
    let unit ← c.finish (price * (1 + feeRate))
    c.quantizeDown 8 (← c.divFin net unit)

/-- The holding drifts from its target by less than the band, relative to the target. -/
def withinBand (curVal targetVal equity targetW band : ℚ) : Except Signal Bool := do
  let drift ← c.divFin |← c.finish (curVal - targetVal)| equity
  let width ← c.finish (band * targetW)
  return drift < width

def positive (side : Side) (qty : ℚ) : Option (Side × ℚ) :=
  if 0 < qty then some (side, qty) else none

/-- The order of a holding outside the band: buy or sell the difference to the target. -/
def rebalanceTo (qty price cash curVal targetVal : ℚ) : Except Signal (Option (Side × ℚ)) :=
  if curVal < targetVal then do
    let budget := min (← c.finish (targetVal - curVal)) cash
    if budget < minOrderKrw then return none
    return positive .buy (← affordableQty c budget price)
  else do
    let sellVal ← c.finish (curVal - targetVal)
    if sellVal < minOrderKrw then return none
    return positive .sell (min (← c.quantizeDown 8 (← c.divFin sellVal price)) qty)

/-- `decide`: the order that moves a holding to its target weight, or none to keep it. -/
protected def decide (qty price cash equity targetW band : ℚ) :
    Except Signal (Option (Side × ℚ)) :=
  if price ≤ 0 ∨ equity ≤ 0 then return none
  else if targetW ≤ 0 then return positive .sell qty
  else do
    let curVal ← c.finish (qty * price)
    let targetVal ← c.finish (equity * targetW)
    if 0 < qty then
      if ← withinBand c curVal targetVal equity targetW band then return none
    rebalanceTo c qty price cash curVal targetVal

/-- `equity`: the cash and the value of every holding that has a price. -/
def equity (cash : ℚ) (positions : List (String × ℚ)) (prices : String → Option ℚ) :
    Except Signal ℚ :=
  positions.foldlM (fun eq p =>
    match prices p.1 with
    | none => return eq
    | some px => if px = 0 then return eq else do c.finish (eq + (← c.finish (p.2 * px)))) cash

/-- What an order can be: a buy sized by a budget within the cash, or a sale from the holding. -/
inductive Sized (qty px cash : ℚ) : Side → ℚ → Prop
  | buy {budget q : ℚ} : minOrderKrw ≤ budget → budget ≤ cash → affordableQty c budget px = .ok q →
      Sized qty px cash .buy q
  | sell {q : ℚ} : q ≤ qty → Sized qty px cash .sell q

variable {c} {qty px cash eq w band q curVal targetVal : ℚ} {side side' : Side}

theorem positive_eq_some_iff :
    positive side qty = some (side', q) ↔ side' = side ∧ q = qty ∧ 0 < qty := by
  unfold positive
  split_ifs with h
  · simp [h, eq_comm]
  · simp [h]

theorem rebalanceTo_cases
    (h : rebalanceTo c qty px cash curVal targetVal = .ok (some (side, q))) :
    0 < q ∧ ((side = .buy ∧ curVal < targetVal ∧ ∃ gap, c.finish (targetVal - curVal) = .ok gap ∧
        minOrderKrw ≤ min gap cash ∧ affordableQty c (min gap cash) px = .ok q) ∨
      (side = .sell ∧ targetVal ≤ curVal ∧ ∃ sellVal z y,
        c.finish (curVal - targetVal) = .ok sellVal ∧ minOrderKrw ≤ sellVal ∧
        c.divFin sellVal px = .ok z ∧ c.quantizeDown 8 z = .ok y ∧ q = min y qty)) := by
  unfold rebalanceTo at h
  split_ifs at h with hlt
  · simp only [bind_ok_iff] at h
    obtain ⟨gap, hgap, h⟩ := h
    split_ifs at h with hmin
    · cases h
    · simp only [bind_ok_iff] at h
      obtain ⟨b, hb, h⟩ := h
      obtain ⟨rfl, rfl, hpos⟩ := positive_eq_some_iff.mp (Except.ok.inj h)
      exact ⟨hpos, .inl ⟨rfl, hlt, gap, hgap, not_lt.mp hmin, hb⟩⟩
  · simp only [bind_ok_iff] at h
    obtain ⟨sellVal, hsell, h⟩ := h
    split_ifs at h with hmin
    · cases h
    · simp only [bind_ok_iff] at h
      obtain ⟨z, hz, y, hy, h⟩ := h
      obtain ⟨rfl, rfl, hpos⟩ := positive_eq_some_iff.mp (Except.ok.inj h)
      exact ⟨hpos, .inr ⟨rfl, not_lt.mp hlt, sellVal, z, y, hsell, not_lt.mp hmin, hz, hy, rfl⟩⟩

theorem rebalanceTo_some (h : rebalanceTo c qty px cash curVal targetVal = .ok (some (side, q))) :
    0 < q ∧ Sized c qty px cash side q := by
  obtain ⟨hpos, hbuy | hsell⟩ := rebalanceTo_cases h
  · obtain ⟨rfl, -, gap, -, hmin, hq⟩ := hbuy
    exact ⟨hpos, .buy hmin (min_le_right _ _) hq⟩
  · obtain ⟨rfl, -, sellVal, z, y, -, -, -, -, rfl⟩ := hsell
    exact ⟨hpos, .sell (min_le_right _ _)⟩

/-- Without a target the order is the whole holding, else it is one outside the band. -/
theorem decide_cases (h : Rebalance.decide c qty px cash eq w band = .ok (some (side, q))) :
    0 < px ∧ ((w ≤ 0 ∧ side = .sell ∧ q = qty ∧ 0 < q) ∨ 0 < w ∧ ∃ v t,
      c.finish (qty * px) = .ok v ∧ c.finish (eq * w) = .ok t ∧
      rebalanceTo c qty px cash v t = .ok (some (side, q))) := by
  unfold Rebalance.decide at h
  split_ifs at h with hno hexit hheld
  · cases h
  · obtain ⟨rfl, rfl, hpos⟩ := positive_eq_some_iff.mp (Except.ok.inj h)
    exact ⟨not_le.mp (not_or.mp hno).1, .inl ⟨hexit, rfl, rfl, hpos⟩⟩
  · simp only [bind_ok_iff] at h
    obtain ⟨v, hv, t, ht, within, -, h⟩ := h
    split_ifs at h
    · cases h
    · exact ⟨not_le.mp (not_or.mp hno).1, .inr ⟨not_le.mp hexit, v, t, hv, ht, h⟩⟩
  · simp only [bind_ok_iff] at h
    obtain ⟨v, hv, t, ht, h⟩ := h
    exact ⟨not_le.mp (not_or.mp hno).1, .inr ⟨not_le.mp hexit, v, t, hv, ht, h⟩⟩

theorem decide_some (h : Rebalance.decide c qty px cash eq w band = .ok (some (side, q))) :
    0 < px ∧ 0 < q ∧ Sized c qty px cash side q := by
  obtain ⟨hpx, hexit | ⟨-, v, t, -, -, hto⟩⟩ := decide_cases h
  · obtain ⟨-, rfl, rfl, hpos⟩ := hexit
    exact ⟨hpx, hpos, .sell le_rfl⟩
  · exact ⟨hpx, rebalanceTo_some hto⟩

end Orders

/-! ## The roster -/

section Roster

variable {F B : Type} [Strategy.PyFloat F] [DecidableEq B]

open Strategy Strategy.PyFloat

/-- `_roster_ready`: every load of the roster has signalled with this bar. -/
def rosterReady (symLatest : String → Option (B × F)) (roster : List String) (barTs : B) : Bool :=
  roster.all fun n => (symLatest n).map Prod.fst == some barTs

/-- `weights.get(n, 0.0)`. -/
def weight (weights : String → Option F) (n : String) : F := (weights n).getD (ofNat 0)

/-- The target of a load; the roster is ready when it is read. -/
def loadTarget (symLatest : String → Option (B × F)) (n : String) : F :=
  ((symLatest n).map Prod.snd).getD (ofNat 0)

/-- `combined_for_bar`: the weighted mean of the targets, once every load has this bar. -/
def combinedForBar (symLatest : String → Option (B × F)) (roster : List String) (barTs : B)
    (weights : String → Option F) : Option F :=
  if rosterReady symLatest roster barTs then
    let wsum := sum (roster.map (weight weights))
    if le wsum (ofNat 0) then none
    else some (sum (roster.map fun n => weight weights n * loadTarget symLatest n) / wsum)
  else none

theorem rosterReady_of_combinedForBar {symLatest : String → Option (B × F)} {roster : List String}
    {barTs : B} {weights : String → Option F}
    (h : (combinedForBar symLatest roster barTs weights).isSome) :
    rosterReady symLatest roster barTs = true := by
  by_contra hn
  rw [combinedForBar, if_neg hn] at h
  cases h

omit [PyFloat F] in
theorem rosterReady_iff {symLatest : String → Option (B × F)} {roster : List String} {barTs : B} :
    rosterReady symLatest roster barTs = true ↔
      ∀ n ∈ roster, (symLatest n).map Prod.fst = some barTs := by
  simp [rosterReady]

theorem combinedForBar_congr {symLatest symLatest' : String → Option (B × F)} {roster : List String}
    (h : ∀ n ∈ roster, symLatest n = symLatest' n) (barTs : B) (weights : String → Option F) :
    combinedForBar symLatest roster barTs weights =
      combinedForBar symLatest' roster barTs weights := by
  have hready : rosterReady symLatest roster barTs = rosterReady symLatest' roster barTs := by
    rw [Bool.eq_iff_iff, rosterReady_iff, rosterReady_iff]
    constructor
    · intro hr n hn
      rw [← h n hn]
      exact hr n hn
    · intro hr n hn
      rw [h n hn]
      exact hr n hn
  have htargets : (roster.map fun n => weight weights n * loadTarget symLatest n) =
      roster.map fun n => weight weights n * loadTarget symLatest' n := by
    apply List.map_congr_left
    intro n hn
    rw [loadTarget, loadTarget, h n hn]
  rw [combinedForBar, combinedForBar, hready, htargets]

end Roster

end QuantTrader.Rebalance
