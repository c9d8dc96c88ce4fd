import QuantTrader.Rebalance.Executable

/-! # One order settles a book

The order of a book with one symbol leaves it close to its target: what the fee and the
rounding of the quantity miss is less than the smallest order, or inside the band. On the
book after the order nothing is left to do.
-/

namespace QuantTrader.Rebalance

open Ledger Postgres Transition

/-- The cash and the holding of a book with one symbol. -/
structure SoloBook where
  cash : ℚ
  qty : ℚ

namespace SoloBook

/-- `decide`, with the equity of the book. -/
protected def decide (c : Context) (b : SoloBook) (price w band : ℚ) :
    Except Signal (Option (Side × ℚ)) := do
  let eq ← c.finish (b.cash + (← c.finish (b.qty * price)))
  Rebalance.decide c b.qty price b.cash eq w band

theorem decide_eq {c : Context} {b : SoloBook} {sym : String} {prices : String → Option ℚ}
    {price w band : ℚ} (h : prices sym = some price) (hp : price ≠ 0) :
    b.decide c price w band = (equity c b.cash [(sym, b.qty)] prices >>= fun eq =>
      Rebalance.decide c b.qty price b.cash eq w band) := by
  simp [SoloBook.decide, equity, h, hp]

/-- A book after an order at the price with its fee. The columns keep the cash to four
decimals. -/
inductive Filled (c : Context) (price : ℚ) (b : SoloBook) : Option (Side × ℚ) → SoloBook → Prop
  | kept : Filled c price b none b
  | bought {q fee v cost cash : ℚ} : orderFee c price q = .ok fee → c.finish (price * q) = .ok v →
      c.finish (v + fee) = .ok cost → |cash - (b.cash - cost)| ≤ unit 4 / 2 →
      Filled c price b (some (.buy, q)) ⟨cash, b.qty + q⟩
  | sold {q fee v proceeds cash : ℚ} : orderFee c price q = .ok fee → c.finish (price * q) = .ok v →
      c.finish (v - fee) = .ok proceeds → |cash - (b.cash + proceeds)| ≤ unit 4 / 2 →
      Filled c price b (some (.sell, q)) ⟨cash, b.qty - q⟩

theorem filled_of_settled {c : Context} {b : SoloBook} {price q fee : ℚ} {side : Side}
    {held : Option Position} {acct : String} {db : Db} (hfee : orderFee c price q = .ok fee)
    (h : Settled c held acct side q price fee b.cash db .applied) :
    ∃ b', Filled c price b (some (side, q)) b' ∧ Holds db acct b'.cash := by
  have hround : ∀ x, |roundTo 4 x - x| ≤ unit 4 / 2 := roundTo_error 4
  cases h with
  | bought hs hv hcost _ hy =>
    obtain rfl := hs
    exact ⟨_, .bought hfee hv hcost (hround _), hy⟩
  | sold hs hv hpr hy =>
    obtain rfl := hs
    exact ⟨_, .sold hfee hv hpr (hround _), hy⟩

end SoloBook

section Close

variable {c : Context} {ε M qty price cash eq w band curVal targetVal : ℚ}

theorem exists_finish_lt (hc : c.Accurate ε) {x : ℚ} (h : |x| ≤ 4990) :
    ∃ y, c.finish x = .ok y ∧ y < minOrderKrw := by
  obtain ⟨y, hy⟩ := hc.total (h.trans_lt (by norm_num))
  refine ⟨y, hy, ?_⟩
  obtain ⟨-, herr⟩ := abs_le.mp (hc.error_le hy)
  have hx := (le_abs_self x).trans h
  norm_num [minOrderKrw]
  linarith

theorem rebalanceTo_none (hc : c.Accurate ε) (h : |curVal - targetVal| ≤ 4990) :
    rebalanceTo c qty price cash curVal targetVal = .ok none := by
  obtain ⟨gap, hgap, hgapLt⟩ := exists_finish_lt hc (x := targetVal - curVal) (by
    rwa [abs_sub_comm])
  obtain ⟨excess, hexcess, hexcessLt⟩ := exists_finish_lt hc h
  unfold rebalanceTo
  rw [hgap, hexcess]
  split_ifs with hlt
  · exact if_pos ((min_le_left gap cash).trans_lt hgapLt)
  · exact if_pos hexcessLt

/-- The band as it is compared: outside of it the drift is at least the band, up to a sliver. -/
theorem withinBand_ok (hc : c.Accurate ε) (htotal : ∀ {x : ℚ}, |x| ≤ M → ∃ y, c.finish x = .ok y)
    (heq : 1 ≤ eq) (hgap : |curVal - targetVal| * 2 ≤ M) (hw : 0 ≤ w) (hband : 0 ≤ band)
    (hwidth : band * w ≤ M) : ∃ r, withinBand c curVal targetVal eq w band = .ok r ∧
      (r = false → band * w * eq * (1 - 4 / 10 ^ 24) ≤ |curVal - targetVal|) := by
  have hgap0 := abs_nonneg (curVal - targetVal)
  obtain ⟨gap, hgapOk⟩ := htotal (x := curVal - targetVal) (by linarith)
  obtain ⟨width, hwidthOk⟩ := htotal (x := band * w) (by rwa [abs_of_nonneg (mul_nonneg hband hw)])
  have hgapAbs : |gap| ≤ |curVal - targetVal| * (1 + 1 / 10 ^ 24) := by
    have := (abs_sub_abs_le_abs_sub gap _).trans (hc.error_le hgapOk)
    linarith
  have heq₀ : 0 < eq := zero_lt_one.trans_le heq
  have hquot : 0 ≤ |gap| / eq := div_nonneg (abs_nonneg gap) heq₀.le
  obtain ⟨drift, hdrift⟩ : ∃ drift, c.quot |gap| eq = .ok drift := by
    unfold Context.quot
    split_ifs
    · exact ⟨_, rfl⟩
    · apply htotal
      rw [abs_of_nonneg hquot]
      have := div_le_self (abs_nonneg gap) heq
      linarith
  refine ⟨decide (drift < width), ?_, ?_⟩
  · unfold withinBand
    rw [hgapOk, hwidthOk]
    change (c.divFin |gap| eq >>= fun drift => pure (decide (drift < width))) = _
    rw [Context.divFin, if_neg heq₀.ne', hdrift]
    rfl
  · intro h
    have hle : width ≤ drift := not_lt.mp (of_decide_eq_false h)
    have hwidth₁ := hc.le_finish hwidthOk (mul_nonneg hband hw)
    have hdrift₁ := hc.quot_le hdrift hquot
    have hmul : band * w * (1 - 1 / 10 ^ 24) * eq ≤ |gap| * (1 + 1 / 10 ^ 24) := by
      calc band * w * (1 - 1 / 10 ^ 24) * eq
          ≤ |gap| / eq * (1 + 1 / 10 ^ 24) * eq :=
            mul_le_mul_of_nonneg_right (hwidth₁.trans (hle.trans hdrift₁)) heq₀.le
        _ = |gap| * (1 + 1 / 10 ^ 24) := by field_simp
    have hnonneg : 0 ≤ band * w * eq := mul_nonneg (mul_nonneg hband hw) heq₀.le
    linarith

def SoloBook.worth (b : SoloBook) (price : ℚ) : ℚ := b.cash + b.qty * price

/-- The equity and the target as they are computed, when the rounding amounts to a few won. -/
structure Computed (c : Context) (b : SoloBook) (price w v eq t : ℚ) : Prop where
  value : c.finish (b.qty * price) = .ok v
  equity : c.finish (b.cash + v) = .ok eq
  target : c.finish (eq * w) = .ok t
  value_close : |v - b.qty * price| ≤ 2
  equity_close : |eq - b.worth price| ≤ 5
  target_close : |t - w * b.worth price| ≤ 8

theorem exists_computed {b : SoloBook} (hc : c.Accurate ε)
    (htotal : ∀ {x : ℚ}, |x| ≤ M → ∃ y, c.finish x = .ok y)
    (hv : 0 ≤ b.qty * price) (hle : b.qty * price ≤ 1002 / 1000 * b.worth price + 1900)
    (hE : 0 ≤ b.worth price) (hε : ε * b.worth price ≤ 3 / 2)
    (hM : 2 * b.worth price + 2000 ≤ M) (hw₀ : 0 ≤ w) (hw₁ : w ≤ 1) :
    ∃ v eq t, Computed c b price w v eq t := by
  have hεsmall := hc.small
  have hε₀ := hc.nonneg
  have hworth : b.worth price = b.cash + b.qty * price := rfl
  -- what a result of about the worth misses
  have hmiss : ∀ {x y : ℚ}, c.finish x = .ok y →
      |x| ≤ 1002 / 1000 * b.worth price + 2000 → |y - x| ≤ 8 / 5 := by
    intro x y hy hx
    have herr := hc.error hy
    have hmul := mul_le_mul_of_nonneg_left hx hε₀
    linarith
  obtain ⟨v, hvOk⟩ := htotal (x := b.qty * price) (by rw [abs_of_nonneg hv]; linarith)
  have hv₁ := hmiss hvOk (by rw [abs_of_nonneg hv]; linarith)
  obtain ⟨hv₂, hv₃⟩ := abs_le.mp hv₁
  have hsum : |b.cash + v| ≤ 1002 / 1000 * b.worth price + 2000 := by
    rw [abs_le]
    constructor <;> linarith
  obtain ⟨eq, heqOk⟩ := htotal (hsum.trans (by linarith))
  obtain ⟨heq₁, heq₂⟩ := abs_le.mp (hmiss heqOk hsum)
  have hprod : |eq * w| ≤ 1002 / 1000 * b.worth price + 2000 := by
    rw [abs_mul, abs_of_nonneg hw₀]
    have heq : |eq| ≤ 1002 / 1000 * b.worth price + 2000 := by
      rw [abs_le]
      constructor <;> linarith
    exact (mul_le_of_le_one_right (abs_nonneg eq) hw₁).trans heq
  obtain ⟨t, htOk⟩ := htotal (hprod.trans (by linarith))
  obtain ⟨ht₁, ht₂⟩ := abs_le.mp (hmiss htOk hprod)
  have heq : |eq - b.worth price| ≤ 5 := by
    rw [abs_le]
    constructor <;> linarith
  have hscaled : |(eq - b.worth price) * w| ≤ 5 := by
    rw [abs_mul, abs_of_nonneg hw₀]
    exact (mul_le_of_le_one_right (abs_nonneg _) hw₁).trans heq
  obtain ⟨hs₁, hs₂⟩ := abs_le.mp hscaled
  refine ⟨v, eq, t, hvOk, heqOk, htOk, hv₁.trans (by norm_num), heq, ?_⟩
  rw [abs_le]
  constructor <;> linarith

/-- Inside the band nothing is done; else the gap decides. -/
theorem Computed.decide_none {b : SoloBook} {v t : ℚ} {r : Bool}
    (h : Computed c b price w v eq t) (hp : 0 < price) (heq : 0 < eq) (hw : 0 < w)
    (hr : withinBand c v t eq w band = .ok r)
    (hto : (0 < b.qty → r = false) → rebalanceTo c b.qty price b.cash v t = .ok none) :
    b.decide c price w band = .ok none := by
  unfold SoloBook.decide
  rw [h.value]
  change (c.finish (b.cash + v) >>= fun eq => Rebalance.decide c b.qty price b.cash eq w band) = _
  rw [h.equity]
  change Rebalance.decide c b.qty price b.cash eq w band = _
  unfold Rebalance.decide
  rw [if_neg (not_or.mpr ⟨not_le.mpr hp, not_le.mpr heq⟩), if_neg (not_le.mpr hw), h.value,
    h.target]
  change (if 0 < b.qty then _ else _) = _
  split_ifs with hheld
  · rw [hr]
    cases r with
    | true => rfl
    | false => exact hto fun _ => rfl
  · exact hto fun hpos => absurd hpos hheld

/-- A book close to its target is left as it is. -/
theorem decide_of_close {b : SoloBook} (hc : c.Accurate ε)
    (htotal : ∀ {x : ℚ}, |x| ≤ M → ∃ y, c.finish x = .ok y)
    (hp : 0 < price) (hqty : 0 ≤ b.qty) (hE : 4000 ≤ b.worth price)
    (hε : ε * b.worth price ≤ 3 / 2) (hM : 4 * b.worth price + 4000 ≤ M) (hw₀ : 0 < w) (hw₁ : w ≤ 1)
    (hband : 2 / 1000 ≤ band) (hbandM : band ≤ M)
    (hclose : |w * b.worth price - b.qty * price| ≤ 11 / 10 ^ 4 * (w * b.worth price) + 1050) :
    b.decide c price w band = .ok none := by
  have hv0 : 0 ≤ b.qty * price := mul_nonneg hqty hp.le
  have hwE : w * b.worth price ≤ b.worth price := mul_le_of_le_one_left (by linarith) hw₁
  have hwE₀ : 0 ≤ w * b.worth price := mul_nonneg hw₀.le (by linarith)
  obtain ⟨hc₁, hc₂⟩ := abs_le.mp hclose
  obtain ⟨v, eq, t, hcomp⟩ := exists_computed hc htotal hv0 (by linarith) (by linarith) hε
    (by linarith) hw₀.le hw₁
  obtain ⟨hv₁, hv₂⟩ := abs_le.mp hcomp.value_close
  obtain ⟨he₁, he₂⟩ := abs_le.mp hcomp.equity_close
  obtain ⟨ht₁, ht₂⟩ := abs_le.mp hcomp.target_close
  have hgap : |v - t| ≤ 11 / 10 ^ 4 * (w * b.worth price) + 1060 := by
    rw [abs_le]
    constructor <;> linarith
  have hwidth : band * w ≤ M := (mul_le_of_le_one_right (by linarith) hw₁).trans hbandM
  obtain ⟨r, hr, hout⟩ : ∃ r, withinBand c v t eq w band = .ok r ∧
      (r = false → band * w * eq * (1 - 4 / 10 ^ 24) ≤ |v - t|) :=
    withinBand_ok hc htotal (by linarith) (by linarith) hw₀.le (by linarith) hwidth
  apply hcomp.decide_none hp (by linarith) hw₀ hr
  intro hfalse
  apply rebalanceTo_none hc
  by_cases hheld : 0 < b.qty
  · -- a holding outside the band has a small target
    have heq₀ : 0 ≤ w * eq := mul_nonneg hw₀.le (by linarith)
    have hweq : w * b.worth price - 5 ≤ w * eq := by
      have hfive : w * 5 ≤ 5 := by linarith
      have := mul_le_mul_of_nonneg_left he₁ hw₀.le
      linarith
    have hbandMul := mul_le_mul_of_nonneg_right hband heq₀
    have hnarrow := hout (hfalse hheld)
    linarith
  · have hz : b.qty * price = 0 := by rw [le_antisymm (not_lt.mp hheld) hqty, zero_mul]
    rw [hz] at hc₂
    linarith

end Close

/-! ## After an order -/

section Orders

variable {c : Context} {ε qty price cash curVal targetVal w band budget q : ℚ} {side : Side}
  {b : SoloBook}

/-- An affordable quantity leaves no more of the budget than the fee, a fee unit and a step of the
quantity. -/
theorem le_affordableQty (hc : c.Accurate ε) (hp : 0 < price) (hb : minOrderKrw ≤ budget)
    (h : affordableQty c budget price = .ok q) :
    (budget - feeQuant) * (1 - 4 / 10 ^ 24) ≤ (q + 1 / 10 ^ 8) * (price * (1 + feeRate)) := by
  obtain ⟨net, unit, z, hnet0, hunit0, hnet, hunit, hpos, hquot, hz, hqz⟩ :=
    affordableQty_steps hc hp hb h
  have hnet₁ := hc.le_finish hnet hnet0
  have hunit₁ := hc.finish_le hunit hunit0.le
  have hz₁ := abs_le.mp ((hc.quot_error hz).trans
    (mul_le_mul_of_nonneg_right hc.small (abs_nonneg _)))
  rw [abs_of_nonneg hquot] at hz₁
  have hq₁ := Context.lt_quantizeDown_add hqz (hc.quot_nonneg hz hquot)
  have hq₀ : 0 ≤ q + 1 / 10 ^ 8 := (hc.quot_nonneg hz hquot).trans hq₁.le
  have hle : net * (1 - 1 / 10 ^ 24) ≤ (q + 1 / 10 ^ 8) * unit := by
    calc net * (1 - 1 / 10 ^ 24) = net / unit * (1 - 1 / 10 ^ 24) * unit := by field_simp
      _ ≤ (q + 1 / 10 ^ 8) * unit := mul_le_mul_of_nonneg_right (by linarith) hpos.le
  have hup := mul_le_mul_of_nonneg_left hunit₁ hq₀
  have hA : 0 ≤ (q + 1 / 10 ^ 8) * (price * (1 + feeRate)) := mul_nonneg hq₀ hunit0.le
  linarith

theorem SoloBook.decide_cases (h : b.decide c price w band = .ok (some (side, q))) :
    0 < price ∧ ((w ≤ 0 ∧ side = .sell ∧ q = b.qty ∧ 0 < q) ∨ 0 < w ∧ ∃ v eq t,
      c.finish (b.qty * price) = .ok v ∧ c.finish (b.cash + v) = .ok eq ∧
      c.finish (eq * w) = .ok t ∧ rebalanceTo c b.qty price b.cash v t = .ok (some (side, q))) := by
  unfold SoloBook.decide at h
  obtain ⟨v, hv, h⟩ := bind_ok_iff.mp h
  obtain ⟨eq, heq, h⟩ := bind_ok_iff.mp h
  obtain ⟨hp, hexit | ⟨hw, v', t, hv', ht, hto⟩⟩ := Rebalance.decide_cases h
  · exact ⟨hp, .inl hexit⟩
  · obtain rfl := Except.ok.inj (hv.symm.trans hv')
    exact ⟨hp, .inr ⟨hw, v, eq, t, hv, heq, ht, hto⟩⟩

def heldAfter (qty q : ℚ) : Side → ℚ
  | .buy => qty + q
  | .sell => qty - q

theorem total_close {v fee : ℚ} (hc : c.Accurate ε) (hX : 0 < price * q)
    (hε : ε * (price * q) ≤ 3 / 2) (hfee : orderFee c price q = .ok fee)
    (hv : c.finish (price * q) = .ok v) :
    0 ≤ fee ∧ fee ≤ 51 / 10 ^ 5 * (price * q) + 2 ∧ ∀ f y, |f| = fee →
      c.finish (v + f) = .ok y → |y - (price * q + f)| ≤ 47 / 10 := by
  obtain ⟨v', hv', hv₀, hf⟩ := orderFee_ok hc hX.le hfee
  obtain rfl := Except.ok.inj (hv.symm.trans hv')
  have herr := hc.error hv
  rw [abs_of_pos hX] at herr
  obtain ⟨hv₁, hv₂⟩ := abs_le.mp (herr.trans hε)
  have hle := hf.le
  norm_num [feeRate] at hle
  have hfee₁ : fee ≤ 51 / 10 ^ 5 * (price * q) + 2 := by linarith
  refine ⟨hf.nonneg, hfee₁, ?_⟩
  intro f y habs hy
  obtain ⟨hf₁, hf₂⟩ := abs_le.mp habs.le
  have hsum : |v + f| ≤ 2 * (price * q) + 10 := by
    rw [abs_le]
    constructor <;> linarith
  have hmul := mul_le_mul_of_nonneg_left hsum hc.nonneg
  have hsmall := hc.small
  have hmiss := hc.error hy
  obtain ⟨hy₁, hy₂⟩ := abs_le.mp (hmiss.trans (by linarith : _ ≤ (16 / 5 : ℚ)))
  rw [abs_le]
  constructor <;> linarith

theorem SoloBook.Filled.worth {b' : SoloBook} (hc : c.Accurate ε) (hp : 0 < price) (hq : 0 < q)
    (hε : ε * (price * q) ≤ 3 / 2) (h : Filled c price b (some (side, q)) b') :
    b'.qty = heldAfter b.qty q side ∧ ∃ fee, 0 ≤ fee ∧ fee ≤ 51 / 10 ^ 5 * (price * q) + 2 ∧
      |b'.worth price - (b.worth price - fee)| ≤ 5 := by
  have hX : 0 < price * q := mul_pos hp hq
  cases h with
  | @bought _ fee v cost cash hfee hv hcost hcash =>
    obtain ⟨hf₀, hf₁, htotal⟩ := total_close hc hX hε hfee hv
    obtain ⟨hx₁, hx₂⟩ := abs_le.mp (htotal fee cost (abs_of_nonneg hf₀) hcost)
    obtain ⟨hc₁, hc₂⟩ := abs_le.mp hcash
    refine ⟨rfl, fee, hf₀, hf₁, ?_⟩
    norm_num [unit] at hc₁ hc₂
    unfold SoloBook.worth
    dsimp only
    rw [abs_le]
    constructor <;> linarith
  | @sold _ fee v proceeds cash hfee hv hpr hcash =>
    obtain ⟨hf₀, hf₁, htotal⟩ := total_close hc hX hε hfee hv
    rw [sub_eq_add_neg] at hpr
    obtain ⟨hx₁, hx₂⟩ := abs_le.mp (htotal (-fee) proceeds (by rw [abs_neg, abs_of_nonneg hf₀]) hpr)
    obtain ⟨hc₁, hc₂⟩ := abs_le.mp hcash
    refine ⟨rfl, fee, hf₀, hf₁, ?_⟩
    norm_num [unit] at hc₁ hc₂
    unfold SoloBook.worth
    dsimp only
    rw [abs_le]
    constructor <;> linarith

theorem close_after_buy {E W v t : ℚ} (hc : c.Accurate ε) (hp : 0 < price) (hp' : price ≤ 10 ^ 11)
    (hε : ε * E ≤ 1) (hE : E = cash + qty * price) (hqty : 0 ≤ qty * price) (hW : W ≤ E)
    (hv : |v - qty * price| ≤ 2) (ht : |t - W| ≤ 8)
    (h : rebalanceTo c qty price cash v t = .ok (some (.buy, q))) :
    0 < q ∧ 5000 ≤ cash ∧ price * q ≤ cash ∧
      |W - (qty * price + price * q)| ≤ 5 / 10 ^ 4 * W + 1040 := by
  obtain ⟨hq, ⟨-, hlt, gap, hgap, hmin, hafford⟩ | ⟨hside, -⟩⟩ := rebalanceTo_cases h
  swap
  · cases hside
  have hcash : 5000 ≤ cash := hmin.trans (min_le_right _ _)
  have hle := affordableQty_le hc hp hmin hq.le hafford
  have hge := le_affordableQty hc hp hmin hafford
  have hbudget : min gap cash ≤ cash := min_le_right _ _
  have hbudgetGap : min gap cash ≤ gap := min_le_left _ _
  obtain ⟨hv₁, hv₂⟩ := abs_le.mp hv
  obtain ⟨ht₁, ht₂⟩ := abs_le.mp ht
  -- the gap is that to the target, and the cash covers it up to the rounding
  have hgapErr : |gap - (t - v)| ≤ 2 := by
    have herr := hc.error hgap
    rw [abs_of_pos (sub_pos.mpr hlt)] at herr
    have hmul := mul_le_mul_of_nonneg_left (by linarith : t - v ≤ E + 10) hc.nonneg
    have hsmall := hc.small
    linarith
  obtain ⟨hg₁, hg₂⟩ := abs_le.mp hgapErr
  have hbudgetGe : W - qty * price - 25 ≤ min gap cash := by
    apply le_min
    · linarith
    · linarith
  simp only [feeRate, feeQuant] at hle hge
  refine ⟨hq, hcash, by linarith, ?_⟩
  rw [abs_le]
  constructor <;> linarith

theorem close_after_sell {E W v t : ℚ} (hc : c.Accurate ε) (hp : 0 < price) (hp' : price ≤ 10 ^ 11)
    (hε : ε * E ≤ 1) (hE : qty * price ≤ E) (hW₀ : 0 ≤ W)
    (hv : |v - qty * price| ≤ 2) (ht : |t - W| ≤ 8)
    (h : rebalanceTo c qty price cash v t = .ok (some (.sell, q))) :
    0 < q ∧ q ≤ qty ∧ 4980 ≤ qty * price ∧ |W - (qty * price - price * q)| ≤ 1040 := by
  obtain ⟨hq, ⟨hside, -⟩ | ⟨-, hle, sellVal, z, y, hsell, hmin, hz, hy, rfl⟩⟩ :=
    rebalanceTo_cases h
  · cases hside
  have hmin : (5000 : ℚ) ≤ sellVal := hmin
  obtain ⟨hv₁, hv₂⟩ := abs_le.mp hv
  obtain ⟨ht₁, ht₂⟩ := abs_le.mp ht
  have hεsmall := hc.small
  have hgapErr : |sellVal - (v - t)| ≤ 2 := by
    have herr := hc.error hsell
    rw [abs_of_nonneg (sub_nonneg.mpr hle)] at herr
    have hmul := mul_le_mul_of_nonneg_left (by linarith : v - t ≤ E + 10) hc.nonneg
    linarith
  obtain ⟨hg₁, hg₂⟩ := abs_le.mp hgapErr
  rw [Context.divFin, if_neg hp.ne'] at hz
  have hquot : 0 ≤ sellVal / price := div_nonneg (by linarith) hp.le
  have hzErr := hc.quot_error hz
  rw [abs_of_nonneg hquot] at hzErr
  -- the quantity in won
  have hzMul : |z * price - sellVal| ≤ 2 := by
    have hfactor : z * price - sellVal = (z - sellVal / price) * price := by field_simp
    have hmul : ε * (sellVal / price) * price = ε * sellVal := by field_simp
    have hbound := mul_le_mul_of_nonneg_left (by linarith : sellVal ≤ E + 20) hc.nonneg
    rw [hfactor, abs_mul, abs_of_pos hp]
    have := mul_le_mul_of_nonneg_right hzErr hp.le
    linarith
  obtain ⟨hm₁, hm₂⟩ := abs_le.mp hzMul
  have hz₀ := hc.quot_nonneg hz hquot
  have hy₁ := mul_le_mul_of_nonneg_right (Context.quantizeDown_le hy hz₀) hp.le
  have hy₂ := mul_le_mul_of_nonneg_right (Context.lt_quantizeDown_add hy hz₀).le hp.le
  refine ⟨hq, min_le_right _ _, by linarith, ?_⟩
  rw [abs_le]
  rcases le_total y qty with hyq | hyq
  · rw [min_eq_left hyq]
    constructor <;> linarith
  · rw [min_eq_right hyq]
    have := mul_le_mul_of_nonneg_right hyq hp.le
    constructor <;> linarith

end Orders

/-! ## The next decision -/

section Next

variable {c : Context} {ε M price w band q : ℚ} {side : Side} {order : Option (Side × ℚ)}
  {b b' : SoloBook}

/-- The holding after an order on a target is close to it. -/
theorem close_after_order (hc : c.Accurate ε)
    (htotal : ∀ {x : ℚ}, |x| ≤ M → ∃ y, c.finish x = .ok y) (hcash : 0 ≤ b.cash) (hqty : 0 ≤ b.qty)
    (hp : 0 < price) (hp' : price ≤ 10 ^ 11) (hε : ε * b.worth price ≤ 1)
    (hM : 2 * b.worth price + 2000 ≤ M) (hw₀ : 0 < w) (hw₁ : w ≤ 1) {v eq t : ℚ}
    (hv : c.finish (b.qty * price) = .ok v) (heq : c.finish (b.cash + v) = .ok eq)
    (ht : c.finish (eq * w) = .ok t)
    (h : rebalanceTo c b.qty price b.cash v t = .ok (some (side, q))) :
    0 < q ∧ 0 ≤ heldAfter b.qty q side ∧ 4980 ≤ b.worth price ∧ price * q ≤ b.worth price ∧
      |w * b.worth price - heldAfter b.qty q side * price| ≤
        5 / 10 ^ 4 * (w * b.worth price) + 1040 := by
  have hV : 0 ≤ b.qty * price := mul_nonneg hqty hp.le
  have hworth : b.worth price = b.cash + b.qty * price := rfl
  have hE : 0 ≤ b.worth price := by linarith
  have hW₀ : 0 ≤ w * b.worth price := mul_nonneg hw₀.le hE
  obtain ⟨v', eq', t', hcomp⟩ := exists_computed hc htotal hV (by linarith) hE (by linarith) hM
    hw₀.le hw₁
  obtain rfl := Except.ok.inj (hv.symm.trans hcomp.value)
  obtain rfl := Except.ok.inj (heq.symm.trans hcomp.equity)
  obtain rfl := Except.ok.inj (ht.symm.trans hcomp.target)
  cases side with
  | buy =>
    obtain ⟨hq, hmin, hle, hclose⟩ := close_after_buy hc hp hp' hε hworth hV
      (mul_le_of_le_one_left hE hw₁) hcomp.value_close hcomp.target_close h
    refine ⟨hq, add_nonneg hqty hq.le, by linarith, by linarith, ?_⟩
    have hheld : heldAfter b.qty q .buy * price = b.qty * price + price * q := by
      unfold heldAfter
      ring
    rwa [hheld]
  | sell =>
    obtain ⟨hq, hle, hmin, hclose⟩ := close_after_sell hc hp hp' hε (by linarith) hW₀
      hcomp.value_close hcomp.target_close h
    have hpq := mul_le_mul_of_nonneg_left hle hp.le
    refine ⟨hq, sub_nonneg.mpr hle, by linarith, by linarith, ?_⟩
    have hheld : heldAfter b.qty q .sell * price = b.qty * price - price * q := by
      unfold heldAfter
      ring
    rw [hheld]
    linarith

theorem decide_of_empty (hc : c.Accurate ε)
    (htotal : ∀ {x : ℚ}, |x| ≤ M → ∃ y, c.finish x = .ok y) (hM : |b.cash| ≤ M) (hq : b.qty = 0)
    (hw : w ≤ 0) : b.decide c price w band = .ok none := by
  obtain ⟨v, hv⟩ := hc.total (x := 0) (by norm_num)
  have hv₀ : v = 0 := by
    have := hc.error_le hv
    simpa using this
  obtain ⟨eq, heq⟩ := htotal hM
  unfold SoloBook.decide
  rw [hq, zero_mul, hv, hv₀]
  change (c.finish (b.cash + 0) >>= fun eq => Rebalance.decide c 0 price b.cash eq w band) = _
  rw [add_zero, heq]
  change Rebalance.decide c 0 price b.cash eq w band = _
  unfold Rebalance.decide
  split_ifs
  · rfl
  · rfl

theorem decide_after_clearing (hc : c.Accurate ε)
    (htotal : ∀ {x : ℚ}, |x| ≤ M → ∃ y, c.finish x = .ok y) (hcash : 0 ≤ b.cash) (hp : 0 < price)
    (hq : 0 < b.qty) (hε : ε * b.worth price ≤ 1) (hM : 4 * b.worth price + 10 ^ 5 ≤ M) (hw : w ≤ 0)
    (hfill : SoloBook.Filled c price b (some (.sell, b.qty)) b') :
    b'.decide c price w band = .ok none := by
  have hV : 0 < b.qty * price := mul_pos hq hp
  have hworth : b.worth price = b.cash + b.qty * price := rfl
  have hpq : ε * (price * b.qty) ≤ 3 / 2 := by
    have := mul_le_mul_of_nonneg_left (by linarith : price * b.qty ≤ b.worth price) hc.nonneg
    linarith
  obtain ⟨hheld, fee, hfee₀, hfee₁, hworth'⟩ := hfill.worth hc hp hq hpq
  have hzero : b'.qty = 0 := by rw [hheld, heldAfter, sub_self]
  obtain ⟨h₁, h₂⟩ := abs_le.mp hworth'
  have hcash' : b'.worth price = b'.cash := by rw [SoloBook.worth, hzero, zero_mul, add_zero]
  apply decide_of_empty hc htotal _ hzero hw
  rw [abs_le]
  constructor <;> linarith

theorem decide_after (hc : c.Accurate ε) (htotal : ∀ {x : ℚ}, |x| ≤ M → ∃ y, c.finish x = .ok y)
    (hcash : 0 ≤ b.cash) (hqty : 0 ≤ b.qty) (hp : 0 < price) (hp' : price ≤ 10 ^ 11)
    (hε : ε * b.worth price ≤ 1) (hM : 4 * b.worth price + 10 ^ 5 ≤ M) (hw₁ : w ≤ 1)
    (hband : 2 / 1000 ≤ band) (hbandM : band ≤ M) (h : b.decide c price w band = .ok order)
    (hfill : SoloBook.Filled c price b order b') : b'.decide c price w band = .ok none := by
  have hV : 0 ≤ b.qty * price := mul_nonneg hqty hp.le
  have hworth : b.worth price = b.cash + b.qty * price := rfl
  have hεsmall := hc.small
  cases order with
  | none =>
    cases hfill
    exact h
  | some sq =>
    obtain ⟨side, q⟩ := sq
    obtain ⟨-, ⟨hw, rfl, rfl, hq⟩ | ⟨hw₀, v, eq, t, hv, heq, ht, hto⟩⟩ := SoloBook.decide_cases h
    · exact decide_after_clearing hc htotal hcash hp hq hε hM hw hfill
    · obtain ⟨hq, hheld₀, hmin, hpq, hclose⟩ := close_after_order hc htotal hcash hqty hp hp' hε
        (by linarith) hw₀ hw₁ hv heq ht hto
      have hεpq : ε * (price * q) ≤ 3 / 2 := by
        have := mul_le_mul_of_nonneg_left hpq hc.nonneg
        linarith
      obtain ⟨hheld, fee, hfee₀, hfee₁, hworth'⟩ := hfill.worth hc hp hq hεpq
      obtain ⟨h₁, h₂⟩ := abs_le.mp hworth'
      -- the fee and the rounding move the target by a small part of itself
      have hshift : |w * b'.worth price - w * (b.worth price - fee)| ≤ 5 := by
        rw [← mul_sub, abs_mul, abs_of_pos hw₀]
        exact (mul_le_of_le_one_left (abs_nonneg _) hw₁).trans hworth'
      obtain ⟨hs₁, hs₂⟩ := abs_le.mp hshift
      obtain ⟨hc₁, hc₂⟩ := abs_le.mp hclose
      have hfeeW : w * fee ≤ 51 / 10 ^ 5 * (w * b.worth price) + 2 := by
        have := mul_le_mul_of_nonneg_left (by linarith :
          fee ≤ 51 / 10 ^ 5 * b.worth price + 2) hw₀.le
        linarith
      have hfeeW₀ : 0 ≤ w * fee := mul_nonneg hw₀.le hfee₀
      have hε' : ε * b'.worth price ≤ 3 / 2 := by
        have := mul_le_mul_of_nonneg_left (by linarith :
          b'.worth price ≤ b.worth price + 5) hc.nonneg
        linarith
      rw [← hheld] at hc₁ hc₂ hheld₀
      apply decide_of_close hc htotal hp hheld₀ (by linarith) hε' (by linarith) hw₀ hw₁ hband hbandM
      rw [abs_le]
      constructor <;> linarith

/-- The arithmetic is exact, or it has the 28 digits of the source, on amounts that the columns
hold and for a band that is a float. -/
def InRange (c : Context) (b : SoloBook) (band : ℚ) : Prop :=
  c = .exact ∨ c = .default ∧ b.cash < 10 ^ 16 ∧ b.qty < 10 ^ 16 ∧ band < 10 ^ 309

/-- After the order of a decision the same decision gives no order. -/
theorem decide_settles (hrange : InRange c b band) (hw : w ≤ 1) (hcash : 0 ≤ b.cash)
    (hqty : 0 ≤ b.qty) (hp : 0 < price) (hp' : price ≤ 10 ^ 11) (hband : 2 / 1000 ≤ band)
    (h : b.decide c price w band = .ok order) (hfill : SoloBook.Filled c price b order b') :
    b'.decide c price w band = .ok none := by
  have hV : 0 ≤ b.qty * price := mul_nonneg hqty hp.le
  have hworth : b.worth price = b.cash + b.qty * price := rfl
  rcases hrange with rfl | ⟨rfl, hcashLt, hqtyLt, hbandLt⟩
  · have htotal : ∀ {x : ℚ}, |x| ≤ 4 * b.worth price + 10 ^ 5 + band →
        ∃ y, Context.exact.finish x = .ok y := fun _ => ⟨_, rfl⟩
    apply decide_after Context.accurate_exact htotal hcash hqty hp hp' _ _ hw hband _ h hfill
    · rw [zero_mul]
      norm_num
    · linarith
    · linarith
  · have htotal : ∀ {x : ℚ}, |x| ≤ 10 ^ 309 → ∃ y, Context.default.finish x = .ok y :=
      fun hx => Context.exists_finish_of_prec rfl (by norm_num) hx
    have hvalue : b.qty * price ≤ 10 ^ 16 * 10 ^ 11 :=
      mul_le_mul hqtyLt.le hp' hp.le (by norm_num)
    have hM : 4 * b.worth price + 10 ^ 5 ≤ 10 ^ 28 := by linarith
    have hpow : (10 : ℚ) ^ 28 ≤ 10 ^ 309 := pow_le_pow_right₀ (by norm_num) (by norm_num)
    apply decide_after Context.accurate_default htotal hcash hqty hp hp' _ (hM.trans hpow) hw hband
      hbandLt.le h hfill
    linarith

def idleBook : SoloBook := ⟨1000000, 0⟩

theorem decide_settles_idle : ∃ b',
    idleBook.decide .default 1000 (1 / 2) (1 / 50) = .ok (some (.buy, 49975012483 / 10 ^ 8)) ∧
      SoloBook.Filled .default 1000 idleBook (some (.buy, 49975012483 / 10 ^ 8)) b' ∧
      b'.decide .default 1000 (1 / 2) (1 / 50) = .ok none := by
  have hdecide : idleBook.decide .default 1000 (1 / 2) (1 / 50) =
      .ok (some (.buy, 49975012483 / 10 ^ 8)) := by decide +kernel
  have hfee : orderFee .default 1000 (49975012483 / 10 ^ 8) = .ok (2498751 / 10 ^ 4) := by
    decide +kernel
  have hvalue : Context.default.finish (1000 * (49975012483 / 10 ^ 8)) =
      .ok (49975012483 / 10 ^ 5) := by decide +kernel
  have hcost : Context.default.finish (49975012483 / 10 ^ 5 + 2498751 / 10 ^ 4) =
      .ok (49999999993 / 10 ^ 5) := by decide +kernel
  have hcash : |5000000001 / 10 ^ 4 - (idleBook.cash - 49999999993 / 10 ^ 5)| ≤ unit 4 / 2 := by
    decide +kernel
  have hfill := SoloBook.Filled.bought hfee hvalue hcost hcash
  refine ⟨_, hdecide, hfill, ?_⟩
  apply decide_settles _ _ _ _ _ _ _ hdecide hfill
  · exact Or.inr ⟨rfl, by decide +kernel, by decide +kernel, by decide +kernel⟩
  · norm_num
  · decide +kernel
  · decide +kernel
  · norm_num
  · norm_num
  · norm_num

end Next

end QuantTrader.Rebalance
