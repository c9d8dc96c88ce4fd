import QuantTrader.Ledger.Book

/-! # Fills that the ledger applies

A covered fill whose numbers fit their columns is applied: no statement of its
transaction fails. A fill that is not covered is rejected.
-/

namespace QuantTrader.Ledger

open Postgres Transition

/-- A weighted mean stays within the bounds of its terms. -/
theorem abs_mean_le {x y a u m : ℚ} (hx : 0 ≤ x) (hy : 0 < y) (ha : 0 < x → |a| ≤ m)
    (hu : |u| ≤ m) : |(x * a + y * u) / (x + y)| ≤ m := by
  have hpos : 0 < x + y := by linarith
  have hxa : |x * a| ≤ x * m := by
    rcases hx.eq_or_lt with rfl | hx'
    · simp
    · rw [abs_mul, abs_of_pos hx']
      exact mul_le_mul_of_nonneg_left (ha hx') hx
  have hyu : |y * u| ≤ y * m := by
    rw [abs_mul, abs_of_pos hy]
    exact mul_le_mul_of_nonneg_left hu hy.le
  rw [abs_div, abs_of_pos hpos, div_le_iff₀ hpos]
  have hadd := abs_add_le (x * a) (y * u)
  linarith

variable {c : Context} {ε cost unitCost proceeds : ℚ} {db : Db} {f : Fill} {b : Book}

theorem exists_store {p s : ℕ} {x : ℚ} (h : |roundTo s x| < bound p s) :
    ∃ n : Numeric p s, store p s (.fin x) = .ok n ∧ n.val = .fin (roundTo s x) :=
  ⟨⟨.fin (roundTo s x), onGrid_roundTo s x, h⟩, store_fin_iff.mpr ⟨h, rfl⟩, rfl⟩

theorem exists_store_nonneg {p s : ℕ} {x : ℚ} (h : |roundTo s x| < bound p s)
    (h0 : 0 ≤ roundTo s x) :
    ∃ n : NonNegNumeric p s, store p s (.fin x) = .ok n.val ∧ n.val.val = .fin (roundTo s x) := by
  obtain ⟨n, hn, hx⟩ := exists_store h
  have hnn : NonNeg n.val := by rw [hx]; exact h0
  exact ⟨⟨n, hnn⟩, hn, hx⟩

theorem exists_store_quantity {x : ℚ} (hg : OnGrid (unit 12) x) (h0 : 0 ≤ x) (h : x < bound 28 12) :
    ∃ n : NonNegNumeric 28 12, store 28 12 (.fin x) = .ok n.val ∧ n.val.val = .fin x := by
  have hround : roundTo 12 x = x := roundTo_of_onGrid hg
  obtain ⟨n, hn, hx⟩ : ∃ n : NonNegNumeric 28 12, store 28 12 (.fin x) = .ok n.val ∧
      n.val.val = .fin (roundTo 12 x) := by
    apply exists_store_nonneg
    · rwa [hround, abs_of_nonneg h0]
    · rwa [hround]
  exact ⟨n, hn, by rw [hx, hround]⟩

/-- The numbers of a message fit the columns of `executions`. -/
structure Fill.Recordable (f : Fill) : Prop where
  price : |roundTo 4 f.price| < bound 20 4
  qty : f.qty < bound 28 12
  fee : f.fee < bound 20 4

theorem Fill.Recordable.exists_row (h : f.Recordable) : ∃ row, StoredAs f.toExecution row := by
  obtain ⟨price, hp, -⟩ := exists_store h.price
  obtain ⟨qty, hq, -⟩ : ∃ n : Numeric 28 12, store 28 12 (.fin f.qty) = .ok n ∧ n.val = _ :=
    exists_store (by rw [roundTo_of_onGrid f.qty_grid, abs_of_pos f.qty_pos]; exact h.qty)
  obtain ⟨fee, hf, -⟩ : ∃ n : Numeric 20 4, store 20 4 (.fin f.fee) = .ok n ∧ n.val = _ :=
    exists_store (by rw [roundTo_of_onGrid f.fee_grid, abs_of_nonneg f.fee_nonneg]; exact h.fee)
  exact ⟨⟨_, _, _, _, _, price, qty, fee⟩, rfl, rfl, rfl, rfl, rfl, hp, hq, hf⟩

namespace View

/-- The average of a held symbol is a value of its column. -/
theorem avg_bound (hv : View db f.accountId b) (h : 0 < b.qty f.symbol) :
    OnGrid (unit 4) (b.avg f.symbol) ∧ |b.avg f.symbol| < bound 20 4 := by
  cases hp : db.positions f.accountId f.symbol with
  | none =>
    rw [hv.absent _ hp] at h
    exact (lt_irrefl _ h).elim
  | some p =>
    have hn := p.avgBuyPrice.2
    rw [(hv.held _ _ hp).2] at hn
    exact hn

theorem mergedAvg_bound (hv : View db f.accountId b) (hu : |roundTo 4 unitCost| < bound 20 4) :
    |roundTo 4 (b.mergedAvg f unitCost)| < bound 20 4 := by
  rcases (b.qty_nonneg f.symbol).eq_or_lt with h0 | hpos
  · refine (abs_roundTo_le (onGrid_roundTo 4 unitCost).abs ?_).trans_lt hu
    exact abs_mean_le (b.qty_nonneg _) f.qty_pos (fun h => absurd h0 h.ne) le_rfl
  · obtain ⟨hg, hb⟩ := hv.avg_bound hpos
    have hmax : OnGrid (unit 4) (max |b.avg f.symbol| |roundTo 4 unitCost|) := by
      rcases max_choice |b.avg f.symbol| |roundTo 4 unitCost| with h | h
      · rw [h]; exact hg.abs
      · rw [h]; exact (onGrid_roundTo 4 unitCost).abs
    refine (abs_roundTo_le hmax ?_).trans_lt (max_lt hb hu)
    exact abs_mean_le (b.qty_nonneg _) f.qty_pos (fun _ => le_max_left _ _) (le_max_right _ _)

theorem exists_position (hv : View db f.accountId b) (hub : |roundTo 4 unitCost| < bound 20 4)
    (hqb : b.qty f.symbol + f.qty < bound 28 12) {qty : NonNegNumeric 28 12} {avg : Numeric 20 4}
    (hqv : qty.val.val = .fin f.qty) (havgv : avg.val = .fin (roundTo 4 unitCost)) :
    ∃ pos : Position, (∀ p, db.positions f.accountId f.symbol = some p →
      p.merge ⟨qty, avg⟩ = .ok pos) ∧
      (db.positions f.accountId f.symbol = none → pos = ⟨qty, avg⟩) := by
  cases hp : db.positions f.accountId f.symbol with
  | none => exact ⟨⟨qty, avg⟩, nofun, fun _ => rfl⟩
  | some p =>
    obtain ⟨hpq, hpa⟩ := hv.held _ _ hp
    have hsum : 0 < b.qty f.symbol + f.qty := by linarith [b.qty_nonneg f.symbol, f.qty_pos]
    obtain ⟨ma, hma, -⟩ : ∃ n : Numeric 20 4,
        store 20 4 (.fin (b.mergedAvg f unitCost)) = .ok n ∧ n.val = _ :=
      exists_store (hv.mergedAvg_bound hub)
    obtain ⟨mq, hmq, -⟩ := exists_store_quantity ((b.qty_grid f.symbol).add f.qty_grid) hsum.le hqb
    refine ⟨⟨mq, ma⟩, ?_, nofun⟩
    rintro _ ⟨⟩
    exact (Position.merge_ok_iff hpq hpa hqv havgv hsum.ne').mpr ⟨hma, hmq⟩

theorem applied_buy (hv : View db f.accountId b) (hs : f.side = .buy)
    (hfresh : db.recorded f.executionId = false) (horder : (db.orders f.orderId).isSome)
    (hrec : f.Recordable) (hc : f.cost c = .ok cost) (hle : cost ≤ b.cash) (h0 : 0 ≤ cost)
    (hu : c.quot cost f.qty = .ok unitCost) (hub : |roundTo 4 unitCost| < bound 20 4)
    (hqb : b.qty f.symbol + f.qty < bound 28 12) :
    ∃ db', applyExecution c db f.toExecution = .ok (db', .applied) := by
  obtain ⟨bal, hbal, hb⟩ := hv.balance
  have hq0 := f.qty_pos
  obtain ⟨row, hrow⟩ := hrec.exists_row
  have hcash := (b.abs_roundTo_buy_le hle h0).trans_lt hv.cash_lt
  obtain ⟨bal', hst, -⟩ := exists_store_nonneg hcash (roundTo_nonneg 4 (sub_nonneg.mpr hle))
  obtain ⟨qty, hqty, hqv⟩ := exists_store_quantity f.qty_grid hq0.le hrec.qty
  obtain ⟨avg, havg, havgv⟩ := exists_store hub
  obtain ⟨pos, hm, hn⟩ := hv.exists_position hub hqb hqv havgv
  obtain ⟨mid, hbook⟩ : ∃ mid, Ledger.bookBuy c db f.toExecution (.fin cost) = .ok mid := by
    refine ⟨_, (bookBuy_ok_iff (by exact hbal)).mpr
      ⟨bal', row, .fin unitCost, ⟨qty, avg⟩, pos, hrow, hfresh, horder, ?_, ?_, hqty, havg, hm, hn,
        rfl⟩⟩
    · rw [hb, sub_fin]; exact hst
    · rw [Fill.toExecution_quantity, Context.div_fin _ hq0.ne', hu]; rfl
  have hcost := f.cost_toExecution.mpr ⟨cost, hc, rfl⟩
  have hlt : decide (b.cash < cost) = false := by simpa using hle
  refine ⟨mid.fill f.orderId, ?_⟩
  unfold applyExecution
  rw [if_neg (by simpa using hfresh)]
  simp only [Fill.toExecution_side, hs, applyBuy, hcost, Raise.py, Except.mapError, bind,
    Except.bind, Fill.toExecution_accountId, hbal, hb, Decimal.lt_fin, hlt, Bool.false_eq_true,
    if_false, hbook]
  rfl

theorem applied_sell (hc : c.Accurate ε) (hv : View db f.accountId b) (hs : f.side = .sell)
    (hfresh : db.recorded f.executionId = false) (horder : (db.orders f.orderId).isSome)
    (hrec : f.Recordable) (hle : f.qty ≤ b.qty f.symbol) (hp : f.proceeds c = .ok proceeds)
    (hcb : |roundTo 4 (b.cash + proceeds)| < bound 20 4) :
    ∃ db', applyExecution c db f.toExecution = .ok (db', .applied) := by
  obtain ⟨bal, hbal, hb⟩ := hv.balance
  have hq0 := f.qty_pos
  cases hpos : db.positions f.accountId f.symbol with
  | none =>
    rw [hv.absent _ hpos] at hle
    linarith
  | some p =>
    obtain ⟨hpq, -⟩ := hv.held _ _ hpos
    obtain ⟨row, hrow⟩ := hrec.exists_row
    have hnn : 0 ≤ roundTo 4 (b.cash + proceeds) :=
      b.cash_nonneg.trans (le_roundTo b.cash_grid (by linarith [f.proceeds_gt hc hp]))
    obtain ⟨bal', hst, -⟩ := exists_store_nonneg hcb hnn
    have hleft : b.qty f.symbol - f.qty < bound 28 12 := by
      have h := p.quantity.val.2
      rw [hpq] at h
      linarith [(le_abs_self (b.qty f.symbol)).trans_lt h.2]
    obtain ⟨q, hq, -⟩ := exists_store_quantity ((b.qty_grid f.symbol).sub f.qty_grid)
      (sub_nonneg.mpr hle) hleft
    obtain ⟨mid, hbook⟩ : ∃ mid, Ledger.bookSell c db f.toExecution = .ok mid := by
      refine ⟨_, (bookSell_ok_iff (by exact hpos)).mpr ⟨bal, bal', row, .fin proceeds, q, hrow,
        hfresh, horder, hbal, f.proceeds_toExecution.mpr ⟨proceeds, hp, rfl⟩, ?_, ?_, rfl⟩⟩
      · rw [hb, add_fin]; exact hst
      · rw [hpq, Fill.toExecution_quantity, sub_fin]; exact hq
    have hlt : decide (b.qty f.symbol < f.qty) = false := by simpa using hle
    refine ⟨mid.fill f.orderId, ?_⟩
    unfold applyExecution
    rw [if_neg (by simpa using hfresh)]
    simp only [Fill.toExecution_side, hs, applySell, Fill.toExecution_accountId,
      Fill.toExecution_symbol, hpos, hpq, Fill.toExecution_quantity, Decimal.lt_fin, hlt, Raise.py,
      Except.mapError, bind, Except.bind, Bool.false_eq_true, if_false, hbook]
    rfl

theorem rejected (hv : View db f.accountId b) (hfresh : db.recorded f.executionId = false)
    (h : b.Refuses c f) :
    applyExecution c db f.toExecution = .ok (db.reject f.orderId, .rejected) := by
  obtain ⟨bal, hbal, hb⟩ := hv.balance
  unfold applyExecution
  rw [if_neg (by simpa using hfresh)]
  unfold Book.Refuses at h
  cases hs : f.side with
  | buy =>
    simp only [hs] at h
    obtain ⟨cost, hcost, hlt⟩ := h
    have hcost' := f.cost_toExecution.mpr ⟨cost, hcost, rfl⟩
    simp only [Fill.toExecution_side, hs, applyBuy, hcost', Raise.py, Except.mapError, bind,
      Except.bind, Fill.toExecution_accountId, hbal, hb, Decimal.lt_fin, hlt, decide_true]
    rfl
  | sell =>
    simp only [hs] at h
    simp only [Fill.toExecution_side, hs, applySell, Fill.toExecution_accountId,
      Fill.toExecution_symbol]
    cases hp : db.positions f.accountId f.symbol with
    | none => rfl
    | some p =>
      simp only [(hv.held _ _ hp).1, Fill.toExecution_quantity, Decimal.lt_fin, h, decide_true,
        Raise.py, Except.mapError]
      rfl

end View

end QuantTrader.Ledger
