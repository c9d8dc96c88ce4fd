import QuantTrader.Ledger.Progress

/-! # Deliveries that are answered

The updater answers every message that is priced and charged as the engine does
it, unless the account covers it and one of the writes fails: the order is gone,
or a number leaves the range of its column.
-/

namespace QuantTrader.Ledger

open Postgres Transition

variable {c : Context} {ε p q v fee : ℚ} {db db' mid : Db} {ex : Execution} {cost proceeds : Decimal}

/-- A value that a `NUMERIC(p,s)` column takes. -/
def Fits (p s : ℕ) (d : Decimal) : Prop := ∃ n, store p s d = .ok n

theorem fits_fin_iff {p s : ℕ} {x : ℚ} : Fits p s (.fin x) ↔ |roundTo s x| < bound p s := by
  constructor
  · rintro ⟨n, hn⟩
    exact (store_fin_iff.mp hn).1
  · intro h
    obtain ⟨n, hn, -⟩ := exists_store h
    exact ⟨n, hn⟩

/-- The accounts and positions hold finite numbers. -/
structure Db.Finite (db : Db) : Prop where
  balance : ∀ a bal, db.accounts a = some bal → bal.val.val.IsFin
  quantity : ∀ a s r, db.positions a s = some r → r.quantity.val.val.IsFin
  avg : ∀ a s r, db.positions a s = some r → r.avgBuyPrice.val.IsFin

/-- A message with finite numbers whose fee is part of its amount `v`. -/
structure Charged (c : Context) (ex : Execution) (p q v fee : ℚ) : Prop where
  price : ex.price = .fin p
  quantity : ex.quantity = .fin q
  charge : ex.fee = .fin fee
  amount : c.finish (p * q) = .ok v
  amount_lt : v < 10 ^ 28
  quantity_nonneg : 0 ≤ q
  fee_nonneg : 0 ≤ fee
  fee_le : fee ≤ v
  stored : Fits 28 12 (.fin q)
  bought : ex.side = .buy → 0 < roundTo 12 q

/-- The writes of a covered message: its order is still there, and its numbers fit. -/
structure Bookable (c : Context) (db : Db) (ex : Execution) : Prop where
  order : (db.orders ex.orderId).isSome
  price : Fits 20 4 ex.price
  fee : Fits 20 4 ex.fee
  unitCost : ex.side = .buy → ∀ cost u, ex.cost c = .ok cost → c.div cost ex.quantity = .ok u →
    Fits 20 4 u
  holding : ex.side = .buy → ∀ r n, db.positions ex.accountId ex.symbol = some r →
    store 28 12 ex.quantity = .ok n → Fits 28 12 (add r.quantity.val.val n.val)
  balance : ex.side = .sell → ∀ bal proceeds, db.accounts ex.accountId = some bal →
    ex.proceeds c = .ok proceeds → Fits 20 4 (add bal.val.val proceeds)

/-! ## What is computed before the writes -/

namespace Charged

theorem exists_cost (h : Charged c ex p q v fee) (hc : c.Accurate ε) :
    ∃ x, ex.cost c = .ok (.fin x) ∧ 0 ≤ x ∧ x < 10 ^ 30 := by
  have h0 : 0 ≤ v + fee := by linarith [h.fee_nonneg, h.fee_le]
  have hlt : v + fee < 10 ^ 29 := by linarith [h.amount_lt, h.fee_le]
  have habs : |v + fee| < 10 ^ 100 := by
    rw [abs_of_nonneg h0]
    linarith
  obtain ⟨x, hx⟩ := hc.total habs
  have herr := abs_le.mp (hc.error_le hx)
  rw [abs_of_nonneg h0] at herr
  have hcost : ex.cost c = .ok (.fin x) := by
    simp only [Execution.cost, h.price, h.quantity, h.charge, Context.mul, Context.add, h.amount,
      bind_ok_iff, map_ok_iff]
    exact ⟨.fin v, ⟨v, rfl, rfl⟩, map_ok_iff.mpr ⟨x, hx, rfl⟩⟩
  exact ⟨x, hcost, hc.nonneg_of_finish hx h0, by linarith⟩

theorem exists_proceeds (h : Charged c ex p q v fee) (hc : c.Accurate ε) :
    ∃ x, ex.proceeds c = .ok (.fin x) ∧ 0 ≤ x := by
  have h0 : 0 ≤ v - fee := sub_nonneg.mpr h.fee_le
  have habs : |v - fee| < 10 ^ 100 := by
    rw [abs_of_nonneg h0]
    linarith [h.amount_lt, h.fee_nonneg]
  obtain ⟨x, hx⟩ := hc.total habs
  have hp : ex.proceeds c = .ok (.fin x) := by
    simp only [Execution.proceeds, h.price, h.quantity, h.charge, Context.mul, h.amount, bind_ok_iff,
      map_ok_iff]
    refine ⟨.fin v, ⟨v, rfl, rfl⟩, ?_⟩
    rw [Context.sub_fin]
    exact map_ok_iff.mpr ⟨x, hx, rfl⟩
  exact ⟨x, hp, hc.nonneg_of_finish hx h0⟩

theorem half_unit_le (h : Charged c ex p q v fee) (hs : ex.side = .buy) : unit 12 / 2 ≤ q := by
  by_contra hlt
  have hle := roundTo_le (.zero (unit 12)) (show q < 0 + unit 12 / 2 by linarith)
  linarith [h.bought hs]

theorem exists_unitCost (h : Charged c ex p q v fee) (hc : c.Accurate ε) (hs : ex.side = .buy)
    {x : ℚ} (h0 : 0 ≤ x) (hx : x < 10 ^ 30) : ∃ u, c.div (.fin x) ex.quantity = .ok (.fin u) := by
  have hq := h.half_unit_le hs
  have hq0 : 0 < q := by linarith [unit_pos 12]
  have hu : (unit 12 : ℚ) = 1 / 10 ^ 12 := by norm_num [unit]
  have habs : |x / q| < 10 ^ 100 := by
    rw [abs_of_nonneg (div_nonneg h0 hq0.le), div_lt_iff₀ hq0]
    rw [hu] at hq
    linarith
  rw [h.quantity, Context.div_fin _ hq0.ne']
  unfold Context.quot
  split_ifs
  · exact ⟨x / q, rfl⟩
  · obtain ⟨u, hu⟩ := hc.total habs
    exact ⟨u, map_ok_iff.mpr ⟨u, hu, rfl⟩⟩

end Charged

/-! ## Bookings -/

theorem exists_row (hp : Fits 20 4 ex.price) (hq : Fits 28 12 ex.quantity) (hf : Fits 20 4 ex.fee) :
    ∃ row, StoredAs ex row := by
  obtain ⟨price, hp⟩ := hp
  obtain ⟨quantity, hq⟩ := hq
  obtain ⟨fee, hf⟩ := hf
  exact ⟨⟨_, _, _, _, _, price, quantity, fee⟩, rfl, rfl, rfl, rfl, rfl, hp, hq, hf⟩

theorem exists_merge {r : Position} (new : Position) (hq : r.quantity.val.val.IsFin)
    (ha : r.avgBuyPrice.val.IsFin) {y u : ℚ} (hy : new.quantity.val.val = .fin y)
    (hu : new.avgBuyPrice.val = .fin u) (hpos : 0 < y)
    (hfit : Fits 28 12 (add r.quantity.val.val new.quantity.val.val)) :
    ∃ row, r.merge new = .ok row := by
  obtain ⟨x, hx⟩ := Decimal.isFin_iff.mp hq
  obtain ⟨a, ha⟩ := Decimal.isFin_iff.mp ha
  have hx0 : 0 ≤ x := by
    have h := r.quantity.2
    rwa [hx] at h
  have hab : OnGrid (unit 4) a ∧ |a| < bound 20 4 := by
    have h := r.avgBuyPrice.2
    rwa [ha] at h
  have hub : OnGrid (unit 4) u ∧ |u| < bound 20 4 := by
    have h := new.avgBuyPrice.2
    rwa [hu] at h
  have hgrid : OnGrid (unit 4) (max |a| |u|) := by
    rcases max_choice |a| |u| with h | h
    · rw [h]
      exact hab.1.abs
    · rw [h]
      exact hub.1.abs
  have hmean := abs_mean_le hx0 hpos (fun _ => le_max_left |a| |u|) (le_max_right |a| |u|)
  obtain ⟨avg, havg, -⟩ := exists_store ((abs_roundTo_le hgrid hmean).trans_lt (max_lt hab.2 hub.2))
  rw [hx, hy, add_fin, fits_fin_iff] at hfit
  have hsum : 0 < x + y := by linarith
  obtain ⟨quantity, hqty, -⟩ := exists_store_nonneg hfit (roundTo_nonneg 12 hsum.le)
  exact ⟨⟨quantity, avg⟩, (Position.merge_ok_iff hx ha hy hu hsum.ne').mpr ⟨havg, hqty⟩⟩

theorem abs_roundTo_sub_lt {p s : ℕ} {h q : ℚ} (hg : OnGrid (unit s) h ∧ |h| < bound p s)
    (h0 : 0 ≤ q) (hle : q ≤ h) : |roundTo s (h - q)| < bound p s := by
  have hsub : |h - q| ≤ |h| := by
    rw [abs_of_nonneg (sub_nonneg.mpr hle), abs_of_nonneg (h0.trans hle)]
    linarith
  exact (abs_roundTo_le hg.1.abs hsub).trans_lt hg.2

theorem exists_bookBuy (hc : c.Accurate ε) (hfin : db.Finite) (hch : Charged c ex p q v fee)
    (hs : ex.side = .buy) (hr : db.recorded ex.executionId = false) (hb : Bookable c db ex)
    {bal : NonNegNumeric 20 4} (hbal : db.accounts ex.accountId = some bal) {b x : ℚ}
    (hbv : bal.val.val = .fin b) (hx : ex.cost c = .ok (.fin x)) (h0 : 0 ≤ x) (hlt : x < 10 ^ 30)
    (hle : x ≤ b) : ∃ mid, bookBuy c db ex (.fin x) = .ok mid := by
  have hpos := hch.bought hs
  have hfit : Fits 28 12 ex.quantity := by
    rw [hch.quantity]
    exact hch.stored
  obtain ⟨row, hrow⟩ := exists_row hb.price hfit hb.fee
  have hgrid : OnGrid (unit 4) b ∧ |b| < bound 20 4 := by
    have h := bal.val.2
    rwa [hbv] at h
  have hcash : |roundTo 4 (b - x)| < bound 20 4 := abs_roundTo_sub_lt hgrid h0 hle
  obtain ⟨bal', hbal', -⟩ := exists_store_nonneg hcash (roundTo_nonneg 4 (sub_nonneg.mpr hle))
  obtain ⟨u, hu⟩ := hch.exists_unitCost hc hs h0 hlt
  obtain ⟨avg, havg⟩ := hb.unitCost hs _ _ hx hu
  obtain ⟨quantity, hqty, hqv⟩ := exists_store_nonneg (fits_fin_iff.mp hch.stored) hpos.le
  rw [← hch.quantity] at hqty
  have hrows : ∃ pos : Position, (∀ r, db.positions ex.accountId ex.symbol = some r →
      r.merge ⟨quantity, avg⟩ = .ok pos) ∧
      (db.positions ex.accountId ex.symbol = none → pos = ⟨quantity, avg⟩) := by
    cases hr : db.positions ex.accountId ex.symbol with
    | none => exact ⟨⟨quantity, avg⟩, nofun, fun _ => rfl⟩
    | some r =>
      obtain ⟨pos, hm⟩ := exists_merge ⟨quantity, avg⟩ (hfin.quantity _ _ r hr)
        (hfin.avg _ _ r hr) hqv (store_fin_iff.mp havg).2 hpos (hb.holding hs r _ hr hqty)
      refine ⟨pos, ?_, nofun⟩
      rintro _ ⟨⟩
      exact hm
  obtain ⟨pos, hm, hn⟩ := hrows
  refine ⟨_, (bookBuy_ok_iff hbal).mpr ⟨bal', row, .fin u, ⟨quantity, avg⟩, pos, hrow, hr, hb.order,
    ?_, hu, hqty, havg, hm, hn, rfl⟩⟩
  rw [hbv, sub_fin]
  exact hbal'

theorem exists_bookSell (hc : c.Accurate ε) (hch : Charged c ex p q v fee)
    (hs : ex.side = .sell) (hr : db.recorded ex.executionId = false) (hb : Bookable c db ex)
    {bal : NonNegNumeric 20 4} (hbal : db.accounts ex.accountId = some bal) {b : ℚ}
    (hbv : bal.val.val = .fin b) {r : Position} (hpos : db.positions ex.accountId ex.symbol = some r)
    {h : ℚ} (hheld : r.quantity.val.val = .fin h) (hle : q ≤ h) :
    ∃ mid, bookSell c db ex = .ok mid := by
  have hfit : Fits 28 12 ex.quantity := by
    rw [hch.quantity]
    exact hch.stored
  obtain ⟨row, hrow⟩ := exists_row hb.price hfit hb.fee
  obtain ⟨x, hx, h0⟩ := hch.exists_proceeds hc
  have hb0 : 0 ≤ b := by
    have h := bal.2
    rwa [hbv] at h
  have hcash : |roundTo 4 (b + x)| < bound 20 4 := by
    have h := hb.balance hs bal _ hbal hx
    rwa [hbv, add_fin, fits_fin_iff] at h
  obtain ⟨bal', hbal', -⟩ := exists_store_nonneg hcash (roundTo_nonneg 4 (add_nonneg hb0 h0))
  have hgrid : OnGrid (unit 12) h ∧ |h| < bound 28 12 := by
    have hn := r.quantity.val.2
    rwa [hheld] at hn
  have hleft : |roundTo 12 (h - q)| < bound 28 12 :=
    abs_roundTo_sub_lt hgrid hch.quantity_nonneg hle
  obtain ⟨left, hl, -⟩ := exists_store_nonneg hleft (roundTo_nonneg 12 (sub_nonneg.mpr hle))
  refine ⟨_, (bookSell_ok_iff hpos).mpr ⟨bal, bal', row, .fin x, left, hrow, hr, hb.order, hbal, hx,
    ?_, ?_, rfl⟩⟩
  · rw [hbv, add_fin]
    exact hbal'
  · rw [hheld, hch.quantity, sub_fin]
    exact hl

/-! ## Answers -/

theorem applyExecution_of_booked (hr : db.recorded ex.executionId = false) (hcov : Covers c db ex)
    (hb : Booked c db ex mid) : applyExecution c db ex = .ok (mid.fill ex.orderId, .applied) := by
  unfold applyExecution
  rw [if_neg (by simp [hr])]
  unfold Covers at hcov
  unfold Booked at hb
  cases hs : ex.side with
  | buy =>
    simp only [hs] at hcov hb ⊢
    obtain ⟨bal, cost, hbal, hcost, hlt⟩ := hcov
    obtain ⟨cost', hcost', hbook⟩ := hb
    obtain rfl : cost = cost' := Except.ok.inj (hcost.symm.trans hcost')
    simp only [applyBuy, bind_ok_iff, Raise.py_ok_iff]
    refine ⟨cost, hcost, ?_⟩
    simp only [hbal, bind_ok_iff, Raise.py_ok_iff]
    refine ⟨false, hlt, ?_⟩
    simp only [Bool.false_eq_true, if_false, bind_ok_iff]
    exact ⟨mid, hbook, rfl⟩
  | sell =>
    simp only [hs] at hcov hb ⊢
    obtain ⟨held, hheld, hlt⟩ := hcov
    simp only [applySell, hheld, bind_ok_iff, Raise.py_ok_iff]
    refine ⟨false, hlt, ?_⟩
    simp only [Bool.false_eq_true, if_false, bind_ok_iff]
    exact ⟨mid, hb, rfl⟩

/-- A message with numbers that the account does not cover is rejected. -/
theorem applyExecution_of_refused (hc : c.Accurate ε) (hfin : db.Finite)
    (hch : Charged c ex p q v fee) (hr : db.recorded ex.executionId = false)
    (hcov : ¬ Covers c db ex) :
    applyExecution c db ex = .ok (db.reject ex.orderId, .rejected) := by
  unfold applyExecution
  rw [if_neg (by simp [hr])]
  unfold Covers at hcov
  cases hs : ex.side with
  | buy =>
    simp only [hs] at hcov ⊢
    obtain ⟨x, hx, -, -⟩ := hch.exists_cost hc
    simp only [applyBuy, bind_ok_iff, Raise.py_ok_iff]
    refine ⟨.fin x, hx, ?_⟩
    cases hbal : db.accounts ex.accountId with
    | none => rfl
    | some bal =>
      obtain ⟨b, hb⟩ := Decimal.isFin_iff.mp (hfin.balance _ bal hbal)
      have hlt : b < x := by
        by_contra hge
        exact hcov ⟨bal, .fin x, hbal, hx, by simp [hb, hge]⟩
      have hcmp : bal.val.val.lt (.fin x) = .ok true := by simp [hb, hlt]
      simp only [bind_ok_iff, Raise.py_ok_iff]
      exact ⟨true, hcmp, rfl⟩
  | sell =>
    simp only [hs] at hcov ⊢
    unfold applySell
    cases hpos : db.positions ex.accountId ex.symbol with
    | none => rfl
    | some r =>
      obtain ⟨h, hh⟩ := Decimal.isFin_iff.mp (hfin.quantity _ _ r hpos)
      have hlt : h < q := by
        by_contra hge
        exact hcov ⟨r, hpos, by simp [hh, hch.quantity, hge]⟩
      have hcmp : r.quantity.val.val.lt ex.quantity = .ok true := by simp [hh, hch.quantity, hlt]
      simp only [bind_ok_iff, Raise.py_ok_iff]
      exact ⟨true, hcmp, rfl⟩

theorem bookable_of_buyWrites {mid : Db} {bal bal' : NonNegNumeric 20 4} {row : ExecutionRow}
    {cost u : Decimal} {new pos : Position} (hs : ex.side = .buy) (hcost : ex.cost c = .ok cost)
    (hw : BuyWrites c db ex cost mid bal bal' row u new pos) : Bookable c db ex where
  order := hw.order
  price := ⟨_, hw.stored.price⟩
  fee := ⟨_, hw.stored.fee⟩
  unitCost _ cost' u' hcost' hu' := by
    obtain rfl : cost = cost' := Except.ok.inj (hcost.symm.trans hcost')
    obtain rfl : u = u' := Except.ok.inj (hw.div.symm.trans hu')
    exact ⟨_, hw.avg⟩
  holding _ r n hpos hn := by
    obtain rfl : new.quantity.val = n := Except.ok.inj (hw.quantity.symm.trans hn)
    have hm := hw.merged r hpos
    unfold Position.merge at hm
    split at hm
    · cases hm
    · simp only [bind_ok_iff] at hm
      obtain ⟨_, -, n, hn, -⟩ := hm
      exact ⟨n, hn⟩
  balance hs' := by
    cases hs.symm.trans hs'

theorem bookable_of_sellWrites {mid : Db} {held : Position} {bal bal' : NonNegNumeric 20 4}
    {row : ExecutionRow} {proceeds : Decimal} {left : NonNegNumeric 28 12} (hs : ex.side = .sell)
    (hw : SellWrites c db ex mid held bal bal' row proceeds left) : Bookable c db ex where
  order := hw.order
  price := ⟨_, hw.stored.price⟩
  fee := ⟨_, hw.stored.fee⟩
  unitCost hs' := by
    cases hs.symm.trans hs'
  holding hs' := by
    cases hs.symm.trans hs'
  balance _ bal₁ proceeds' hbal₁ hp := by
    obtain rfl : bal = bal₁ := Option.some.inj (hw.account.symm.trans hbal₁)
    obtain rfl : proceeds = proceeds' := Except.ok.inj (hw.earned.symm.trans hp)
    exact ⟨_, hw.balance⟩

/-- A message is booked exactly when its writes succeed. -/
theorem booked_iff (hc : c.Accurate ε) (hfin : db.Finite) (hch : Charged c ex p q v fee)
    (hacct : (db.accounts ex.accountId).isSome) (hr : db.recorded ex.executionId = false)
    (hcov : Covers c db ex) : (∃ mid, Booked c db ex mid) ↔ Bookable c db ex := by
  obtain ⟨bal, hbal⟩ := Option.isSome_iff_exists.mp hacct
  obtain ⟨b, hb⟩ := Decimal.isFin_iff.mp (hfin.balance _ bal hbal)
  unfold Covers at hcov
  unfold Booked
  cases hs : ex.side with
  | buy =>
    obtain ⟨x, hx, h0, hlt⟩ := hch.exists_cost hc
    simp only [hs] at hcov ⊢
    constructor
    · rintro ⟨mid, cost, hcost, hbook⟩
      obtain ⟨bal', row, u, new, pos, hw⟩ := (bookBuy_ok_iff hbal).mp hbook
      exact bookable_of_buyWrites hs hcost hw
    · intro hbk
      obtain ⟨bal₀, cost, hbal₀, hcost, hge⟩ := hcov
      obtain rfl : bal = bal₀ := Option.some.inj (hbal.symm.trans hbal₀)
      obtain rfl : Decimal.fin x = cost := Except.ok.inj (hx.symm.trans hcost)
      have hle : x ≤ b := by simpa [hb] using hge
      obtain ⟨mid, hmid⟩ := exists_bookBuy hc hfin hch hs hr hbk hbal hb hx h0 hlt hle
      exact ⟨mid, .fin x, hx, hmid⟩
  | sell =>
    simp only [hs] at hcov ⊢
    obtain ⟨held, hheld, hge⟩ := hcov
    obtain ⟨h, hh⟩ := Decimal.isFin_iff.mp (hfin.quantity _ _ held hheld)
    constructor
    · rintro ⟨mid, hbook⟩
      obtain ⟨bal₀, bal', row, proceeds, left, hw⟩ := (bookSell_ok_iff hheld).mp hbook
      exact bookable_of_sellWrites hs hw
    · intro hbk
      have hle : q ≤ h := by simpa [hh, hch.quantity] using hge
      exact exists_bookSell hc hch hs hr hbk hbal hb hheld hh hle

/-- The updater answers a message unless it covers it and a write fails. -/
theorem answered_iff (hc : c.Accurate ε) (hfin : db.Finite) (hch : Charged c ex p q v fee)
    (hacct : (db.accounts ex.accountId).isSome) : (∃ r, applyExecution c db ex = .ok r) ↔
      (db.recorded ex.executionId = false → Covers c db ex → Bookable c db ex) := by
  constructor
  · rintro ⟨⟨db', out⟩, h⟩ hr hcov
    rcases applyExecution_cases h with ⟨-, hrec, -⟩ | ⟨-, -, hn, -⟩ | ⟨-, -, -, mid, hm, -⟩
    · rw [hr] at hrec
      cases hrec
    · exact absurd hcov hn
    · exact (booked_iff hc hfin hch hacct hr hcov).mp ⟨mid, hm⟩
  · intro h
    cases hr : db.recorded ex.executionId with
    | true => exact ⟨(db, .duplicate), by simp [applyExecution, hr]⟩
    | false =>
      by_cases hcov : Covers c db ex
      · obtain ⟨mid, hm⟩ := (booked_iff hc hfin hch hacct hr hcov).mpr (h hr hcov)
        exact ⟨_, applyExecution_of_booked hr hcov hm⟩
      · exact ⟨_, applyExecution_of_refused hc hfin hch hr hcov⟩

/-! ## Deliveries keep the numbers finite -/

theorem store_isFin {p s : ℕ} {x : ℚ} {n : Numeric p s} (h : store p s (.fin x) = .ok n) :
    n.val.IsFin := by
  rw [(store_fin_iff.mp h).2]
  trivial

theorem Db.Finite.writes (h : db.Finite) {acct sym : String} {bal : NonNegNumeric 20 4}
    {row : ExecutionRow} {r : Position} (hb : bal.val.val.IsFin) (hq : r.quantity.val.val.IsFin)
    (ha : r.avgBuyPrice.val.IsFin) : (writes db acct sym bal row r).Finite := by
  have hpos : ∀ a s r', (Ledger.writes db acct sym bal row r).positions a s = some r' →
      r' = r ∨ db.positions a s = some r' := by
    intro a s r' hr
    rcases eq_or_ne a acct with rfl | hne
    · rcases eq_or_ne s sym with rfl | hne
      · simp only [Ledger.writes, Db.setPosition, Function.update_self, Option.some.injEq] at hr
        exact Or.inl hr.symm
      · simp only [Ledger.writes, Db.setPosition, Function.update_self,
          Function.update_of_ne hne] at hr
        exact Or.inr hr
    · simp only [Ledger.writes, Db.setPosition, Function.update_of_ne hne] at hr
      exact Or.inr hr
  refine ⟨?_, ?_, ?_⟩
  · intro a bal' hbal
    rcases eq_or_ne a acct with rfl | hne
    · simp only [Ledger.writes, Db.setPosition, Function.update_self, Option.some.injEq] at hbal
      rwa [← hbal]
    · simp only [Ledger.writes, Db.setPosition, Function.update_of_ne hne] at hbal
      exact h.balance a bal' hbal
  · intro a s r' hr
    rcases hpos a s r' hr with rfl | hr
    · exact hq
    · exact h.quantity a s r' hr
  · intro a s r' hr
    rcases hpos a s r' hr with rfl | hr
    · exact ha
    · exact h.avg a s r' hr

theorem isFin_of_merge {r new row : Position} (hq : r.quantity.val.val.IsFin)
    (ha : r.avgBuyPrice.val.IsFin) {y : ℚ} (hy : new.quantity.val.val = .fin y) (hpos : 0 < y)
    (hu : new.avgBuyPrice.val.IsFin) (hm : r.merge new = .ok row) :
    row.quantity.val.val.IsFin ∧ row.avgBuyPrice.val.IsFin := by
  obtain ⟨x, hx⟩ := Decimal.isFin_iff.mp hq
  obtain ⟨a, ha⟩ := Decimal.isFin_iff.mp ha
  obtain ⟨u, hu⟩ := Decimal.isFin_iff.mp hu
  have hx0 : 0 ≤ x := by
    have h := r.quantity.2
    rwa [hx] at h
  have hsum : 0 < x + y := by linarith
  obtain ⟨havg, hqty⟩ := (Position.merge_ok_iff hx ha hy hu hsum.ne').mp hm
  exact ⟨store_isFin hqty, store_isFin havg⟩

theorem Db.Finite.bookBuy (h : db.Finite) (hc : c.Accurate ε) (hch : Charged c ex p q v fee)
    (hs : ex.side = .buy) {bal : NonNegNumeric 20 4} (hbal : db.accounts ex.accountId = some bal)
    {cost : Decimal} (hcost : ex.cost c = .ok cost) (hbook : Ledger.bookBuy c db ex cost = .ok mid) :
    mid.Finite := by
  obtain ⟨b, hb⟩ := Decimal.isFin_iff.mp (h.balance _ bal hbal)
  obtain ⟨x, hx, h0, hlt⟩ := hch.exists_cost hc
  obtain rfl : Decimal.fin x = cost := Except.ok.inj (hx.symm.trans hcost)
  obtain ⟨bal', row, u, new, pos, hw⟩ := (bookBuy_ok_iff hbal).mp hbook
  obtain ⟨u', hu'⟩ := hch.exists_unitCost hc hs h0 hlt
  obtain rfl : Decimal.fin u' = u := Except.ok.inj (hu'.symm.trans hw.div)
  have hbal' : bal'.val.val.IsFin := by
    have hst := hw.balance
    rw [hb, sub_fin] at hst
    exact store_isFin hst
  have hqty : new.quantity.val.val = .fin (roundTo 12 q) := by
    have hst := hw.quantity
    rw [hch.quantity] at hst
    exact (store_fin_iff.mp hst).2
  have hpos : pos.quantity.val.val.IsFin ∧ pos.avgBuyPrice.val.IsFin := by
    cases hr : db.positions ex.accountId ex.symbol with
    | none =>
      rw [hw.opened hr, hqty]
      exact ⟨trivial, store_isFin hw.avg⟩
    | some r =>
      exact isFin_of_merge (h.quantity _ _ r hr) (h.avg _ _ r hr) hqty (hch.bought hs)
        (store_isFin hw.avg) (hw.merged r hr)
  rw [hw.result]
  exact h.writes hbal' hpos.1 hpos.2

theorem Db.Finite.bookSell (h : db.Finite) (hc : c.Accurate ε) (hch : Charged c ex p q v fee)
    {held : Position} (hheld : db.positions ex.accountId ex.symbol = some held)
    (hbook : Ledger.bookSell c db ex = .ok mid) : mid.Finite := by
  obtain ⟨bal, bal', row, proceeds, left, hw⟩ := (bookSell_ok_iff hheld).mp hbook
  obtain ⟨b, hb⟩ := Decimal.isFin_iff.mp (h.balance _ bal hw.account)
  obtain ⟨x, hx, -⟩ := hch.exists_proceeds hc
  obtain rfl : Decimal.fin x = proceeds := Except.ok.inj (hx.symm.trans hw.earned)
  obtain ⟨y, hy⟩ := Decimal.isFin_iff.mp (h.quantity _ _ held hheld)
  have hbal' : bal'.val.val.IsFin := by
    have hst := hw.balance
    rw [hb, add_fin] at hst
    exact store_isFin hst
  have hleft : left.val.val.IsFin := by
    have hst := hw.reduced
    rw [hy, hch.quantity, sub_fin] at hst
    exact store_isFin hst
  rw [hw.result]
  exact h.writes hbal' hleft (h.avg _ _ held hheld)

theorem Db.Finite.booked (h : db.Finite) (hc : c.Accurate ε) (hch : Charged c ex p q v fee)
    (hcov : Covers c db ex) (hm : Booked c db ex mid) : mid.Finite := by
  unfold Covers at hcov
  unfold Booked at hm
  cases hs : ex.side with
  | buy =>
    simp only [hs] at hcov hm
    obtain ⟨bal, -, hbal, -, -⟩ := hcov
    obtain ⟨cost, hcost, hbook⟩ := hm
    exact h.bookBuy hc hch hs hbal hcost hbook
  | sell =>
    simp only [hs] at hcov hm
    obtain ⟨held, hheld, -⟩ := hcov
    exact h.bookSell hc hch hheld hm

theorem Db.Finite.deliver (h : db.Finite) (hc : c.Accurate ε) (hch : Charged c ex p q v fee) :
    (deliver c db ex).Finite := by
  rcases deliver_cases c db ex with he | ⟨-, -, he⟩ | ⟨-, hcov, mid, hm, he⟩
  · rwa [he]
  · rw [he]
    exact ⟨h.balance, h.quantity, h.avg⟩
  · have hmid := h.booked hc hch hcov hm
    rw [he]
    exact ⟨hmid.balance, hmid.quantity, hmid.avg⟩

theorem Booked.eq_writes (hcov : Covers c db ex) (hm : Booked c db ex mid) :
    ∃ bal row r, mid = writes db ex.accountId ex.symbol bal row r := by
  unfold Covers at hcov
  unfold Booked at hm
  cases hs : ex.side with
  | buy =>
    simp only [hs] at hcov hm
    obtain ⟨bal, -, hbal, -, -⟩ := hcov
    obtain ⟨cost, -, hbook⟩ := hm
    obtain ⟨bal', row, _, _, pos, hw⟩ := (bookBuy_ok_iff hbal).mp hbook
    exact ⟨bal', row, pos, hw.result⟩
  | sell =>
    simp only [hs] at hcov hm
    obtain ⟨held, hheld, -⟩ := hcov
    obtain ⟨_, bal', row, _, left, hw⟩ := (bookSell_ok_iff hheld).mp hm
    exact ⟨bal', row, _, hw.result⟩

theorem isSome_accounts_deliver {acct : String} (h : (db.accounts acct).isSome) :
    ((deliver c db ex).accounts acct).isSome := by
  rcases deliver_cases c db ex with he | ⟨-, -, he⟩ | ⟨-, hcov, mid, hm, he⟩
  · rwa [he]
  · rwa [he]
  · obtain ⟨bal, row, r, rfl⟩ := Booked.eq_writes hcov hm
    rw [he]
    rcases eq_or_ne acct ex.accountId with rfl | hne
    · simp [writes, Db.setPosition]
    · simpa [writes, Db.setPosition, hne] using h

end QuantTrader.Ledger
