import Mathlib.Tactic.Simps.Basic
import QuantTrader.Ledger.Updater

/-! # Books of account

A fill is a message with a positive price, a positive quantity of twelve
decimals and a fee at a rate below one half. A book is one account as numbers.
The updater settles a fill on the tables as the book does on its numbers.
-/

namespace QuantTrader.Ledger

open Postgres Transition

/-- An execution priced, sized and charged as the engine does it. -/
structure Fill where
  executionId : String
  orderId : String
  accountId : String
  symbol : String
  side : Side
  price : ℚ
  qty : ℚ
  fee : ℚ
  rate : ℚ
  price_pos : 0 < price
  qty_pos : 0 < qty
  qty_grid : OnGrid (unit 12) qty
  rate_nonneg : 0 ≤ rate
  rate_lt : rate < 1 / 2
  fee_grid : OnGrid (unit 4) fee
  fee_error : |fee - price * qty * rate| ≤ unit 4 / 2

namespace Fill

@[simps] def toExecution (f : Fill) : Execution :=
  ⟨f.executionId, f.orderId, f.accountId, f.symbol, f.side, .fin f.price, .fin f.qty, .fin f.fee⟩

def value (f : Fill) : ℚ := f.price * f.qty

/-- `price * qty + fee` in a context. -/
def cost (c : Context) (f : Fill) : Except Signal ℚ := do
  c.finish ((← c.finish f.value) + f.fee)

/-- `price * qty - fee` in a context. -/
def proceeds (c : Context) (f : Fill) : Except Signal ℚ := do
  c.finish ((← c.finish f.value) - f.fee)

variable (f : Fill) {c : Context} {ε x : ℚ} {d : Decimal}

theorem value_pos : 0 < f.value := mul_pos f.price_pos f.qty_pos

theorem rated_nonneg : 0 ≤ f.value * f.rate := mul_nonneg f.value_pos.le f.rate_nonneg

theorem rated_le : f.value * f.rate ≤ f.value / 2 := by
  have h := mul_le_mul_of_nonneg_left f.rate_lt.le f.value_pos.le
  linarith

theorem fee_nonneg : 0 ≤ f.fee := by
  refine OnGrid.le_of_lt_add (unit_pos 4) (.zero _) f.fee_grid ?_
  have he := abs_le.mp f.fee_error
  have hr : 0 ≤ f.price * f.qty * f.rate := f.rated_nonneg
  linarith [unit_pos 4]

theorem fee_le : f.fee ≤ f.value / 2 + unit 4 / 2 := by
  have he := abs_le.mp f.fee_error
  have hr : f.price * f.qty * f.rate ≤ f.value / 2 := f.rated_le
  linarith

theorem cost_toExecution : f.toExecution.cost c = .ok d ↔ ∃ x, f.cost c = .ok x ∧ d = .fin x := by
  simp only [Execution.cost, cost, toExecution, Context.mul, Context.add, bind_ok_iff, map_ok_iff,
    value]
  constructor
  · rintro ⟨_, ⟨v, hv, rfl⟩, h⟩
    obtain ⟨x, hx, rfl⟩ := map_ok_iff.mp h
    exact ⟨x, ⟨v, hv, hx⟩, rfl⟩
  · rintro ⟨x, ⟨v, hv, hx⟩, rfl⟩
    exact ⟨_, ⟨v, hv, rfl⟩, map_ok_iff.mpr ⟨x, hx, rfl⟩⟩

theorem proceeds_toExecution :
    f.toExecution.proceeds c = .ok d ↔ ∃ x, f.proceeds c = .ok x ∧ d = .fin x := by
  simp only [Execution.proceeds, proceeds, toExecution, Context.mul, bind_ok_iff, map_ok_iff, value]
  constructor
  · rintro ⟨_, ⟨v, hv, rfl⟩, h⟩
    rw [Context.sub_fin] at h
    obtain ⟨x, hx, rfl⟩ := map_ok_iff.mp h
    exact ⟨x, ⟨v, hv, hx⟩, rfl⟩
  · rintro ⟨x, ⟨v, hv, hx⟩, rfl⟩
    refine ⟨_, ⟨v, hv, rfl⟩, ?_⟩
    rw [Context.sub_fin]
    exact map_ok_iff.mpr ⟨x, hx, rfl⟩

theorem cost_nonneg (hc : c.Accurate ε) (h : f.cost c = .ok x) : 0 ≤ x := by
  obtain ⟨v, hv, hx⟩ := bind_ok_iff.mp h
  exact hc.nonneg_of_finish hx
    (add_nonneg (hc.nonneg_of_finish hv f.value_pos.le) f.fee_nonneg)

theorem proceeds_gt (hc : c.Accurate ε) (h : f.proceeds c = .ok x) : -(unit 4 / 2) < x := by
  obtain ⟨v, hv, hx⟩ := bind_ok_iff.mp h
  have h₁ := abs_le.mp (hc.error_le hv)
  have h₂ := abs_le.mp (hc.error_le hx)
  have hf := f.fee_le
  have hp := f.value_pos
  have hu := unit_pos 4
  rw [abs_of_pos hp] at h₁
  have hlow : -(unit 4 / 4) ≤ v - f.fee := by
    have hg := OnGrid.le_of_lt_add (unit_pos 4) f.fee_grid (.zero _)
    rcases le_or_gt (unit 4) f.fee with hu' | hu'
    · linarith
    · have := hg (by linarith)
      linarith
  rcases abs_cases (v - f.fee) with ⟨ha, hs⟩ | ⟨ha, hs⟩ <;> rw [ha] at h₂ <;> linarith

end Fill

/-- One account as numbers: its cash, and per symbol a quantity and an average price. -/
structure Book where
  cash : ℚ
  qty : String → ℚ
  avg : String → ℚ
  cash_nonneg : 0 ≤ cash
  cash_grid : OnGrid (unit 4) cash
  qty_nonneg : ∀ s, 0 ≤ qty s
  qty_grid : ∀ s, OnGrid (unit 12) (qty s)

namespace Book

/-- The cost-weighted average price after a buy. -/
def mergedAvg (b : Book) (f : Fill) (unitCost : ℚ) : ℚ :=
  (b.qty f.symbol * b.avg f.symbol + f.qty * roundTo 4 unitCost) / (b.qty f.symbol + f.qty)

@[simps] def buy (b : Book) (f : Fill) (cost unitCost : ℚ) (h : cost ≤ b.cash) : Book where
  cash := roundTo 4 (b.cash - cost)
  qty := Function.update b.qty f.symbol (b.qty f.symbol + f.qty)
  avg := Function.update b.avg f.symbol (roundTo 4 (b.mergedAvg f unitCost))
  cash_nonneg := roundTo_nonneg 4 (sub_nonneg.mpr h)
  cash_grid := onGrid_roundTo 4 _
  qty_nonneg := by
    intro s
    rcases eq_or_ne s f.symbol with rfl | hs
    · simpa using add_nonneg (b.qty_nonneg _) f.qty_pos.le
    · simpa [hs] using b.qty_nonneg s
  qty_grid := by
    intro s
    rcases eq_or_ne s f.symbol with rfl | hs
    · simpa using (b.qty_grid _).add f.qty_grid
    · simpa [hs] using b.qty_grid s

@[simps] def sell (b : Book) (f : Fill) (proceeds : ℚ) (h : f.qty ≤ b.qty f.symbol)
    (hp : -(unit 4 / 2) < proceeds) : Book where
  cash := roundTo 4 (b.cash + proceeds)
  qty := Function.update b.qty f.symbol (b.qty f.symbol - f.qty)
  avg := b.avg
  cash_nonneg := b.cash_nonneg.trans (le_roundTo b.cash_grid (by linarith))
  cash_grid := onGrid_roundTo 4 _
  qty_nonneg := by
    intro s
    rcases eq_or_ne s f.symbol with rfl | hs
    · simpa using h
    · simpa [hs] using b.qty_nonneg s
  qty_grid := by
    intro s
    rcases eq_or_ne s f.symbol with rfl | hs
    · simpa using (b.qty_grid _).sub f.qty_grid
    · simpa [hs] using b.qty_grid s

theorem abs_roundTo_buy_le (b : Book) {cost : ℚ} (h : cost ≤ b.cash) (h0 : 0 ≤ cost) :
    |roundTo 4 (b.cash - cost)| ≤ b.cash := by
  refine abs_roundTo_le b.cash_grid ?_
  rw [abs_of_nonneg (sub_nonneg.mpr h)]
  linarith

/-- The book after a fill it covers. -/
inductive Settles (c : Context) (b : Book) (f : Fill) : Book → Prop
  | buy {cost unitCost : ℚ} : f.side = .buy → f.cost c = .ok cost → (h : cost ≤ b.cash) →
      c.quot cost f.qty = .ok unitCost → Settles c b f (b.buy f cost unitCost h)
  | sell {proceeds : ℚ} : f.side = .sell → (h : f.qty ≤ b.qty f.symbol) →
      f.proceeds c = .ok proceeds → (hp : -(unit 4 / 2) < proceeds) →
      Settles c b f (b.sell f proceeds h hp)

/-- The book does not cover the fill. -/
def Refuses (c : Context) (b : Book) (f : Fill) : Prop :=
  match f.side with
  | .buy => ∃ cost, f.cost c = .ok cost ∧ b.cash < cost
  | .sell => b.qty f.symbol < f.qty

end Book

/-- The tables after a list of fills. -/
def settle (c : Context) (db : Db) (fs : List Fill) : Db := run c db (fs.map Fill.toExecution)

/-- The quantity in a position's row, zero without one. -/
def held (db : Db) (acct sym : String) : Decimal :=
  match db.positions acct sym with
  | none => .fin 0
  | some p => p.quantity.val.val

/-- The tables hold a book for an account; a symbol without a row has quantity zero. -/
structure View (db : Db) (acct : String) (b : Book) : Prop where
  balance : ∃ bal, db.accounts acct = some bal ∧ bal.val.val = .fin b.cash
  absent : ∀ s, db.positions acct s = none → b.qty s = 0
  held : ∀ s p, db.positions acct s = some p →
    p.quantity.val.val = .fin (b.qty s) ∧ p.avgBuyPrice.val = .fin (b.avg s)

section Settlement

variable {c : Context} {ε cost unitCost : ℚ} {db db' mid : Db} {f : Fill} {b : Book} {acct : String}

@[simp] theorem settle_nil : settle c db [] = db := rfl

@[simp] theorem settle_snoc {fs : List Fill} :
    settle c db (fs ++ [f]) = deliver c (settle c db fs) f.toExecution := by
  simp [settle]

theorem Position.merge_ok_iff {p q r : Position} {x a y u : ℚ} (hx : p.quantity.val.val = .fin x)
    (ha : p.avgBuyPrice.val = .fin a) (hy : q.quantity.val.val = .fin y)
    (hu : q.avgBuyPrice.val = .fin u) (h : x + y ≠ 0) :
    p.merge q = .ok r ↔ store 20 4 (.fin ((x * a + y * u) / (x + y))) = .ok r.avgBuyPrice ∧
      store 28 12 (.fin (x + y)) = .ok r.quantity.val := by
  simp only [merge, hx, ha, hy, hu, mul_fin, add_fin, divNullif, if_neg h, bind_ok_iff]
  constructor
  · rintro ⟨avg, havg, n, hn, q', hq', h⟩
    cases h
    exact ⟨havg, check_ok hq' ▸ hn⟩
  · rintro ⟨havg, hn⟩
    exact ⟨_, havg, _, hn, r.quantity, check_of_nonneg r.quantity.2, rfl⟩

/-- A booking for one account leaves every other account alone. -/
structure OthersKept (acct : String) (db mid : Db) : Prop where
  accounts : ∀ a, a ≠ acct → mid.accounts a = db.accounts a
  positions : ∀ a, a ≠ acct → mid.positions a = db.positions a

/-- The tables after writing a balance, an execution row and a position. -/
def writes (db : Db) (acct sym : String) (bal : NonNegNumeric 20 4) (row : ExecutionRow)
    (p : Position) : Db :=
  ({ db with
    accounts := Function.update db.accounts acct (some bal)
    executions := db.executions ++ [row] } : Db).setPosition acct sym p

theorem othersKept_writes {sym : String} {bal : NonNegNumeric 20 4} {row : ExecutionRow}
    {p : Position} : OthersKept acct db (writes db acct sym bal row p) where
  accounts a ha := by simp [writes, Db.setPosition, ha]
  positions a ha := by simp [writes, Db.setPosition, ha]

theorem View.writes {sym : String} {bal : NonNegNumeric 20 4} {row : ExecutionRow}
    {p : Position} {b' : Book} (hv : View db acct b) (hb : bal.val.val = .fin b'.cash)
    (hq : p.quantity.val.val = .fin (b'.qty sym)) (ha : p.avgBuyPrice.val = .fin (b'.avg sym))
    (hk : ∀ s, s ≠ sym → b'.qty s = b.qty s ∧ b'.avg s = b.avg s) :
    View (writes db acct sym bal row p) acct b' where
  balance := ⟨bal, by simp [Ledger.writes, Db.setPosition], hb⟩
  absent s hn := by
    rcases eq_or_ne s sym with rfl | hs
    · simp [Ledger.writes, Db.setPosition] at hn
    · rw [(hk s hs).1]
      exact hv.absent s (by simpa [Ledger.writes, Db.setPosition, hs] using hn)
  held s r hr := by
    rcases eq_or_ne s sym with rfl | hs
    · simp only [Ledger.writes, Db.setPosition, Function.update_self, Option.some.injEq] at hr
      rw [← hr]
      exact ⟨hq, ha⟩
    · rw [(hk s hs).1, (hk s hs).2]
      exact hv.held s r (by simpa [Ledger.writes, Db.setPosition, hs] using hr)

namespace View

theorem covers_buy (hv : View db f.accountId b) (hs : f.side = .buy) :
    Covers c db f.toExecution ↔ ∃ cost, f.cost c = .ok cost ∧ cost ≤ b.cash := by
  obtain ⟨bal, hbal, hb⟩ := hv.balance
  have hside : f.toExecution.side = .buy := hs
  simp only [Covers, hside]
  constructor
  · rintro ⟨bal', cost, hbal', hc, hlt⟩
    obtain rfl : bal = bal' := Option.some.inj (hbal.symm.trans hbal')
    obtain ⟨x, hx, rfl⟩ := f.cost_toExecution.mp hc
    exact ⟨x, hx, by simpa [hb] using hlt⟩
  · rintro ⟨x, hx, hle⟩
    exact ⟨bal, .fin x, hbal, f.cost_toExecution.mpr ⟨x, hx, rfl⟩, by simpa [hb] using hle⟩

theorem covers_sell (hv : View db f.accountId b) (hs : f.side = .sell) :
    Covers c db f.toExecution ↔ f.qty ≤ b.qty f.symbol := by
  have hside : f.toExecution.side = .sell := hs
  simp only [Covers, hside]
  constructor
  · rintro ⟨held, hp, hlt⟩
    simpa [(hv.held _ _ hp).1, Fill.toExecution] using hlt
  · intro hle
    cases hp : db.positions f.accountId f.symbol with
    | none =>
      have hpos := f.qty_pos
      rw [hv.absent _ hp] at hle
      linarith
    | some held =>
      exact ⟨held, hp, by simpa [(hv.held _ _ hp).1, Fill.toExecution] using hle⟩

/-- The tables determine the cash and the quantities. -/
theorem eq {b' : Book} (hv : View db acct b) (hv' : View db acct b') :
    b.cash = b'.cash ∧ b.qty = b'.qty := by
  constructor
  · obtain ⟨bal, hbal, hb⟩ := hv.balance
    obtain ⟨bal', hbal', hb'⟩ := hv'.balance
    obtain rfl : bal = bal' := Option.some.inj (hbal.symm.trans hbal')
    exact Decimal.fin.inj (hb.symm.trans hb')
  · ext s
    cases hp : db.positions acct s with
    | none => rw [hv.absent s hp, hv'.absent s hp]
    | some p => exact Decimal.fin.inj ((hv.held s p hp).1.symm.trans (hv'.held s p hp).1)

theorem cash_lt (hv : View db acct b) : b.cash < bound 20 4 := by
  obtain ⟨bal, -, hb⟩ := hv.balance
  have h := bal.val.2
  rw [hb] at h
  exact (le_abs_self _).trans_lt h.2

theorem qty_lt (hv : View db acct b) (s : String) : b.qty s < bound 28 12 := by
  cases hp : db.positions acct s with
  | none =>
    rw [hv.absent s hp, bound]
    positivity
  | some p =>
    have h := p.quantity.val.2
    rw [(hv.held s p hp).1] at h
    exact (le_abs_self _).trans_lt h.2

theorem held_eq (hv : View db acct b) (s : String) : Ledger.held db acct s = .fin (b.qty s) := by
  unfold Ledger.held
  cases hp : db.positions acct s with
  | none => rw [hv.absent s hp]
  | some p => exact (hv.held s p hp).1

/-- A booked buy moves the account from book to book. -/
theorem bookBuy (hv : View db f.accountId b) (hs : f.side = .buy) (hc : f.cost c = .ok cost)
    (hle : cost ≤ b.cash) (h : bookBuy c db f.toExecution (.fin cost) = .ok mid) :
    (∃ b', b.Settles c f b' ∧ View mid f.accountId b') ∧ OthersKept f.accountId db mid ∧
      ∃ row, StoredAs f.toExecution row ∧ mid.executions = db.executions ++ [row] := by
  obtain ⟨bal, hbal, hb⟩ := hv.balance
  obtain ⟨bal', row, u, new, pos, hw⟩ := (bookBuy_ok_iff (by exact hbal)).mp h
  have hq0 := f.qty_pos
  have hq : new.quantity.val.val = .fin f.qty := ((store_of_onGrid f.qty_grid).mp hw.quantity).2
  obtain ⟨x, hx, rfl⟩ : ∃ x, c.quot cost f.qty = .ok x ∧ Decimal.fin x = u := by
    have hd := hw.div
    rw [show f.toExecution.quantity = .fin f.qty from rfl, Context.div_fin _ hq0.ne'] at hd
    exact map_ok_iff.mp hd
  have hu : new.avgBuyPrice.val = .fin (roundTo 4 x) := (store_fin_iff.mp hw.avg).2
  have hcash : bal'.val.val = .fin (roundTo 4 (b.cash - cost)) := by
    have hst := hw.balance
    rw [hb, sub_fin] at hst
    exact (store_fin_iff.mp hst).2
  have hpos : pos.quantity.val.val = .fin (b.qty f.symbol + f.qty) ∧
      pos.avgBuyPrice.val = .fin (roundTo 4 (b.mergedAvg f x)) := by
    cases hp : db.positions f.accountId f.symbol with
    | none =>
      rw [hw.opened hp, Book.mergedAvg, hv.absent _ hp, zero_mul, zero_add, zero_add,
        mul_div_cancel_left₀ _ hq0.ne', roundTo_of_onGrid (onGrid_roundTo 4 x)]
      exact ⟨hq, hu⟩
    | some p =>
      obtain ⟨hpq, hpa⟩ := hv.held _ _ hp
      have hne : b.qty f.symbol + f.qty ≠ 0 := by
        have := b.qty_nonneg f.symbol
        linarith
      obtain ⟨hm₁, hm₂⟩ := (Position.merge_ok_iff hpq hpa hq hu hne).mp (hw.merged p hp)
      exact ⟨((store_of_onGrid ((b.qty_grid _).add f.qty_grid)).mp hm₂).2, (store_fin_iff.mp hm₁).2⟩
  refine ⟨⟨b.buy f cost x hle, .buy hs hc hle hx, ?_⟩, ?_, row, hw.stored, by rw [hw.result]; rfl⟩
  · rw [hw.result]
    refine hv.writes hcash ?_ ?_ ?_
    · simpa using hpos.1
    · simpa using hpos.2
    · intro s hs'
      exact ⟨Function.update_of_ne hs' _ _, Function.update_of_ne hs' _ _⟩
  · rw [hw.result]
    exact othersKept_writes

theorem bookSell (hc : c.Accurate ε) (hv : View db f.accountId b) (hs : f.side = .sell)
    (hle : f.qty ≤ b.qty f.symbol) (h : bookSell c db f.toExecution = .ok mid) :
    (∃ b', b.Settles c f b' ∧ View mid f.accountId b') ∧ OthersKept f.accountId db mid ∧
      ∃ row, StoredAs f.toExecution row ∧ mid.executions = db.executions ++ [row] := by
  obtain ⟨bal, hbal, hb⟩ := hv.balance
  cases hp : db.positions f.accountId f.symbol with
  | none =>
    have hpos := f.qty_pos
    rw [hv.absent _ hp] at hle
    linarith
  | some held =>
    obtain ⟨hpq, hpa⟩ := hv.held _ _ hp
    obtain ⟨bal₀, bal', row, p, q, hw⟩ := (bookSell_ok_iff (by exact hp)).mp h
    obtain rfl : bal = bal₀ := Option.some.inj (hbal.symm.trans hw.account)
    obtain ⟨x, hx, rfl⟩ := f.proceeds_toExecution.mp hw.earned
    have hcash : bal'.val.val = .fin (roundTo 4 (b.cash + x)) := by
      have hst := hw.balance
      rw [hb, add_fin] at hst
      exact (store_fin_iff.mp hst).2
    have hqty : q.val.val = .fin (b.qty f.symbol - f.qty) := by
      have hst := hw.reduced
      rw [hpq, show f.toExecution.quantity = .fin f.qty from rfl, sub_fin] at hst
      exact ((store_of_onGrid ((b.qty_grid _).sub f.qty_grid)).mp hst).2
    have hgt := f.proceeds_gt hc hx
    refine ⟨⟨b.sell f x hle hgt, .sell hs hle hx hgt, ?_⟩, ?_, row, hw.stored,
      by rw [hw.result]; rfl⟩
    · rw [hw.result]
      refine hv.writes hcash ?_ ?_ ?_
      · simpa using hqty
      · exact hpa
      · intro s hs'
        exact ⟨Function.update_of_ne hs' _ _, rfl⟩
    · rw [hw.result]
      exact othersKept_writes

/-- An applied fill moves its account from book to book and records one row. -/
theorem applied (hc : c.Accurate ε) (hv : View db f.accountId b)
    (h : applyExecution c db f.toExecution = .ok (db', .applied)) :
    (∃ b', b.Settles c f b' ∧ View db' f.accountId b') ∧ OthersKept f.accountId db db' ∧
      ∃ row, StoredAs f.toExecution row ∧ db'.executions = db.executions ++ [row] := by
  rcases applyExecution_cases h with ⟨ho, -⟩ | ⟨ho, -⟩ | ⟨-, -, hcov, mid, hm, rfl⟩
  · cases ho
  · cases ho
  -- the status update is not seen by the book
  suffices hbook : (∃ b', b.Settles c f b' ∧ View mid f.accountId b') ∧
      OthersKept f.accountId db mid ∧
      ∃ row, StoredAs f.toExecution row ∧ mid.executions = db.executions ++ [row] by
    obtain ⟨⟨b', hb, hv'⟩, ho, hrow⟩ := hbook
    exact ⟨⟨b', hb, hv'.balance, hv'.absent, hv'.held⟩, ⟨ho.accounts, ho.positions⟩, hrow⟩
  cases hs : f.side with
  | buy =>
    obtain ⟨cost, hcost, hle⟩ := (hv.covers_buy hs).mp hcov
    obtain ⟨d, hd, hbook⟩ : ∃ d, f.toExecution.cost c = .ok d ∧
        Ledger.bookBuy c db f.toExecution d = .ok mid := by
      simpa only [Booked, Fill.toExecution_side, hs] using hm
    obtain ⟨x, hx, rfl⟩ := f.cost_toExecution.mp hd
    obtain rfl : cost = x := Except.ok.inj (hcost.symm.trans hx)
    exact hv.bookBuy hs hcost hle hbook
  | sell =>
    have hbook : Ledger.bookSell c db f.toExecution = .ok mid := by
      simpa only [Booked, Fill.toExecution_side, hs] using hm
    exact hv.bookSell hc hs ((hv.covers_sell hs).mp hcov) hbook

end View

end Settlement

end QuantTrader.Ledger
