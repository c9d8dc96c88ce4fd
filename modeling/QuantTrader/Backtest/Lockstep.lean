import QuantTrader.Backtest.Account
import QuantTrader.Ledger.ExactlyOnce
import QuantTrader.Ledger.Progress

/-! # The backtest account refines the ledger

Both sides implement the same book. While every stored number fits its column
and every sum fits the digits of the context, a fill is accepted by both or
refused by both, and cash, quantities and averages stay equal.
-/

namespace QuantTrader.Backtest

open Postgres Ledger Transition

def fill (c : Context) (a : Account) (f : Fill) (ts : ℚ) : Except Signal (Account × Bool) :=
  match f.side with
  | .buy => a.applyBuy c f.symbol f.price f.qty f.fee ts
  | .sell => do
    let (a, trade) ← a.applySell c f.symbol f.price f.qty f.fee ts 0
    return (a, trade.isSome)

def runFills (c : Context) (a : Account) (fs : List (Fill × ℚ)) : Except Signal Account :=
  fs.foldlM (fun a f => Prod.fst <$> fill c a f.1 f.2) a

/-- The account and the ledger agree; an absent position is a row of quantity zero or no row. -/
structure Lockstep (acct : String) (a : Account) (db : Db) : Prop where
  cash : ∃ bal, db.accounts acct = some bal ∧ bal.val.val = .fin a.cash
  closed : ∀ s, a.positions s = none → held db acct s = .fin 0
  opened : ∀ s p, a.positions s = some p → 0 < p.qty ∧ ∃ row, db.positions acct s = some row ∧
    row.quantity.val.val = .fin p.qty ∧ row.avgBuyPrice.val = .fin p.avg

/-- What a covered buy writes fits its columns, and its sums need no rounding. -/
structure BuyFits (c : Context) (a : Account) (f : Fill) (cost : ℚ) : Prop where
  recordable : f.Recordable
  unitCost : |roundTo 4 (cost / f.qty)| < bound 20 4
  qty : a.qty f.symbol + f.qty < bound 28 12
  cash : c.Exact (a.cash - cost)
  merge : ∀ p, a.positions f.symbol = some p → c.Exact (p.qty * p.avg) ∧
    c.Exact (f.qty * roundTo 4 (cost / f.qty)) ∧
    c.Exact (p.qty * p.avg + f.qty * roundTo 4 (cost / f.qty))

/-- What a covered sell writes fits its columns, and its sum needs no rounding. -/
structure SellFits (c : Context) (a : Account) (f : Fill) (proceeds : ℚ) : Prop where
  recordable : f.Recordable
  balance : |roundTo 4 (a.cash + proceeds)| < bound 20 4
  cash : c.Exact (a.cash + proceeds)

/-- The numbers of a fill fit, where the account covers it. -/
def Fits (c : Context) (a : Account) (f : Fill) : Prop :=
  match f.side with
  | .buy => ∃ cost, f.cost c = .ok cost ∧ (cost ≤ a.cash → BuyFits c a f cost)
  | .sell => f.qty ≤ a.qty f.symbol → ∃ proceeds, f.proceeds c = .ok proceeds ∧
      SellFits c a f proceeds

section Decidable

variable (c : Context) (a : Account) (f : Fill)

instance : Decidable f.Recordable :=
  decidable_of_iff (|roundTo 4 f.price| < bound 20 4 ∧ f.qty < bound 28 12 ∧ f.fee < bound 20 4)
    ⟨fun h => ⟨h.1, h.2.1, h.2.2⟩, fun h => ⟨h.price, h.qty, h.fee⟩⟩

instance (cost : ℚ) : Decidable (BuyFits c a f cost) :=
  decidable_of_iff (f.Recordable ∧ |roundTo 4 (cost / f.qty)| < bound 20 4 ∧
      a.qty f.symbol + f.qty < bound 28 12 ∧ c.Exact (a.cash - cost) ∧
      ∀ p ∈ a.positions f.symbol, c.Exact (p.qty * p.avg) ∧
        c.Exact (f.qty * roundTo 4 (cost / f.qty)) ∧
        c.Exact (p.qty * p.avg + f.qty * roundTo 4 (cost / f.qty)))
    ⟨fun h => ⟨h.1, h.2.1, h.2.2.1, h.2.2.2.1, h.2.2.2.2⟩,
      fun h => ⟨h.recordable, h.unitCost, h.qty, h.cash, h.merge⟩⟩

instance (proceeds : ℚ) : Decidable (SellFits c a f proceeds) :=
  decidable_of_iff (f.Recordable ∧ |roundTo 4 (a.cash + proceeds)| < bound 20 4 ∧
      c.Exact (a.cash + proceeds))
    ⟨fun h => ⟨h.1, h.2.1, h.2.2⟩, fun h => ⟨h.recordable, h.balance, h.cash⟩⟩

instance decidableOk (r : Except Signal ℚ) (P : ℚ → Prop) [DecidablePred P] :
    Decidable (∃ x, r = .ok x ∧ P x) :=
  match r with
  | .ok x => decidable_of_iff (P x) ⟨fun h => ⟨x, rfl, h⟩, fun ⟨_, h, hP⟩ => Except.ok.inj h ▸ hP⟩
  | .error _ => isFalse fun ⟨_, h, _⟩ => nomatch h

instance : Decidable (Fits c a f) :=
  match h : f.side with
  | .buy => decidable_of_iff (∃ cost, f.cost c = .ok cost ∧ (cost ≤ a.cash → BuyFits c a f cost))
      (by simp only [Fits, h])
  | .sell => decidable_of_iff (f.qty ≤ a.qty f.symbol → ∃ proceeds, f.proceeds c = .ok proceeds ∧
      SellFits c a f proceeds) (by simp only [Fits, h])

end Decidable

section Context

variable {c : Context} {ε x y : ℚ} {s : ℕ}

theorem exact_of_onGrid (hc : c.Accurate ε) (hs : s ≤ 12) (hg : OnGrid (unit s) x)
    (hb : |x| < 10 ^ 16) : c.Exact x :=
  hc.exact_of_decimals (by omega) hg (hb.trans_le (pow_le_pow_right₀ (by norm_num) (by omega)))

theorem q_ok (hc : c.Accurate ε) (h : |roundTo 4 x| < bound 20 4) : q c x = .ok (roundTo 4 x) :=
  hc.quantizeFin_ok (by norm_num) (h.trans (by norm_num [bound]))

theorem divFin_ok (hd : c.exactDiv = true) (hy : y ≠ 0) : c.divFin x y = .ok (x / y) := by
  simp only [Context.divFin, if_neg hy, Context.quot, hd, if_true]

end Context

/-- An open position holds the book's quantity and average, and an entry fee still to be allotted. -/
structure OpenAs (p : Position) (qty avg : ℚ) : Prop where
  qty_eq : p.qty = qty
  avg_eq : p.avg = avg
  pos : 0 < qty
  fee_grid : OnGrid (unit 4) p.entryFee
  fee_nonneg : 0 ≤ p.entryFee
  fee_lt : p.entryFee < 10 ^ 16

/-- The account keeps a book. -/
structure Refines (a : Account) (b : Book) : Prop where
  cash : a.cash = b.cash
  closed : ∀ s, a.positions s = none → b.qty s = 0
  opened : ∀ s p, a.positions s = some p → OpenAs p (b.qty s) (b.avg s)

section Step

variable {c : Context} {ε cost proceeds ts y : ℚ} {a : Account} {b b' b'' : Book} {f : Fill}
  {db : Db} {acct : String}

theorem Refines.qty_eq (h : Refines a b) (s : String) : a.qty s = b.qty s := by
  unfold Account.qty
  cases hp : a.positions s with
  | none => simp [h.closed s hp]
  | some p => simp [(h.opened s p hp).qty_eq]

/-- A book moves to one book only. -/
theorem Settles.unique (h : b.Settles c f b') (h' : b.Settles c f b'') : b' = b'' := by
  cases h with
  | buy hs hc hle hu =>
    cases h' with
    | buy _ hc' _ hu' =>
      obtain rfl := Except.ok.inj (hc.symm.trans hc')
      obtain rfl := Except.ok.inj (hu.symm.trans hu')
      rfl
    | sell hs' => rw [hs] at hs'; cases hs'
  | sell hs hle hp hgt =>
    cases h' with
    | buy hs' => rw [hs] at hs'; cases hs'
    | sell _ _ hp' _ =>
      obtain rfl := Except.ok.inj (hp.symm.trans hp')
      rfl

theorem Refines.update {p : Option Position} {cash : ℚ} (h : Refines a b) (hcash : cash = b'.cash)
    (hk : ∀ s, s ≠ f.symbol → b'.qty s = b.qty s ∧ b'.avg s = b.avg s)
    (hn : p = none → b'.qty f.symbol = 0)
    (ho : ∀ r, p = some r → OpenAs r (b'.qty f.symbol) (b'.avg f.symbol)) :
    Refines ({ a with cash }.setPosition f.symbol p) b' where
  cash := hcash
  closed s hs := by
    rcases eq_or_ne s f.symbol with rfl | hne
    · exact hn (by simpa [Account.setPosition] using hs)
    · rw [(hk s hne).1]
      exact h.closed s (by simpa [Account.setPosition, hne] using hs)
  opened s r hs := by
    rcases eq_or_ne s f.symbol with rfl | hne
    · exact ho r (by simpa [Account.setPosition] using hs)
    · rw [(hk s hne).1, (hk s hne).2]
      exact h.opened s r (by simpa [Account.setPosition, hne] using hs)

theorem applyBuy_ok (ts : ℚ) {v x cash u unit : ℚ} {p : Position} (hs : f.side = .buy)
    (hv : c.finish f.value = .ok v) (hcost : c.finish (v + f.fee) = .ok cost)
    (hle : cost ≤ a.cash) (hx : c.finish (a.cash - cost) = .ok x) (hcash : q c x = .ok cash)
    (hu : c.divFin cost f.qty = .ok u) (hunit : q c u = .ok unit)
    (hp : Account.openOrAdd c ⟨f.qty, unit, ts, f.price, f.fee⟩ (a.positions f.symbol) = .ok p) :
    fill c a f ts = .ok ({ a with cash }.setPosition f.symbol (some p), true) := by
  rw [Fill.value] at hv
  simp only [fill, hs, Account.applyBuy, hv, hcost, not_lt.mpr hle, hx, hcash, hu, hunit, hp, bind,
    Except.bind, if_false]
  rfl

theorem Refines.openOrAdd (hc : c.Accurate ε) (hd : c.exactDiv = true) (h : Refines a b)
    (hv : View db f.accountId b) (hf : BuyFits c a f cost) :
    ∃ p, Account.openOrAdd c ⟨f.qty, roundTo 4 (cost / f.qty), ts, f.price, f.fee⟩
        (a.positions f.symbol) = .ok p ∧
      OpenAs p (b.qty f.symbol + f.qty) (roundTo 4 (b.mergedAvg f (cost / f.qty))) := by
  have hq0 := f.qty_pos
  cases hp : a.positions f.symbol with
  | none =>
    refine ⟨_, rfl, ?_⟩
    have h0 := h.closed _ hp
    have hm : roundTo 4 (b.mergedAvg f (cost / f.qty)) = roundTo 4 (cost / f.qty) := by
      rw [Book.mergedAvg, h0, zero_mul, zero_add, zero_add, mul_div_cancel_left₀ _ hq0.ne',
        roundTo_of_onGrid (onGrid_roundTo 4 _)]
    rw [h0, zero_add, hm]
    exact ⟨rfl, rfl, hq0, f.fee_grid, f.fee_nonneg, by simpa [bound] using hf.recordable.fee⟩
  | some p =>
    obtain ⟨hpq, hpa, hpos, hfg, hfn, hfl⟩ := h.opened _ _ hp
    obtain ⟨hm₁, hm₂, hm₃⟩ := hf.merge p hp
    unfold Context.Exact at hm₁ hm₂ hm₃
    have hsum : 0 < p.qty + f.qty := by rw [hpq]; linarith
    have hlt : p.qty + f.qty < bound 28 12 := by
      have := hf.qty
      rwa [h.qty_eq, ← hpq] at this
    have hnew : c.finish (p.qty + f.qty) = .ok (p.qty + f.qty) := by
      refine exact_of_onGrid hc le_rfl ?_ ?_
      · rw [hpq]; exact (b.qty_grid _).add f.qty_grid
      · rw [abs_of_pos hsum]; simpa [bound] using hlt
    have havg := q_ok hc (hv.mergedAvg_bound hf.unitCost)
    rw [Book.mergedAvg, ← hpq, ← hpa] at havg
    refine ⟨{ p with avg := roundTo 4 (b.mergedAvg f (cost / f.qty)), qty := p.qty + f.qty }, ?_, ?_⟩
    · simp only [Account.openOrAdd, not_le.mpr (hpq ▸ hpos), if_false, Account.addTo, bind,
        Except.bind, hnew, hm₁, hm₂, hm₃, divFin_ok hd hsum.ne', havg]
      rw [Book.mergedAvg, ← hpq, ← hpa]
      rfl
    · exact ⟨by rw [hpq], rfl, by rw [← hpq]; exact hsum, hfg, hfn, hfl⟩

/-- A covered buy moves the account as it moves the book. -/
theorem Refines.buy (ts : ℚ) (hc : c.Accurate ε) (hd : c.exactDiv = true) (h : Refines a b)
    (hv : View db f.accountId b) (hs : f.side = .buy) (hcost : f.cost c = .ok cost)
    (hle : cost ≤ b.cash) (h0 : 0 ≤ cost) (hf : BuyFits c a f cost) :
    ∃ a' b', fill c a f ts = .ok (a', true) ∧ b.Settles c f b' ∧ Refines a' b' := by
  obtain ⟨v, hv₁, hv₂⟩ := bind_ok_iff.mp hcost
  obtain ⟨p, hp, hopen⟩ := h.openOrAdd hc hd hv hf
  have hcash := (b.abs_roundTo_buy_le hle h0).trans_lt hv.cash_lt
  rw [← h.cash] at hcash hle
  have hfill := applyBuy_ok ts hs hv₁ hv₂ hle hf.cash (q_ok hc hcash)
    (divFin_ok hd f.qty_pos.ne') (q_ok hc hf.unitCost) hp
  rw [h.cash] at hle
  have hu : c.quot cost f.qty = .ok (cost / f.qty) := by simp only [Context.quot, hd, if_true]
  refine ⟨_, _, hfill, .buy hs hcost hle hu, ?_⟩
  refine h.update (by rw [h.cash]; rfl) ?_ nofun ?_
  · intro s hne
    exact ⟨Function.update_of_ne hne _ _, Function.update_of_ne hne _ _⟩
  · rintro _ ⟨⟩
    simpa using hopen

theorem applySell_ok (ts : ℚ) {v x cash basis pnl pct e u portion rest newQty : ℚ} {p : Position}
    (hs : f.side = .sell) (hp : a.positions f.symbol = some p) (hle : f.qty ≤ p.qty)
    (hv : c.finish f.value = .ok v) (hx : c.finish (v - f.fee) = .ok x)
    (htax : c.finish (x - 0) = .ok x) (hadd : c.finish (a.cash + x) = .ok y)
    (hcash : q c y = .ok cash) (hbasis : c.finish (f.qty * p.avg) = .ok basis)
    (hpnl : c.finish (x - basis) = .ok pnl)
    (hpct : Account.returnPct c pnl basis = .ok pct)
    (he : c.finish (p.entryFee * f.qty) = .ok e) (hu : c.divFin e p.qty = .ok u)
    (hportion : q c u = .ok portion) (hrest : c.finish (p.entryFee - portion) = .ok rest)
    (hnew : c.finish (p.qty - f.qty) = .ok newQty) :
    fill c a f ts = .ok ({ a with cash }.setPosition f.symbol
      (if newQty ≤ 0 then none else some { p with entryFee := rest, qty := newQty }), true) := by
  rw [Fill.value] at hv
  simp only [fill, hs, Account.applySell, hp, not_lt.mpr hle, if_false, hv, hx, htax, hadd, hcash,
    hbasis, hpnl, hpct, he, hu, hportion, hrest, hnew, bind, Except.bind]
  rfl

theorem OpenAs.portion {qty avg e : ℚ} {p : Position} (hc : c.Accurate ε) (h : OpenAs p qty avg)
    (hle : f.qty ≤ qty) (he : c.finish (p.entryFee * f.qty) = .ok e) :
    0 ≤ roundTo 4 (e / p.qty) ∧ roundTo 4 (e / p.qty) ≤ p.entryFee := by
  have hq0 : 0 < p.qty := h.qty_eq ▸ h.pos
  have hpos : 0 ≤ p.entryFee * f.qty := mul_nonneg h.fee_nonneg f.qty_pos.le
  have he0 := hc.nonneg_of_finish he hpos
  refine ⟨roundTo_nonneg _ (div_nonneg he0 hq0.le), roundTo_le h.fee_grid ?_⟩
  have herr := (abs_le.mp (hc.error_le he)).2
  rw [abs_of_nonneg hpos] at herr
  have hmul : p.entryFee * f.qty ≤ p.entryFee * p.qty :=
    mul_le_mul_of_nonneg_left (h.qty_eq ▸ hle) h.fee_nonneg
  have hlt : e < (p.entryFee + unit 4 / 2) * p.qty := by
    have hu : unit 4 = 1 / 10 ^ 4 := by norm_num [unit]
    have hfee : p.entryFee * p.qty ≤ 10 ^ 16 * p.qty :=
      mul_le_mul_of_nonneg_right h.fee_lt.le hq0.le
    rw [hu]
    linarith
  exact (div_lt_iff₀ hq0).mpr hlt

theorem returnPct_ok (hd : c.exactDiv = true) (pnl basis : ℚ) :
    ∃ pct, Account.returnPct c pnl basis = .ok pct := by
  unfold Account.returnPct
  split_ifs with h
  · exact ⟨_, divFin_ok hd h.ne'⟩
  · exact ⟨0, rfl⟩

theorem OpenAs.abs_basis_lt {p : Position} (h : OpenAs p (b.qty f.symbol) (b.avg f.symbol))
    (hv : View db f.accountId b) (hle : f.qty ≤ b.qty f.symbol) : |f.qty * p.avg| < 10 ^ 32 := by
  have hq0 := f.qty_pos
  have hqb : b.qty f.symbol < 10 ^ 16 := by simpa [bound] using hv.qty_lt f.symbol
  obtain ⟨-, hab⟩ := hv.avg_bound h.pos
  rw [show bound 20 4 = 10 ^ 16 by norm_num [bound]] at hab
  rw [abs_mul, abs_of_pos hq0, h.avg_eq]
  have hmul : f.qty * |b.avg f.symbol| ≤ f.qty * 10 ^ 16 :=
    mul_le_mul_of_nonneg_left hab.le hq0.le
  linarith

theorem Refines.abs_proceeds_lt (h : Refines a b) (hv : View db f.accountId b)
    (hf : SellFits c a f proceeds) : |proceeds| < 10 ^ 17 := by
  have hb4 : bound 20 4 = 10 ^ 16 := by norm_num [bound]
  have hu : unit 4 = 1 / 10 ^ 4 := by norm_num [unit]
  have hr := abs_le.mp (roundTo_error 4 (a.cash + proceeds))
  have hbal := abs_lt.mp hf.balance
  have hcash := hv.cash_lt
  have h0 := b.cash_nonneg
  rw [hb4] at hbal hcash
  rw [hu, h.cash] at hr
  rw [h.cash] at hbal
  rw [abs_lt]
  constructor <;> linarith

theorem OpenAs.left {qty avg e : ℚ} {p : Position} (hc : c.Accurate ε) (h : OpenAs p qty avg)
    (hle : f.qty ≤ qty) (he : c.finish (p.entryFee * f.qty) = .ok e) (hpos : 0 < p.qty - f.qty) :
    OpenAs { p with entryFee := p.entryFee - roundTo 4 (e / p.qty), qty := p.qty - f.qty }
      (qty - f.qty) avg := by
  obtain ⟨hlow, hhigh⟩ := h.portion hc hle he
  refine ⟨by rw [h.qty_eq], h.avg_eq, ?_, h.fee_grid.sub (onGrid_roundTo 4 _),
    sub_nonneg.mpr hhigh, ?_⟩
  · rw [← h.qty_eq]
    exact hpos
  · have hlt := h.fee_lt
    simp only
    linarith

theorem OpenAs.exists_allotted {qty avg : ℚ} {p : Position} (hc : c.Accurate ε)
    (h : OpenAs p qty avg) (hle : f.qty ≤ qty) (hlt : qty < 10 ^ 16) :
    ∃ e, c.finish (p.entryFee * f.qty) = .ok e ∧
      q c (e / p.qty) = .ok (roundTo 4 (e / p.qty)) ∧
      c.finish (p.entryFee - roundTo 4 (e / p.qty)) =
        .ok (p.entryFee - roundTo 4 (e / p.qty)) := by
  have hq0 := f.qty_pos
  have hfeeq : |p.entryFee * f.qty| < 10 ^ 100 := by
    rw [abs_of_nonneg (mul_nonneg h.fee_nonneg hq0.le)]
    have hmul : p.entryFee * f.qty ≤ 10 ^ 16 * f.qty :=
      mul_le_mul_of_nonneg_right h.fee_lt.le hq0.le
    linarith
  obtain ⟨e, he⟩ := hc.total hfeeq
  obtain ⟨hlow, hhigh⟩ := h.portion hc hle he
  refine ⟨e, he, ?_, ?_⟩
  · apply q_ok hc
    rw [abs_of_nonneg hlow, show bound 20 4 = 10 ^ 16 by norm_num [bound]]
    exact hhigh.trans_lt h.fee_lt
  · refine exact_of_onGrid hc (by norm_num) (h.fee_grid.sub (onGrid_roundTo 4 _)) ?_
    rw [abs_of_nonneg (sub_nonneg.mpr hhigh)]
    linarith [h.fee_lt]

/-- The profit of a sale is computed: its terms are far from the exponent limit. -/
theorem Refines.exists_pnl {p : Position} (hc : c.Accurate ε) (hd : c.exactDiv = true)
    (h : Refines a b) (hv : View db f.accountId b) (ho : OpenAs p (b.qty f.symbol) (b.avg f.symbol))
    (hle : f.qty ≤ b.qty f.symbol) (hf : SellFits c a f proceeds) :
    ∃ basis pnl pct, c.finish (f.qty * p.avg) = .ok basis ∧
      c.finish (proceeds - basis) = .ok pnl ∧ Account.returnPct c pnl basis = .ok pct := by
  have hbasis := ho.abs_basis_lt hv hle
  obtain ⟨basis, hbas⟩ := hc.total (hbasis.trans (by norm_num))
  have hpnlb : |proceeds - basis| < 10 ^ 100 := by
    have hproc := h.abs_proceeds_lt hv hf
    have herr := hc.error_le hbas
    have h₁ := abs_sub_abs_le_abs_sub basis (f.qty * p.avg)
    have h₂ := abs_sub proceeds basis
    linarith
  obtain ⟨pnl, hpnl⟩ := hc.total hpnlb
  obtain ⟨pct, hpct⟩ := returnPct_ok (c := c) hd pnl basis
  exact ⟨basis, pnl, pct, hbas, hpnl, hpct⟩

/-- A covered sell moves the account as it moves the book. -/
theorem Refines.sell (ts : ℚ) (hc : c.Accurate ε) (hd : c.exactDiv = true) (h : Refines a b)
    (hv : View db f.accountId b) (hs : f.side = .sell) (hp : f.proceeds c = .ok proceeds)
    (hle : f.qty ≤ b.qty f.symbol) (hf : SellFits c a f proceeds) :
    ∃ a' b', fill c a f ts = .ok (a', true) ∧ b.Settles c f b' ∧ Refines a' b' := by
  obtain ⟨v, hv₁, hv₂⟩ := bind_ok_iff.mp hp
  have hq0 := f.qty_pos
  cases hpos : a.positions f.symbol with
  | none =>
    rw [h.closed _ hpos] at hle
    linarith
  | some p =>
    have ho := h.opened _ _ hpos
    have hle' : f.qty ≤ p.qty := by rw [ho.qty_eq]; exact hle
    have hqb : b.qty f.symbol < 10 ^ 16 := by simpa [bound] using hv.qty_lt f.symbol
    obtain ⟨basis, pnl, pct, hbas, hpnl, hpct⟩ := h.exists_pnl hc hd hv ho hle hf
    obtain ⟨e, he, hportion, hrest⟩ := ho.exists_allotted hc hle hqb
    have hpq0 : p.qty ≠ 0 := by rw [ho.qty_eq]; exact ho.pos.ne'
    have hnew : c.finish (p.qty - f.qty) = .ok (p.qty - f.qty) := by
      refine exact_of_onGrid hc le_rfl ?_ ?_
      · rw [ho.qty_eq]; exact (b.qty_grid _).sub f.qty_grid
      · rw [abs_of_nonneg (sub_nonneg.mpr hle'), ho.qty_eq]
        linarith
    have htax : c.finish (proceeds - 0) = .ok proceeds := by
      rw [sub_zero]; exact hc.result hv₂
    have hfill := applySell_ok ts hs hpos hle' hv₁ hv₂ htax hf.cash (q_ok hc hf.balance) hbas hpnl hpct
      he (divFin_ok hd hpq0) hportion hrest hnew
    have hgt := f.proceeds_gt hc hp
    refine ⟨_, _, hfill, .sell hs hle hp hgt, h.update (by rw [h.cash]; rfl) ?_ ?_ ?_⟩
    · intro s hne
      exact ⟨Function.update_of_ne hne _ _, rfl⟩
    · intro hn
      have hz : p.qty - f.qty ≤ 0 := by
        by_contra hpos'
        rw [if_neg hpos'] at hn
        cases hn
      simp only [Book.sell_qty, Function.update_self]
      rw [ho.qty_eq] at hz
      linarith
    · intro r hr
      split_ifs at hr with hz
      obtain rfl := Option.some.inj hr
      simp only [Book.sell_qty, Book.sell_avg, Function.update_self]
      exact ho.left hc hle he (not_le.mp hz)

theorem Refines.refuse (h : Refines a b) (hr : b.Refuses c f) : fill c a f ts = .ok (a, false) := by
  unfold Book.Refuses at hr
  cases hs : f.side with
  | buy =>
    simp only [hs] at hr
    obtain ⟨cost, hcost, hlt⟩ := hr
    obtain ⟨v, hv₁, hv₂⟩ := bind_ok_iff.mp hcost
    rw [Fill.value] at hv₁
    rw [← h.cash] at hlt
    simp only [fill, hs, Account.applyBuy, hv₁, hv₂, hlt, bind, Except.bind, if_true]
    rfl
  | sell =>
    simp only [hs] at hr
    simp only [fill, hs, Account.applySell]
    cases hp : a.positions f.symbol with
    | none => rfl
    | some p =>
      rw [← (h.opened _ _ hp).qty_eq] at hr
      simp only [hr, if_true]
      rfl

/-- Account and ledger answer a fill alike, and then they are on one book. -/
def Answered (c : Context) (a : Account) (db : Db) (f : Fill) (ts : ℚ) : Prop :=
  ∃ a' acc db' out b', fill c a f ts = .ok (a', acc) ∧
    applyExecution c db f.toExecution = .ok (db', out) ∧
    (acc = true ∧ out = .applied ∨ acc = false ∧ out = .rejected) ∧
    View db' f.accountId b' ∧ Refines a' b'

theorem answered_of_applied (hc : c.Accurate ε) (hv : View db f.accountId b) {ts : ℚ}
    (hfill : fill c a f ts = .ok (a', true)) (hb : b.Settles c f b') (hr : Refines a' b')
    (happ : applyExecution c db f.toExecution = .ok (db', .applied)) : Answered c a db f ts := by
  obtain ⟨⟨b'', hb', hv'⟩, -⟩ := hv.applied hc happ
  obtain rfl := Settles.unique hb hb'
  exact ⟨a', true, db', .applied, _, hfill, happ, Or.inl ⟨rfl, rfl⟩, hv', hr⟩

theorem Refines.answered_refused (h : Refines a b) (hv : View db f.accountId b)
    (hfresh : db.recorded f.executionId = false) (hr : b.Refuses c f) (ts : ℚ) :
    Answered c a db f ts :=
  ⟨a, false, _, .rejected, b, h.refuse hr, hv.rejected hfresh hr, Or.inr ⟨rfl, rfl⟩,
    ⟨hv.balance, hv.absent, hv.held⟩, h⟩

/-- One fill keeps account and ledger on the same book. -/
theorem Refines.step (hc : c.Accurate ε) (hd : c.exactDiv = true) (h : Refines a b)
    (hv : View db f.accountId b) (hfresh : db.recorded f.executionId = false)
    (horder : (db.orders f.orderId).isSome) (hfits : Fits c a f) (ts : ℚ) :
    Answered c a db f ts := by
  unfold Fits at hfits
  cases hs : f.side with
  | buy =>
    simp only [hs] at hfits
    obtain ⟨cost, hcost, hfits⟩ := hfits
    rcases le_or_gt cost b.cash with hle | hlt
    · have hf := hfits (by rw [h.cash]; exact hle)
      have h0 := f.cost_nonneg hc hcost
      obtain ⟨a', b', hfill, hb, hr⟩ := h.buy ts hc hd hv hs hcost hle h0 hf
      have hu : c.quot cost f.qty = .ok (cost / f.qty) := by simp only [Context.quot, hd, if_true]
      obtain ⟨db', happ⟩ := hv.applied_buy hs hfresh horder hf.recordable hcost hle h0 hu
        hf.unitCost (by rw [← h.qty_eq]; exact hf.qty)
      exact answered_of_applied hc hv hfill hb hr happ
    · refine h.answered_refused hv hfresh ?_ ts
      simp only [Book.Refuses, hs]
      exact ⟨cost, hcost, hlt⟩
  | sell =>
    simp only [hs] at hfits
    rcases le_or_gt f.qty (b.qty f.symbol) with hle | hlt
    · obtain ⟨proceeds, hp, hf⟩ := hfits (by rw [h.qty_eq]; exact hle)
      obtain ⟨a', b', hfill, hb, hr⟩ := h.sell ts hc hd hv hs hp hle hf
      obtain ⟨db', happ⟩ := hv.applied_sell hc hs hfresh horder hf.recordable hle hp
        (by rw [← h.cash]; exact hf.balance)
      exact answered_of_applied hc hv hfill hb hr happ
    · refine h.answered_refused hv hfresh ?_ ts
      simp only [Book.Refuses, hs]
      exact hlt

end Step

/-! ## Runs -/

section Runs

variable {c : Context} {ε : ℚ} {a a₀ : Account} {b : Book} {db : Db} {acct : String}
  {fs : List (Fill × ℚ)}

/-- The same cash on both sides and no positions. -/
structure Starts (acct : String) (a : Account) (db : Db) : Prop where
  cash : ∃ bal, db.accounts acct = some bal ∧ bal.val.val = .fin a.cash
  account : ∀ s, a.positions s = none
  ledger : ∀ s, db.positions acct s = none

/-- Executions of known orders of the account, with distinct ids that are not recorded yet. -/
structure Deliverable (acct : String) (db : Db) (fs : List (Fill × ℚ)) : Prop where
  account : ∀ f ∈ fs, f.1.accountId = acct
  order : ∀ f ∈ fs, (db.orders f.1.orderId).isSome
  fresh : ∀ f ∈ fs, db.recorded f.1.executionId = false
  distinct : (fs.map fun f => f.1.executionId).Nodup

/-- Every fill fits the state the backtest account reaches before it. -/
def FitsAlong (c : Context) (a₀ : Account) (fs : List (Fill × ℚ)) : Prop :=
  ∀ pre f a, pre ++ [f] <+: fs → runFills c a₀ pre = .ok a → Fits c a f.1

/-- Both sides decide every fill alike and hold the same amounts after every fill. -/
structure InLockstep (c : Context) (acct : String) (a₀ : Account) (db : Db)
    (fs : List (Fill × ℚ)) : Prop where
  state : ∀ pre, pre <+: fs → ∃ a, runFills c a₀ pre = .ok a ∧
    Lockstep acct a (settle c db (pre.map Prod.fst))
  decision : ∀ pre f a, pre ++ [f] <+: fs → runFills c a₀ pre = .ok a →
    ∃ a' acc db' out, fill c a f.1 f.2 = .ok (a', acc) ∧
      applyExecution c (settle c db (pre.map Prod.fst)) f.1.toExecution = .ok (db', out) ∧
      (acc = true ∧ out = .applied ∨ acc = false ∧ out = .rejected)

theorem runFills_cons (f : Fill × ℚ) : runFills c a₀ (f :: fs) =
    (fill c a₀ f.1 f.2).bind fun r => runFills c r.1 fs := by
  unfold runFills
  rw [List.foldlM_cons]
  cases fill c a₀ f.1 f.2 <;> rfl

theorem fitsAlong_cons {f : Fill × ℚ} (hf : Fits c a₀ f.1)
    (hrest : ∀ r, fill c a₀ f.1 f.2 = .ok r → FitsAlong c r.1 fs) : FitsAlong c a₀ (f :: fs) := by
  intro pre g a hp hrun
  cases pre with
  | nil =>
    obtain rfl : g = f := (List.cons_prefix_cons.mp hp).1
    obtain rfl : a₀ = a := Except.ok.inj hrun
    exact hf
  | cons f' pre =>
    obtain ⟨rfl, hp'⟩ := List.cons_prefix_cons.mp hp
    rw [runFills_cons] at hrun
    obtain ⟨r, hfill, hrun⟩ := bind_ok_iff.mp hrun
    exact hrest r hfill pre g a hp' hrun

/-- Whether fills fit, one after the other. -/
def fitsAll (c : Context) (a : Account) : List (Fill × ℚ) → Bool
  | [] => true
  | f :: fs => decide (Fits c a f.1) &&
      match fill c a f.1 f.2 with
      | .ok r => fitsAll c r.1 fs
      | .error _ => true

theorem fitsAlong_of_fitsAll (h : fitsAll c a₀ fs = true) : FitsAlong c a₀ fs := by
  induction fs generalizing a₀ with
  | nil =>
    rintro pre f a hp -
    simp at hp
  | cons f fs ih =>
    obtain ⟨hf, hrest⟩ := Bool.and_eq_true_iff.mp h
    refine fitsAlong_cons (of_decide_eq_true hf) ?_
    intro r hr
    rw [hr] at hrest
    exact ih hrest

theorem runFills_snoc {pre : List (Fill × ℚ)} {f : Fill × ℚ} (h : runFills c a₀ pre = .ok a) :
    runFills c a₀ (pre ++ [f]) = Prod.fst <$> fill c a f.1 f.2 := by
  unfold runFills at h ⊢
  rw [List.foldlM_append, h]
  exact bind_pure (m := Except Signal) _

/-- Account and ledger keep one book. -/
structure SameBook (acct : String) (a : Account) (db : Db) (b : Book) : Prop where
  view : View db acct b
  refines : Refines a b

theorem SameBook.lockstep (h : SameBook acct a db b) : Lockstep acct a db where
  cash := by rw [h.refines.cash]; exact h.view.balance
  closed s hs := by rw [h.view.held_eq, h.refines.closed s hs]
  opened s p hp := by
    have ho := h.refines.opened s p hp
    refine ⟨by rw [ho.qty_eq]; exact ho.pos, ?_⟩
    cases hr : db.positions acct s with
    | none => exact absurd (h.view.absent s hr) ho.pos.ne'
    | some row =>
      rw [ho.qty_eq, ho.avg_eq]
      exact ⟨row, rfl, h.view.held s row hr⟩

theorem Starts.sameBook (h : Starts acct a₀ db) : ∃ b, SameBook acct a₀ db b := by
  obtain ⟨bal, hbal, hx⟩ := h.cash
  have hn := bal.2
  have hg := bal.val.2
  rw [hx] at hn hg
  let b : Book := ⟨a₀.cash, fun _ => 0, fun _ => 0, hn, hg.1, fun _ => le_rfl, fun _ => .zero _⟩
  refine ⟨b, ⟨⟨bal, hbal, hx⟩, fun _ _ => rfl, ?_⟩, rfl, fun _ _ => rfl, ?_⟩
  · intro s p hp
    rw [h.ledger] at hp
    cases hp
  · intro s p hp
    rw [h.account] at hp
    cases hp

/-- The account and the ledger after some of the fills. -/
structure Reached (c : Context) (acct : String) (a₀ : Account) (db : Db) (pre : List (Fill × ℚ))
    (a : Account) (b : Book) : Prop where
  run : runFills c a₀ pre = .ok a
  book : SameBook acct a (settle c db (pre.map Prod.fst)) b
  orders : ∀ o, ((settle c db (pre.map Prod.fst)).orders o).isSome = (db.orders o).isSome
  recorded : ∀ eid, (settle c db (pre.map Prod.fst)).recorded eid = true →
    db.recorded eid = true ∨ eid ∈ pre.map fun f => f.1.executionId

/-- The next fill is decided alike and reaches one book again. -/
theorem Reached.step {pre : List (Fill × ℚ)} {f : Fill × ℚ} (hc : c.Accurate ε)
    (hd : c.exactDiv = true) (hdel : Deliverable acct db fs) (hp : pre ++ [f] <+: fs)
    (h : Reached c acct a₀ db pre a b) (hfits : Fits c a f.1) :
    ∃ a' acc db' out b', fill c a f.1 f.2 = .ok (a', acc) ∧
      applyExecution c (settle c db (pre.map Prod.fst)) f.1.toExecution = .ok (db', out) ∧
      (acc = true ∧ out = .applied ∨ acc = false ∧ out = .rejected) ∧
      Reached c acct a₀ db (pre ++ [f]) a' b' := by
  have hmem := mem_of_snoc hp
  have hacct := hdel.account f hmem
  have hfresh : (settle c db (pre.map Prod.fst)).recorded f.1.executionId = false := by
    rw [Bool.eq_false_iff]
    intro hr
    rcases h.recorded _ hr with hr | hr
    · rw [hdel.fresh f hmem] at hr
      cases hr
    · have hnd := hdel.distinct.sublist (hp.sublist.map _)
      rw [List.map_append, List.nodup_append] at hnd
      exact hnd.2.2 _ hr _ (by simp) rfl
  obtain ⟨a', acc, db', out, b', hfill, happ, hdec, hv', hr'⟩ := h.book.refines.step hc hd
    (by rw [hacct]; exact h.book.view) hfresh (by rw [h.orders]; exact hdel.order f hmem) hfits f.2
  have hdeliver : settle c db ((pre ++ [f]).map Prod.fst) = db' := by
    rw [List.map_append, List.map_cons, List.map_nil, settle_snoc]
    simp only [deliver, happ]
  have hdeliver' : deliver c (settle c db (pre.map Prod.fst)) f.1.toExecution = db' := by
    simp only [deliver, happ]
  refine ⟨a', acc, db', out, b', hfill, happ, hdec, ?_, ⟨?_, hr'⟩, ?_, ?_⟩
  · rw [runFills_snoc h.run, hfill]; rfl
  · rw [hdeliver, ← hacct]; exact hv'
  · intro o
    rw [hdeliver, ← hdeliver', isSome_orders_deliver, h.orders]
  · intro eid he
    rw [hdeliver, ← hdeliver'] at he
    rw [List.map_append, List.mem_append]
    rcases recorded_of_deliver he with he | he
    · rcases h.recorded eid he with he | he
      · exact Or.inl he
      · exact Or.inr (Or.inl he)
    · exact Or.inr (Or.inr (by simp [← he]))

/-- Fills that fit reach one book after every prefix. -/
theorem reached (hc : c.Accurate ε) (hd : c.exactDiv = true) (hs : Starts acct a₀ db)
    (hdel : Deliverable acct db fs) (hfits : FitsAlong c a₀ fs) :
    ∀ pre, pre <+: fs → ∃ a b, Reached c acct a₀ db pre a b := by
  apply prefix_induction
  · obtain ⟨b, hb⟩ := hs.sameBook
    exact ⟨a₀, b, rfl, hb, fun _ => rfl, fun _ h => Or.inl h⟩
  · rintro pre f hp ⟨a, b, h⟩
    obtain ⟨a', _, _, _, b', -, -, -, h'⟩ := h.step hc hd hdel hp (hfits pre f a hp h.run)
    exact ⟨a', b', h'⟩

/-- In a context with exact quotients the account follows the ledger. -/
theorem inLockstep_of_fits (hc : c.Accurate ε) (hd : c.exactDiv = true) (hs : Starts acct a₀ db)
    (hdel : Deliverable acct db fs) (hfits : FitsAlong c a₀ fs) :
    InLockstep c acct a₀ db fs where
  state pre hp := by
    obtain ⟨a, b, h⟩ := reached hc hd hs hdel hfits pre hp
    exact ⟨a, h.run, h.book.lockstep⟩
  decision pre f a hp hrun := by
    have hp' := (List.prefix_append pre [f]).trans hp
    obtain ⟨a₁, b, h⟩ := reached hc hd hs hdel hfits pre hp'
    obtain rfl : a = a₁ := Except.ok.inj (hrun.symm.trans h.run)
    obtain ⟨a', acc, db', out, _, hfill, happ, hdec, -⟩ :=
      h.step hc hd hdel hp (hfits pre f a hp hrun)
    exact ⟨a', acc, db', out, hfill, happ, hdec⟩

/-- The backtest account refines the live ledger, divisions taken as rationals. -/
theorem account_refines_ledger (hs : Starts acct a₀ db) (hdel : Deliverable acct db fs)
    (hfits : FitsAlong Context.ratDiv a₀ fs) : InLockstep Context.ratDiv acct a₀ db fs :=
  inLockstep_of_fits Context.accurate_ratDiv rfl hs hdel hfits

end Runs

/-! ## Digits and columns -/

theorem demoRate_lt : (0 : ℚ) < 1 / 2 := by
  norm_num

theorem demoRate_nonneg : (0 : ℚ) ≤ 0 := le_rfl

theorem demoFee_grid : OnGrid (unit 4) (0 : ℚ) := .zero _

theorem demoQty_pos : (0 : ℚ) < 1 := one_pos

/-- A free buy by the demo account: no fee, at any price and quantity. -/
def demoBuy (id : String) (price qty : ℚ) (hp : 0 < price) (hq : 0 < qty)
    (hg : OnGrid (unit 12) qty) : Fill where
  executionId := id
  orderId := id
  accountId := "demo"
  symbol := "KRW-BTC"
  side := .buy
  price := price
  qty := qty
  fee := 0
  rate := 0
  price_pos := hp
  qty_pos := hq
  qty_grid := hg
  rate_nonneg := demoRate_nonneg
  rate_lt := demoRate_lt
  fee_grid := demoFee_grid
  fee_error := by norm_num [unit]

theorem onGrid_one : OnGrid (unit 12) (1 : ℚ) := ⟨10 ^ 12, by norm_num [unit]⟩

/-- A demo account with 10^15 in cash whose orders are all known. -/
def demoDb : Db where
  accounts a := if a = "demo" then
    some ⟨ofCoeff 20 4 (10 ^ 19) (by decide +kernel), by decide +kernel⟩ else none
  positions _ _ := none
  orders _ := some ⟨"demo", "KRW-BTC", .buy, .market, none,
    ofCoeff 28 12 (10 ^ 12) (by decide +kernel), .pending⟩
  executions := []

def demoAccount : Account := ⟨10 ^ 15, fun _ => none⟩

theorem starts_demo : Starts "demo" demoAccount demoDb where
  cash := ⟨_, rfl, by decide +kernel⟩
  account _ := rfl
  ledger _ := rfl

def finePrice : Fill := demoBuy "fine" (5000000000000001 / 10 ^ 20) 1 (by norm_num) demoQty_pos
  onGrid_one

def hugePrice : Fill := demoBuy "huge" (10 ^ 17) (1 / 10 ^ 12) (by norm_num) (by norm_num)
  ⟨1, by norm_num [unit]⟩

theorem deliverable_demo {f : Fill} (h : f.accountId = "demo") : Deliverable "demo" demoDb [(f, 0)] where
  account _ hm := by rw [List.mem_singleton.mp hm]; exact h
  order _ _ := rfl
  fresh _ _ := rfl
  distinct := by simp

def demoFill (id : String) (side : Side) (price qty : ℕ) (hp : 0 < price) (hq : 0 < qty) : Fill where
  executionId := id
  orderId := id
  accountId := "demo"
  symbol := "KRW-BTC"
  side := side
  price := price
  qty := qty
  fee := price * qty / 1000
  rate := 1 / 1000
  price_pos := Nat.cast_pos.mpr hp
  qty_pos := Nat.cast_pos.mpr hq
  qty_grid := ⟨qty * 10 ^ 12, by push_cast; norm_num [unit]; ring⟩
  rate_nonneg := by norm_num
  rate_lt := by norm_num
  fee_grid := ⟨price * qty * 10, by push_cast; norm_num [unit]; ring⟩
  fee_error := by norm_num [unit, div_eq_mul_inv]

/-- A buy, a further buy, a sale of a part and of the rest, a buy anew, a sale of more than is held
and a buy that the cash does not cover. -/
def demoFills : List (Fill × ℚ) :=
  [(demoFill "1" .buy 100 10 (by decide) (by decide), 0),
    (demoFill "2" .buy 125 6 (by decide) (by decide), 60),
    (demoFill "3" .sell 130 4 (by decide) (by decide), 120),
    (demoFill "4" .sell 90 12 (by decide) (by decide), 180),
    (demoFill "5" .buy 80 3 (by decide) (by decide), 240),
    (demoFill "6" .sell 85 7 (by decide) (by decide), 300),
    (demoFill "7" .buy (10 ^ 12) (10 ^ 4) (by decide) (by decide), 360)]

theorem deliverable_demoFills : Deliverable "demo" demoDb demoFills where
  account := by decide
  order := by decide
  fresh := by decide
  distinct := by decide

/-- The position is averaged, closed and opened anew, and the last two fills change nothing. -/
theorem demoFills_in_lockstep : InLockstep Context.ratDiv "demo" demoAccount demoDb demoFills ∧
    ([2, 3, 4, 5, 7].map fun n => (runFills Context.ratDiv demoAccount (demoFills.take n)).map fun a =>
        (a.qty "KRW-BTC", a.avg "KRW-BTC")) =
      [.ok (16, 1094844 / 10000), .ok (12, 1094844 / 10000), .ok (0, 0), .ok (3, 8008 / 100),
        .ok (3, 8008 / 100)] :=
  ⟨account_refines_ledger starts_demo deliverable_demoFills
    (fitsAlong_of_fitsAll (by decide +kernel)), by decide +kernel⟩

/-- Rounding to 28 digits before storage, and a number beyond its column, break the lockstep. -/
theorem fine_and_huge_diverge :
    (Starts "demo" demoAccount demoDb ∧ Deliverable "demo" demoDb [(finePrice, 0)] ∧
      ¬ InLockstep Context.ratDiv "demo" demoAccount demoDb [(finePrice, 0)]) ∧
    (Deliverable "demo" demoDb [(hugePrice, 0)] ∧
      ¬ InLockstep Context.ratDiv "demo" demoAccount demoDb [(hugePrice, 0)]) := by
  refine ⟨⟨starts_demo, deliverable_demo rfl, fun h => ?_⟩, deliverable_demo rfl, fun h => ?_⟩
  · obtain ⟨a, hrun, hl⟩ := h.state [(finePrice, 0)] List.prefix_rfl
    obtain ⟨bal, hbal, hx⟩ := hl.cash
    have ha : Account.cash <$> runFills Context.ratDiv demoAccount [(finePrice, 0)] =
        .ok (10 ^ 15) := by decide +kernel
    have hb : ((settle Context.ratDiv demoDb [finePrice]).accounts "demo").map (·.val.val) =
        some (.fin (10 ^ 15 - 1 / 10 ^ 4)) := by decide +kernel
    rw [hrun] at ha
    rw [show (settle Context.ratDiv demoDb [finePrice]).accounts "demo" = some bal from hbal,
      Option.map_some, hx, show a.cash = 10 ^ 15 from Except.ok.inj ha] at hb
    revert hb
    decide +kernel
  · obtain ⟨_, _, db', out, -, happ, -⟩ := h.decision [] (hugePrice, 0) demoAccount List.prefix_rfl rfl
    have herr : Except.isOk (applyExecution Context.ratDiv demoDb hugePrice.toExecution) = false := by
      decide +kernel
    rw [show applyExecution Context.ratDiv demoDb hugePrice.toExecution = .ok (db', out) from happ]
      at herr
    cases herr

end QuantTrader.Backtest
