import QuantTrader.Backtest.Conservation
import QuantTrader.Backtest.CrossSectional

/-! # The fees of closed trades

A position keeps the fee of the buy that opened it, and each sale takes a share of
what is left of it. The fee of a further buy enters the average only: no trade
reports it.
-/

namespace QuantTrader.Backtest.Fees

open Transition
open Conservation (Call Terms Allots start)

/-- The unit of a fee: `QUANT_FEE`, and `QUANT_KRW` of the account. -/
def unit : ℚ := ((10 : ℚ) ^ 4)⁻¹

theorem unit_pos : 0 < unit := by
  unfold unit
  positivity

/-! ## Runs -/

/-- An applied buy; `further` if the symbol was held before it. -/
structure Buy where
  symbol : String
  fee : ℚ
  further : Bool
  deriving DecidableEq

/-- The applied buys, the closed trades and the fees that were charged to the cash. -/
structure Record where
  buys : List Buy
  trades : List ClosedTrade
  charged : List (String × ℚ)

namespace Record

variable (r : Record) (a : Account) (o : Terms) (s : String)

def buy : Record :=
  ⟨r.buys ++ [⟨o.symbol, o.fee, decide (0 < a.qty o.symbol)⟩], r.trades,
    r.charged ++ [(o.symbol, o.fee)]⟩

def sell (trade : ClosedTrade) : Record :=
  ⟨r.buys, r.trades ++ [trade], r.charged ++ [(o.symbol, o.fee)]⟩

def tradesOf : List ClosedTrade := r.trades.filter (·.symbol = s)

def buysOf : List Buy := r.buys.filter (·.symbol = s)

def chargedTo : ℚ := ((r.charged.filter (·.1 = s)).map Prod.snd).sum

end Record

/-- `total_fees` of `trade_stats`, as an exact sum. -/
def totalFees (trades : List ClosedTrade) : ℚ := (trades.map fun t => t.buyFee + t.sellFee).sum

/-- The buy fees of the trades are the fees of the buys, and the total is what the cash has paid. -/
structure Attributed (s : String) (r : Record) : Prop where
  buyFees : ((r.tradesOf s).map (·.buyFee)).sum = ((r.buysOf s).map (·.fee)).sum
  totalFees : totalFees (r.tradesOf s) = r.chargedTo s

/-- No further buy has paid a fee. -/
def OneFee (s : String) (r : Record) : Prop := ∀ b ∈ r.buysOf s, b.further = true → b.fee = 0

section Calls

variable (c : Context)

/-- A call, with what it adds to the record if it is applied. -/
def step (s : Account × Record) : Call → Except Signal (Account × Record)
  | .buy o => do
    let (a, applied) ← s.1.applyBuy c o.symbol o.price o.qty o.fee o.ts
    return (a, if applied then s.2.buy s.1 o else s.2)
  | .sell o tax _ => do
    let (a, trade) ← s.1.applySell c o.symbol o.price o.qty o.fee o.ts tax
    return (a, match trade with
      | none => s.2
      | some trade => s.2.sell o trade)

def run (cash : ℚ) (calls : List Call) : Except Signal (Account × Record) :=
  calls.foldlM (step c) (start cash, ⟨[], [], []⟩)

def terms : Call → Terms
  | .buy o | .sell o _ _ => o

/-- The fee of a call is that of the fill model. -/
def Charged (m : FillModel) (call : Call) : Prop :=
  m.fee c (terms call).price (terms call).qty = .ok (terms call).fee

/-- A quantised fee on which the context makes no error that its unit could show. -/
structure Payable (ε fee : ℚ) : Prop where
  grid : OnGrid unit fee
  nonneg : 0 ≤ fee
  exact : ∀ x, OnGrid unit x → 0 ≤ x → x ≤ fee → c.Exact x
  error : ε * fee ≤ 1 / 10 ^ 6

end Calls

variable {c : Context} {ε fee : ℚ}

theorem Charged.onGrid {m : FillModel} {call : Call} (h : Charged c m call) :
    OnGrid unit (terms call).fee := by
  obtain ⟨v, -, h⟩ := bind_ok_iff.mp h
  obtain ⟨w, -, h⟩ := bind_ok_iff.mp h
  unfold Context.quantizeFin at h
  split_ifs at h
  rw [← Except.ok.inj h]
  exact Nearest.onGrid_toGrid _ _ _

theorem payable_default (hg : OnGrid unit fee) (h : 0 ≤ fee) (hle : fee ≤ 10 ^ 21) :
    Payable .default (5 / 10 ^ 28) fee where
  grid := hg
  nonneg := h
  exact x hx hx₀ hx₁ := by
    apply Context.accurate_default.exact_of_decimals (by norm_num) hx
    rw [abs_of_nonneg hx₀]
    exact (hx₁.trans hle).trans_lt (by norm_num)
  error := by linarith

theorem Payable.of_le {rest : ℚ} (h : Payable c ε fee) (hc : c.Accurate ε) (hg : OnGrid unit rest)
    (h₀ : 0 ≤ rest) (hle : rest ≤ fee) : Payable c ε rest where
  grid := hg
  nonneg := h₀
  exact x hx hx₀ hx₁ := h.exact x hx hx₀ (hx₁.trans hle)
  error := (mul_le_mul_of_nonneg_left hle hc.nonneg).trans h.error

/-! ## The share of a sale -/

section Shares

variable {p : Position} {qty share rest e u : ℚ}

theorem share_bounds (hc : c.Accurate ε) (hf : Payable c ε p.entryFee) (hp : 0 < p.qty)
    (hq : 0 < qty) (he : c.finish (p.entryFee * qty) = .ok e) (hu : c.divFin e p.qty = .ok u) :
    0 ≤ u ∧ |u - p.entryFee * (qty / p.qty)| ≤ 3 * ε * p.entryFee * (qty / p.qty) := by
  have hf₀ := hf.nonneg
  have hε := hc.nonneg
  have hprod : 0 ≤ p.entryFee * qty := mul_nonneg hf₀ hq.le
  have hpart : p.entryFee * qty / p.qty = p.entryFee * (qty / p.qty) := mul_div_assoc _ _ _
  obtain ⟨he₀, he₂, heε⟩ := Conservation.finish_of_nonneg hc he hprod
  have hquot : 0 ≤ e / p.qty := div_nonneg he₀ hp.le
  have huε := Conservation.divFin_error hc hu
  rw [abs_of_nonneg hquot] at huε
  have hsmall : ε * (e / p.qty) ≤ 1 * (e / p.qty) :=
    mul_le_mul_of_nonneg_right (by linarith [hc.small]) hquot
  have htwo : e / p.qty ≤ 2 * (p.entryFee * (qty / p.qty)) := by
    rw [← hpart, ← mul_div_assoc]
    exact div_le_div_of_nonneg_right he₂ hp.le
  have hnear : |e / p.qty - p.entryFee * (qty / p.qty)| ≤ ε * (p.entryFee * (qty / p.qty)) := by
    rw [← hpart, ← sub_div, abs_div, abs_of_pos hp, ← mul_div_assoc]
    exact div_le_div_of_nonneg_right heε hp.le
  constructor
  · linarith [(abs_le.mp huε).1]
  · calc |u - p.entryFee * (qty / p.qty)|
        ≤ |u - e / p.qty| + |e / p.qty - p.entryFee * (qty / p.qty)| := abs_sub_le _ _ _
      _ ≤ ε * (2 * (p.entryFee * (qty / p.qty))) + ε * (p.entryFee * (qty / p.qty)) :=
          add_le_add (huε.trans (mul_le_mul_of_nonneg_left htwo hε)) hnear
      _ = 3 * ε * p.entryFee * (qty / p.qty) := by ring

theorem q_eq {x y : ℚ} (h : q c x = .ok y) : y = Nearest.halfUp.toGrid unit x := by
  unfold q Context.quantizeFin at h
  split_ifs at h
  exact (Except.ok.inj h).symm

/-- What is within a millionth of a quantised fee is quantised to it. -/
theorem toGrid_near (hg : OnGrid unit fee) (h : |u - fee| ≤ 3 / 10 ^ 6) :
    Nearest.halfUp.toGrid unit u = fee := by
  apply Nearest.toGrid_eq_of_abs_sub_lt _ unit_pos hg
  exact h.trans_lt (by norm_num [unit])

/-- A sale takes a quantised share of at most the fee, and a sale of everything all of it. -/
theorem allots_spec (hc : c.Accurate ε) (hf : Payable c ε p.entryFee) (hp : 0 < p.qty)
    (hq : 0 < qty) (hle : qty ≤ p.qty) (h : Allots c p qty share rest) :
    rest = p.entryFee - share ∧ Payable c ε rest ∧ (qty = p.qty → share = p.entryFee) := by
  obtain ⟨e, u, he, hu, hshare, hrest⟩ := h
  obtain ⟨hu₀, huε⟩ := share_bounds hc hf hp hq he hu
  have hf₀ := hf.nonneg
  have hpart : qty / p.qty ≤ 1 := (div_le_one hp).mpr hle
  have herr : 3 * ε * p.entryFee * (qty / p.qty) ≤ 3 / 10 ^ 6 := by
    have hεf : 0 ≤ 3 * ε * p.entryFee := mul_nonneg (mul_nonneg (by norm_num) hc.nonneg) hf₀
    have := mul_le_mul_of_nonneg_left hpart hεf
    linarith [hf.error]
  have hgrid : OnGrid unit share := by
    rw [q_eq hshare]
    exact Nearest.onGrid_toGrid _ _ _
  have hshare₀ : 0 ≤ share := by
    rw [q_eq hshare]
    exact Nearest.toGrid_nonneg _ unit_pos hu₀
  have hshare₁ : share ≤ p.entryFee := by
    have hupper : u ≤ p.entryFee + 3 / 10 ^ 6 := by
      have := mul_le_mul_of_nonneg_left hpart hf₀
      linarith [(abs_le.mp huε).2]
    calc share = Nearest.halfUp.toGrid unit u := q_eq hshare
      _ ≤ Nearest.halfUp.toGrid unit (p.entryFee + 3 / 10 ^ 6) :=
          Nearest.toGrid_mono _ unit_pos hupper
      _ = p.entryFee := toGrid_near hf.grid (by norm_num)
  have hleft := hf.exact _ (hf.grid.sub hgrid) (sub_nonneg.mpr hshare₁) (sub_le_self _ hshare₀)
  obtain rfl : p.entryFee - share = rest := Except.ok.inj (hleft.symm.trans hrest)
  refine ⟨rfl, hf.of_le hc (hf.grid.sub hgrid) (sub_nonneg.mpr hshare₁) (sub_le_self _ hshare₀), ?_⟩
  rintro rfl
  rw [q_eq hshare]
  apply toGrid_near hf.grid
  rw [div_self hp.ne', mul_one, mul_one] at huε
  linarith [hf.error]

end Shares

/-! ## One call -/

namespace Record

variable (r : Record) (a : Account) (o : Terms) (s : String) (trade : ClosedTrade)

/-- The fees of the buys that opened a position of a symbol. -/
def opened : ℚ := ((r.buysOf s).map fun b => if b.further then 0 else b.fee).sum

/-- The buy fees and the sell fees that the trades of a symbol report. -/
def buyFees : ℚ := ((r.tradesOf s).map (·.buyFee)).sum

def sellFees : ℚ := ((r.tradesOf s).map (·.sellFee)).sum

def paid : ℚ := ((r.buysOf s).map (·.fee)).sum

@[simp] theorem tradesOf_buy : (r.buy a o).tradesOf s = r.tradesOf s := rfl

@[simp] theorem buysOf_sell : (r.sell o trade).buysOf s = r.buysOf s := rfl

@[simp] theorem buysOf_buy : (r.buy a o).buysOf s = r.buysOf s ++
    if o.symbol = s then [⟨o.symbol, o.fee, decide (0 < a.qty o.symbol)⟩] else [] := by
  simp [buysOf, buy, List.filter_append, List.filter_singleton]

@[simp] theorem tradesOf_sell : (r.sell o trade).tradesOf s = r.tradesOf s ++
    if trade.symbol = s then [trade] else [] := by
  simp [tradesOf, sell, List.filter_append, List.filter_singleton]

@[simp] theorem chargedTo_buy : (r.buy a o).chargedTo s =
    r.chargedTo s + if o.symbol = s then o.fee else 0 := by
  rcases eq_or_ne o.symbol s with h | h
  · simp [chargedTo, buy, h]
  · simp [chargedTo, buy, h]

@[simp] theorem chargedTo_sell : (r.sell o trade).chargedTo s =
    r.chargedTo s + if o.symbol = s then o.fee else 0 := by
  rcases eq_or_ne o.symbol s with h | h
  · simp [chargedTo, sell, h]
  · simp [chargedTo, sell, h]

end Record

/-- The part of the entry fee that is not yet allotted. -/
def feeLeft (a : Account) (s : String) : ℚ := ((a.positions s).map (·.entryFee)).getD 0

/-- The trades and the open position of a symbol hold the fees of its opening buys. -/
structure Kept (c : Context) (ε : ℚ) (s : String) (a : Account) (r : Record) : Prop where
  sound : ∀ p, a.positions s = some p → 0 < p.qty ∧ Payable c ε p.entryFee
  nonneg : ∀ b ∈ r.buysOf s, 0 ≤ b.fee
  opened : r.buyFees s + feeLeft a s = r.opened s
  charged : r.chargedTo s = r.paid s + r.sellFees s

section Calls

open Account

variable {a a' : Account} {r r' : Record} {o : Terms} {s : String} {p p' : Position}

theorem Kept.of_other (h : Kept c ε s a r) (hp : a'.positions s = a.positions s)
    (hbuys : r'.buysOf s = r.buysOf s) (htrades : r'.tradesOf s = r.tradesOf s)
    (hcharged : r'.chargedTo s = r.chargedTo s) : Kept c ε s a' r' where
  sound := by rw [hp]; exact h.sound
  nonneg := by rw [hbuys]; exact h.nonneg
  opened := by
    rw [Record.buyFees, htrades, feeLeft, hp, Record.opened, hbuys]
    exact h.opened
  charged := by
    rw [hcharged, Record.paid, hbuys, Record.sellFees, htrades]
    exact h.charged

/-- A further buy keeps the fee of the first one. -/
theorem addTo_fee {qty unitCost : ℚ} (h : addTo c p qty unitCost = .ok p') :
    p'.entryFee = p.entryFee ∧ c.finish (p.qty + qty) = .ok p'.qty := by
  unfold addTo at h
  obtain ⟨newQty, hnew, h⟩ := bind_ok_iff.mp h
  obtain ⟨x, -, h⟩ := bind_ok_iff.mp h
  obtain ⟨y, -, h⟩ := bind_ok_iff.mp h
  obtain ⟨z, -, h⟩ := bind_ok_iff.mp h
  obtain ⟨w, -, h⟩ := bind_ok_iff.mp h
  obtain ⟨avg, -, h⟩ := bind_ok_iff.mp h
  obtain rfl := Except.ok.inj h
  exact ⟨rfl, hnew⟩

theorem openOrAdd_fee (hc : c.Accurate ε) (h : Kept c ε o.symbol a r) (hf : Payable c ε o.fee)
    {unitCost : ℚ}
    (hp : openOrAdd c ⟨o.qty, unitCost, o.ts, o.price, o.fee⟩ (a.positions o.symbol) = .ok p) :
    (0 < p.qty ∧ Payable c ε p.entryFee) ∧ p.entryFee =
      feeLeft a o.symbol + if 0 < a.qty o.symbol then 0 else o.fee := by
  cases hheld : a.positions o.symbol with
  | none =>
    rw [hheld] at hp
    obtain rfl := Except.ok.inj hp
    refine ⟨⟨o.qty_pos, hf⟩, ?_⟩
    simp [feeLeft, Account.qty, hheld]
  | some r =>
    obtain ⟨hqty, hfee⟩ := h.sound r hheld
    rw [hheld] at hp
    simp only [openOrAdd, if_neg (not_le.mpr hqty)] at hp
    obtain ⟨hkeep, hnew⟩ := addTo_fee hp
    rw [hkeep]
    refine ⟨⟨Conservation.finish_pos hc hnew (add_pos hqty o.qty_pos), hfee⟩, ?_⟩
    simp [feeLeft, Account.qty, hheld, hqty]

theorem Kept.buy (hc : c.Accurate ε) (h : Kept c ε s a r) (hf : Payable c ε o.fee)
    (hstep : step c (a, r) (.buy o) = .ok (a', r')) : Kept c ε s a' r' := by
  obtain ⟨⟨a₁, applied⟩, hbuy, heq⟩ := bind_ok_iff.mp hstep
  obtain ⟨rfl, rfl⟩ := Prod.mk.inj (Except.ok.inj heq)
  rcases Conservation.applyBuy_cases hbuy with ⟨rfl, rfl⟩ |
    ⟨rfl, v, paid, x, cash, u, unitCost, p, -, -, -, -, -, -, -, hp, rfl⟩
  · exact h
  rcases eq_or_ne o.symbol s with rfl | hne
  · obtain ⟨hpos, hfee⟩ := openOrAdd_fee hc h hf hp
    have hself : ({ a with cash }.setPosition o.symbol (some p)).positions o.symbol = some p :=
      Function.update_self _ _ _
    rw [if_pos rfl]
    constructor
    · rw [hself]
      rintro _ ⟨⟩
      exact hpos
    · intro b hb
      rw [Record.buysOf_buy, if_pos rfl, List.mem_append, List.mem_singleton] at hb
      rcases hb with hb | rfl
      · exact h.nonneg b hb
      · exact hf.nonneg
    · have hopened := h.opened
      simp only [Record.buyFees, Record.opened, Record.tradesOf_buy, Record.buysOf_buy, feeLeft,
        hself, if_true, List.map_append, List.sum_append] at hopened ⊢
      rw [List.map_singleton, List.sum_singleton, ← hopened, Option.map_some, Option.getD_some,
        hfee, feeLeft, add_assoc]
      simp only [decide_eq_true_iff]
    · simp only [Record.chargedTo_buy, Record.paid, Record.sellFees, Record.tradesOf_buy,
        Record.buysOf_buy, if_true, List.map_append, List.sum_append]
      rw [h.charged, Record.paid, Record.sellFees, List.map_singleton, List.sum_singleton]
      ring
  · exact h.of_other (Conservation.frame_setPosition hne.symm) (by simp [hne]) (by simp)
      (by simp [hne])

/-- The position that a sale leaves keeps the rest of the fee; without one nothing is left. -/
theorem left_fee {share rest newQty : ℚ} (hc : c.Accurate ε) (hpay : Payable c ε p.entryFee)
    (hp : 0 < p.qty) (hle : o.qty ≤ p.qty) (hnew : c.finish (p.qty - o.qty) = .ok newQty)
    (h : Allots c p o.qty share rest)
    (hself : a.positions s = Conservation.left p newQty rest) :
    (∀ p', a.positions s = some p' → 0 < p'.qty ∧ Payable c ε p'.entryFee) ∧
      feeLeft a s = p.entryFee - share := by
  obtain ⟨rfl, hrest, hall⟩ := allots_spec hc hpay hp o.qty_pos hle h
  rw [feeLeft, hself, Conservation.left]
  split_ifs with hzero
  · -- everything is sold, so the sale took the whole fee
    have heq : o.qty = p.qty := by
      by_contra hne
      have hpos := Conservation.finish_pos hc hnew (sub_pos.mpr (lt_of_le_of_ne hle hne))
      linarith
    exact ⟨nofun, by rw [hall heq, sub_self]; rfl⟩
  · refine ⟨?_, rfl⟩
    rintro _ ⟨⟩
    exact ⟨not_le.mp hzero, hrest⟩

theorem Kept.sell {tax : ℚ} {htax : 0 ≤ tax} (hc : c.Accurate ε) (h : Kept c ε s a r)
    (hstep : step c (a, r) (.sell o tax htax) = .ok (a', r')) : Kept c ε s a' r' := by
  obtain ⟨⟨a₁, trade⟩, hsell, heq⟩ := bind_ok_iff.mp hstep
  obtain ⟨rfl, rfl⟩ := Prod.mk.inj (Except.ok.inj heq)
  rcases Conservation.applySell_cases hsell with ⟨rfl, rfl, -⟩ |
    ⟨p, v, w, proceeds, x, cash, basis, pnl, newQty, sold, rest, hp, hle, -, -, -, -, -, -, -, hnew,
      rfl, -, ⟨hsymbol, hfee⟩, hallots, rfl⟩
  · exact h
  rcases eq_or_ne o.symbol s with rfl | hne
  · obtain ⟨hqty, hpay⟩ := h.sound p hp
    have hself : ({ a with cash }.setPosition o.symbol (Conservation.left p newQty rest)).positions
        o.symbol = Conservation.left p newQty rest := Function.update_self _ _ _
    obtain ⟨hsound, hleft⟩ := left_fee hc hpay hqty hle hnew hallots hself
    constructor
    · exact hsound
    · exact h.nonneg
    · have hopened := h.opened
      rw [feeLeft, hp, Option.map_some, Option.getD_some] at hopened
      have hbuys : (r.sell o sold).opened o.symbol = r.opened o.symbol := rfl
      have hfees : (r.sell o sold).buyFees o.symbol = r.buyFees o.symbol + sold.buyFee := by
        simp [Record.buyFees, hsymbol]
      calc (r.sell o sold).buyFees o.symbol + feeLeft _ o.symbol
          = r.buyFees o.symbol + sold.buyFee + (p.entryFee - sold.buyFee) := by
            rw [hfees, ← hleft]
            rfl
        _ = (r.sell o sold).opened o.symbol := by rw [hbuys, ← hopened]; ring
    · have hsells : (r.sell o sold).sellFees o.symbol = r.sellFees o.symbol + o.fee := by
        simp [Record.sellFees, hsymbol, hfee]
      have hpaid : (r.sell o sold).paid o.symbol = r.paid o.symbol := rfl
      dsimp only
      rw [Record.chargedTo_sell, if_pos rfl, h.charged, hpaid, hsells, add_assoc]
  · exact h.of_other (Conservation.frame_setPosition hne.symm) (by simp) (by simp [hsymbol, hne])
      (by simp [hne])

end Calls

/-! ## Runs -/

variable {cash : ℚ} {calls : List Call} {a a' : Account} {r r' : Record} {s : String}

theorem Kept.step {call : Call} (hc : c.Accurate ε) (h : Kept c ε s a r)
    (hf : Payable c ε (terms call).fee) (hstep : step c (a, r) call = .ok (a', r')) :
    Kept c ε s a' r' := by
  cases call with
  | buy o => exact h.buy hc hf hstep
  | sell o tax htax => exact h.sell hc hstep

theorem kept_foldlM (hc : c.Accurate ε) (hf : ∀ call ∈ calls, Payable c ε (terms call).fee)
    (h : Kept c ε s a r) (hrun : calls.foldlM (Fees.step c) (a, r) = .ok (a', r')) :
    Kept c ε s a' r' := by
  induction calls generalizing a r with
  | nil =>
    obtain ⟨rfl, rfl⟩ := Prod.mk.inj (Except.ok.inj hrun)
    exact h
  | cons call calls ih =>
    rw [List.foldlM_cons] at hrun
    obtain ⟨⟨b, r₁⟩, hstep, hrun⟩ := bind_ok_iff.mp hrun
    have hb := h.step hc (hf call List.mem_cons_self) hstep
    exact ih (fun call h => hf call (List.mem_cons_of_mem _ h)) hb hrun

theorem kept_start (c : Context) (ε cash : ℚ) (s : String) :
    Kept c ε s (start cash) ⟨[], [], []⟩ where
  sound p hp := by cases hp
  nonneg b hb := by cases hb
  opened := add_zero _
  charged := (add_zero _).symm

theorem totalFees_eq (r : Record) (s : String) :
    totalFees (r.tradesOf s) = r.buyFees s + r.sellFees s := by
  simp [totalFees, Record.buyFees, Record.sellFees, List.sum_map_add]

/-- Without the further buys the fees are no more, and the same only if those paid none. -/
theorem sum_opened {bs : List Buy} (h : ∀ b ∈ bs, 0 ≤ b.fee) :
    (bs.map fun b => if b.further then 0 else b.fee).sum ≤ (bs.map (·.fee)).sum ∧
      ((bs.map fun b => if b.further then 0 else b.fee).sum = (bs.map (·.fee)).sum ↔
        ∀ b ∈ bs, b.further = true → b.fee = 0) := by
  induction bs with
  | nil => simp
  | cons b bs ih =>
    obtain ⟨hle, hiff⟩ := ih fun b hb => h b (List.mem_cons_of_mem _ hb)
    have hb := h b List.mem_cons_self
    simp only [List.map_cons, List.sum_cons, List.forall_mem_cons]
    rw [← hiff]
    cases b.further with
    | false =>
      refine ⟨by simpa using hle, by simp⟩
    | true =>
      simp only [if_true, zero_add, true_imp_iff]
      refine ⟨by linarith, ?_⟩
      constructor
      · intro heq
        constructor <;> linarith
      · rintro ⟨hzero, heq⟩
        rw [hzero, heq, zero_add]

theorem attributed_iff_of_payable (hc : c.Accurate ε)
    (hf : ∀ call ∈ calls, Payable c ε (terms call).fee) (hrun : run c cash calls = .ok (a, r))
    (hflat : a.positions s = none) : Attributed s r ↔ OneFee s r := by
  have h := kept_foldlM hc hf (kept_start c ε cash s) hrun
  have hopened := h.opened
  rw [feeLeft, hflat, Option.map_none, Option.getD_none, add_zero] at hopened
  have hsum : r.opened s = r.paid s ↔ OneFee s r := (sum_opened h.nonneg).2
  rw [← hsum, ← hopened]
  constructor
  · exact fun hattr => hattr.buyFees
  · intro heq
    refine ⟨heq, ?_⟩
    rw [totalFees_eq, h.charged, heq]

/-- With fees of the fill model, up to 10^21, a symbol that ends flat has the fees of all its buys
on its trades exactly when no further buy paid one. -/
theorem attributed_iff {m : FillModel} (hcharged : ∀ call ∈ calls, Charged .default m call)
    (hfee : ∀ call ∈ calls, (terms call).fee ≤ 10 ^ 21) (hrun : run .default cash calls = .ok (a, r))
    (hflat : a.positions s = none) : Attributed s r ↔ OneFee s r := by
  refine attributed_iff_of_payable Context.accurate_default ?_ hrun hflat
  intro call hcall
  exact payable_default (hcharged call hcall).onGrid (terms call).fee_nonneg (hfee call hcall)

theorem demoPrice_pos : (0 : ℚ) < 1000 := by norm_num

theorem demoFee_nonneg (n : ℕ) : (0 : ℚ) ≤ 5 * (n + 1) := by positivity

def demoModel : FillModel := ⟨1 / 200, 0⟩

/-- Terms for `n + 1` coins at a price of 1000. -/
def coins (symbol : String) (n : ℕ) : Terms :=
  ⟨symbol, 1000, n + 1, 5 * (n + 1), 0, demoPrice_pos, n.cast_add_one_pos, demoFee_nonneg n⟩

instance (m : FillModel) (call : Call) : Decidable (Charged c m call) :=
  inferInstanceAs (Decidable (_ = _))

/-- One coin is bought, and one more before both are sold. -/
def pyramid : List Call :=
  [.buy (coins "KRW-BTC" 0), .buy (coins "KRW-BTC" 0),
    .sell (coins "KRW-BTC" 1) 0 Conservation.noFee_nonneg]

/-- The fee of the second buy is on no trade. -/
theorem pyramid_unattributed : (∀ call ∈ pyramid, Charged .default demoModel call) ∧
    ∃ a r, run .default 100000 pyramid = .ok (a, r) ∧ a.positions "KRW-BTC" = none ∧
      a.cash = 100000 - 20 ∧ r.paid "KRW-BTC" = 10 ∧ r.buyFees "KRW-BTC" = 5 ∧
      ¬ Attributed "KRW-BTC" r := by
  refine ⟨by decide +kernel, ?_⟩
  have hview : (fun x => (x.1.positions "KRW-BTC", x.1.cash, x.2.paid "KRW-BTC",
      x.2.buyFees "KRW-BTC")) <$> run .default 100000 pyramid =
        .ok (none, 100000 - 20, 10, 5) := by decide +kernel
  obtain ⟨⟨a, r⟩, hrun, hview⟩ := map_ok_iff.mp hview
  simp only [Prod.mk.injEq] at hview
  obtain ⟨hflat, hcash, hpaid, hfees⟩ := hview
  refine ⟨a, r, hrun, hflat, hcash, hpaid, hfees, ?_⟩
  intro hattr
  have heq : r.buyFees "KRW-BTC" = r.paid "KRW-BTC" := hattr.buyFees
  rw [hfees, hpaid] at heq
  revert heq
  norm_num

/-- Three coins are sold in two parts, while another symbol is pyramided, and one is bought anew. -/
def partialSales : List Call :=
  [.buy (coins "KRW-BTC" 2), .buy (coins "KRW-ETH" 0),
    .sell (coins "KRW-BTC" 0) 0 Conservation.noFee_nonneg, .buy (coins "KRW-ETH" 0),
    .sell (coins "KRW-BTC" 1) 0 Conservation.noFee_nonneg, .buy (coins "KRW-BTC" 0),
    .sell (coins "KRW-BTC" 0) 0 Conservation.noFee_nonneg]

theorem attributed_iff_partialSales : ∃ a r, run .default 100000 partialSales = .ok (a, r) ∧
    (r.tradesOf "KRW-BTC").map (·.buyFee) = [5, 10, 5] ∧ Attributed "KRW-BTC" r := by
  have hview : (fun x => ((x.1.positions "KRW-BTC").isNone, (x.2.tradesOf "KRW-BTC").map (·.buyFee),
      (x.2.buysOf "KRW-BTC").map (·.further))) <$> run .default 100000 partialSales =
        .ok (true, [5, 10, 5], [false, false]) := by decide +kernel
  obtain ⟨⟨a, r⟩, hrun, hview⟩ := map_ok_iff.mp hview
  simp only [Prod.mk.injEq] at hview
  obtain ⟨hflat, htrades, hbuys⟩ := hview
  have hone : OneFee "KRW-BTC" r := by
    intro b hb hfurther
    have hmem : b.further ∈ (r.buysOf "KRW-BTC").map (·.further) := List.mem_map_of_mem hb
    rw [hbuys, hfurther] at hmem
    simp at hmem
  have hcharged : ∀ call ∈ partialSales, Charged .default demoModel call := by decide +kernel
  exact ⟨a, r, hrun, htrades, (attributed_iff hcharged (by decide +kernel) hrun
    (Option.isNone_iff_eq_none.mp hflat)).mpr hone⟩

end QuantTrader.Backtest.Fees
