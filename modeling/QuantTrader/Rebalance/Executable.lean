import QuantTrader.Rebalance.Settlement

/-! # Planned orders against the ledger

The plan keeps exact fees where the ledger rounds them, so its cash drifts from
the balance by a sliver with every order. A sale of a plan never exceeds the
holding, and a buy exceeds the balance by that drift at most.
-/

namespace QuantTrader.Rebalance

open Ledger Postgres Transition

section Sizing

variable {c : Context} {ε budget q price v fee cost : ℚ}

/-- The steps of an affordable quantity: the budget less a fee unit, by the price with its fee. -/
theorem affordableQty_steps (hc : c.Accurate ε) (hp : 0 < price) (hb : minOrderKrw ≤ budget)
    (h : affordableQty c budget price = .ok q) :
    ∃ net unit z, 0 ≤ budget - feeQuant ∧ 0 < price * (1 + feeRate) ∧
      c.finish (budget - feeQuant) = .ok net ∧ c.finish (price * (1 + feeRate)) = .ok unit ∧
      0 < unit ∧ 0 ≤ net / unit ∧ c.quot net unit = .ok z ∧ c.quantizeDown 8 z = .ok q := by
  have hb' : (5000 : ℚ) ≤ budget := hb
  have hnet0 : 0 ≤ budget - feeQuant := by
    norm_num [feeQuant]
    linarith
  have hunit0 : 0 < price * (1 + feeRate) := mul_pos hp (by norm_num [feeRate])
  rw [affordableQty, if_neg (not_or.mpr ⟨by linarith, by linarith⟩)] at h
  simp only [bind_ok_iff] at h
  obtain ⟨net, hnet, unit, hunit, z, hz, hqz⟩ := h
  have hpos : 0 < unit :=
    lt_of_lt_of_le (mul_pos hunit0 (by norm_num)) (hc.le_finish hunit hunit0.le)
  rw [Context.divFin, if_neg hpos.ne'] at hz
  exact ⟨net, unit, z, hnet0, hunit0, hnet, hunit, hpos,
    div_nonneg (hc.nonneg_of_finish hnet hnet0) hpos.le, hz, hqz⟩

/-- An affordable quantity costs, with its fee, the budget less a fee unit. -/
theorem affordableQty_le (hc : c.Accurate ε) (hp : 0 < price) (hb : minOrderKrw ≤ budget)
    (hq : 0 ≤ q) (h : affordableQty c budget price = .ok q) :
    q * price * (1 + feeRate) ≤ (budget - feeQuant) * (1 + 4 / 10 ^ 24) := by
  obtain ⟨net, unit, z, hnet0, hunit0, hnet, hunit, hpos, hquot, hz, hqz⟩ :=
    affordableQty_steps hc hp hb h
  have hnet₁ := hc.finish_le hnet hnet0
  have hunit₁ := hc.le_finish hunit hunit0.le
  have hz₁ := (Context.quantizeDown_le hqz (hc.quot_nonneg hz hquot)).trans (hc.quot_le hz hquot)
  have hle : q * price * (1 + feeRate) * (1 - 1 / 10 ^ 24) ≤
      (budget - feeQuant) * (1 + 1 / 10 ^ 24) * (1 + 1 / 10 ^ 24) := by
    calc q * price * (1 + feeRate) * (1 - 1 / 10 ^ 24)
        = q * (price * (1 + feeRate) * (1 - 1 / 10 ^ 24)) := by ring
      _ ≤ q * unit := mul_le_mul_of_nonneg_left hunit₁ hq
      _ ≤ net / unit * (1 + 1 / 10 ^ 24) * unit := mul_le_mul_of_nonneg_right hz₁ hpos.le
      _ = net * (1 + 1 / 10 ^ 24) := by field_simp
      _ ≤ _ := mul_le_mul_of_nonneg_right hnet₁ (by norm_num)
  linarith

/-- The fee of an amount, up to its rounding. -/
structure IsFee (v fee : ℚ) : Prop where
  nonneg : 0 ≤ fee
  le : fee ≤ v * feeRate * (1 + 1 / 10 ^ 24) + 5 / 10 ^ 5
  ge : v * feeRate * (1 - 1 / 10 ^ 24) - 5 / 10 ^ 5 ≤ fee

theorem orderFee_ok (hc : c.Accurate ε) (hp : 0 ≤ price * q) (h : orderFee c price q = .ok fee) :
    ∃ v, c.finish (price * q) = .ok v ∧ 0 ≤ v ∧ IsFee v fee := by
  simp only [orderFee, bind_ok_iff] at h
  obtain ⟨v, hv, r, hr, hf⟩ := h
  have hv0 := hc.nonneg_of_finish hv hp
  have hr0 : 0 ≤ v * feeRate := mul_nonneg hv0 (by norm_num [feeRate])
  have hr₁ := hc.finish_le hr hr0
  have hr₂ := hc.le_finish hr hr0
  have he := abs_le.mp (Context.quantizeFin_error hf)
  norm_num at he
  refine ⟨v, hv, hv0, Context.quantizeFin_nonneg hf (hc.nonneg_of_finish hr hr0), ?_, ?_⟩
  · linarith
  · linarith

theorem cost_le_budget (hc : c.Accurate ε) (hp : 0 < price) (hb : minOrderKrw ≤ budget)
    (hq : 0 ≤ q) (h : affordableQty c budget price = .ok q) (hv : c.finish (price * q) = .ok v)
    (hf : IsFee v fee) (hx : c.finish (v + fee) = .ok cost) :
    cost ≤ budget * (1 + 10 / 10 ^ 24) - 4 / 10 ^ 5 := by
  have hb' : (5000 : ℚ) ≤ budget := hb
  have hle := affordableQty_le hc hp hb hq h
  have hvq := mul_nonneg hp.le hq
  have hv₁ := hc.finish_le hv hvq
  have hv0 := hc.nonneg_of_finish hv hvq
  have hx₁ := hc.finish_le hx (add_nonneg hv0 hf.nonneg)
  have hf₁ := hf.le
  rw [mul_comm q price] at hle
  simp only [feeRate, feeQuant] at hle hf₁
  linarith

end Sizing

/-! ## The drift of the plan -/

/-- What `k` roundings of at most `step` each amount to, with the rounding of the sums. -/
def drift (step : ℚ) (k : ℕ) : ℚ := k * step * (1 + 1 / 10 ^ 24) ^ k

@[simp] theorem drift_zero (step : ℚ) : drift step 0 = 0 := by simp [drift]

theorem drift_nonneg {step : ℚ} (h : 0 ≤ step) (k : ℕ) : 0 ≤ drift step k := by
  unfold drift
  positivity

theorem drift_succ_ge {step : ℚ} (h : 0 ≤ step) (k : ℕ) :
    drift step k * (1 + 1 / 10 ^ 24) + step ≤ drift step (k + 1) := by
  have hone : (1 : ℚ) ≤ (1 + 1 / 10 ^ 24) ^ (k + 1) := one_le_pow₀ (by norm_num)
  calc drift step k * (1 + 1 / 10 ^ 24) + step
      = k * step * (1 + 1 / 10 ^ 24) ^ (k + 1) + step * 1 := by unfold drift; ring
    _ ≤ k * step * (1 + 1 / 10 ^ 24) ^ (k + 1) + step * (1 + 1 / 10 ^ 24) ^ (k + 1) := by
        linarith [mul_le_mul_of_nonneg_left hone h]
    _ = drift step (k + 1) := by
        unfold drift
        push_cast
        ring

theorem drift_mono {step : ℚ} (h : 0 ≤ step) {k k' : ℕ} (hk : k ≤ k') :
    drift step k ≤ drift step k' := by
  refine monotone_nat_of_le_succ (fun n => ?_) hk
  have hsucc := drift_succ_ge h n
  have hn := drift_nonneg h n
  linarith

/-- A larger step covers the relative error of one sizing. -/
theorem drift_mul_le (k : ℕ) :
    drift (21 / 200000) k * (1 + 10 / 10 ^ 24) ≤ drift (11 / 100000) k := by
  have hpow : (0 : ℚ) ≤ k * (1 + 1 / 10 ^ 24) ^ k := by positivity
  unfold drift
  linarith

section Steps

variable {c : Context} {ε L B P P' v fee w cost proceeds : ℚ}

theorem drift_buy (hc : c.Accurate ε) (hL : L < 10 ^ 16) (hB : 0 ≤ B) (hP : P ≤ L + B)
    (hv : 0 ≤ v) (hf : IsFee v fee) (hw : c.finish (v * (1 + feeRate)) = .ok w)
    (hx : c.finish (v + fee) = .ok cost) (hle : cost ≤ L) (hP' : c.finish (P - w) = .ok P') :
    P' ≤ roundTo 4 (L - cost) + 21 / 200000 + B * (1 + 1 / 10 ^ 24) := by
  have hbal := roundTo_nonneg 4 (sub_nonneg.mpr hle)
  have hround := abs_le.mp (roundTo_error 4 (L - cost))
  norm_num [unit] at hround
  have hw₁ := hc.le_finish hw (mul_nonneg hv (by norm_num [feeRate]))
  have hx₁ := hc.finish_le hx (add_nonneg hv hf.nonneg)
  have hx₂ := hc.le_finish hx (add_nonneg hv hf.nonneg)
  have hf0 := hf.nonneg
  have hf₁ := hf.le
  simp only [feeRate] at hw₁ hf₁
  rcases le_total 0 (P - w) with h0 | h0
  · have hP₁ := hc.finish_le hP' h0
    linarith
  · have hP₁ := hc.finish_nonpos hP' h0
    linarith

theorem drift_refused (hc : c.Accurate ε) (hL0 : 0 ≤ L) (hL : L < 10 ^ 16) (hB : 0 ≤ B)
    (hP : P ≤ L + B) (hw : 0 ≤ w) (hP' : c.finish (P - w) = .ok P') :
    P' ≤ L + 21 / 200000 + B * (1 + 1 / 10 ^ 24) := by
  rcases le_total 0 (P - w) with h0 | h0
  · have hP₁ := hc.finish_le hP' h0
    linarith
  · have hP₁ := hc.finish_nonpos hP' h0
    linarith

theorem drift_sell (hc : c.Accurate ε) (hL0 : 0 ≤ L) (hB : 0 ≤ B) (hP : P ≤ L + B)
    (hv : 0 ≤ v) (hf : IsFee v fee) (hw : c.finish (v * (1 + -feeRate)) = .ok w)
    (hx : c.finish (v - fee) = .ok proceeds) (hle : roundTo 4 (L + proceeds) < 10 ^ 16)
    (hbal : 0 ≤ roundTo 4 (L + proceeds)) (hP' : c.finish (P + w) = .ok P') :
    P' ≤ roundTo 4 (L + proceeds) + 21 / 200000 + B * (1 + 1 / 10 ^ 24) := by
  have hround := abs_le.mp (roundTo_error 4 (L + proceeds))
  norm_num [unit] at hround
  have hw₁ := hc.finish_le hw (mul_nonneg hv (by norm_num [feeRate]))
  have hx₁ := abs_le.mp (hc.error_le hx)
  have hf0 := hf.nonneg
  have hf₁ := hf.le
  simp only [feeRate] at hw₁ hf₁
  have hx₂ : (v - fee) - (v + 1) / 10 ^ 24 ≤ proceeds := by
    have habs : |v - fee| ≤ v + 1 := by
      rw [abs_le]
      constructor <;> linarith
    linarith
  rcases le_total 0 (P + w) with h0 | h0
  · have hP₁ := hc.finish_le hP' h0
    linarith
  · have hP₁ := hc.finish_nonpos hP' h0
    linarith

end Steps

/-! ## Runs -/

/-- The orders of an account among some decisions. -/
def ordersOf {B S : Type} (acct : String) (ds : List (Decision B S)) : ℕ :=
  ds.countP fun d => d.accountId == acct && d.action != .hold

/-- `price * qty + fee`, the cost an order is charged. -/
def orderCost (c : Context) (price qty : ℚ) : Except Signal ℚ := do
  let v ← c.finish (price * qty)
  c.finish (v + (← orderFee c price qty))

/-- The balance does not cover a decision's order, and falls short of it by at most `gap`. -/
def ShortBy {B S : Type} (c : Context) (db : Db) (d : Decision B S) (gap : ℚ) : Prop :=
  ∃ qty price cost x, d.quantity = some qty ∧ d.price = some price ∧
    orderCost c price qty = .ok cost ∧ Holds db d.accountId x ∧ x < cost ∧ cost ≤ x + gap

/-- The tables keep up with a plan: the cash is the balance up to the drift of `k` orders, and
the symbols still to come have the quantities of the plan. -/
structure Tracks (acct : String) (db : Db) (p : Plan) (syms : List String) (k : ℕ) : Prop where
  cash : ∃ x, Holds db acct x ∧ p.cash ≤ x + drift (21 / 200000) k
  held : ∀ s ∈ syms, 0 < quantityOf p.pos s → ∃ row, db.positions acct s = some row ∧
    row.quantity.val.val = .fin (quantityOf p.pos s)

section Runs

variable {c : Context} {uuid4 : ℕ → String} {B S : Type} {band ε : ℚ} {acct sym : String}
  {prices : String → Option ℚ} {p p' : Plan} {a : Analysis B S} {d : Decision B S}
  {s s' : Session} {syms : List String} {k : ℕ} {out : Option Outcome} {o : Outcome}
  {side : Side} {q px x fee : ℚ} {db db' : Db} {held : Option Position}

theorem drift_step_nonneg (k : ℕ) : 0 ≤ drift (21 / 200000) k := drift_nonneg (by norm_num) k

/-- The next drift covers this one with the rounding of a sum, and one more step. -/
theorem le_drift_succ {y z : ℚ}
    (h : y ≤ z + 21 / 200000 + drift (21 / 200000) k * (1 + 1 / 10 ^ 24)) :
    y ≤ z + drift (21 / 200000) (k + 1) := by
  have h0 : (0 : ℚ) ≤ 21 / 200000 := by norm_num
  have := drift_succ_ge h0 k
  linarith

/-- A buy keeps the plan's cash within the drift, and is refused by a sliver only. -/
theorem buy_step (hc : c.Accurate ε) (hx : Holds db acct x)
    (hcash : p.cash ≤ x + drift (21 / 200000) k) (hpx : 0 < px) (hq : 0 < q)
    (hsized : Sized c (quantityOf p.pos sym) px p.cash .buy q)
    (hp : p.after c sym (quantityOf p.pos sym) px (some (.buy, q)) = .ok p')
    (hfee : orderFee c px q = .ok fee)
    (hset : Settled c held acct .buy q px fee x db' o) :
    (∃ y, Holds db' acct y ∧ p'.cash ≤ y + drift (21 / 200000) (k + 1)) ∧
      (o = .rejected → ∃ cost, orderCost c px q = .ok cost ∧ x < cost ∧
        cost ≤ x + drift (11 / 100000) k) := by
  have hB := drift_step_nonneg k
  obtain ⟨v, hv, hv0, hf⟩ := orderFee_ok hc (mul_pos hpx hq).le hfee
  obtain ⟨v', w, hv', hw, hcash'⟩ := after_buy hp
  obtain rfl : v = v' := Except.ok.inj (hv.symm.trans hv')
  cases hset with
  | bought _ hv₁ hcost hle hy =>
    obtain rfl := Except.ok.inj (hv.symm.trans hv₁)
    have hdrift := drift_buy hc hx.lt hB hcash hv0 hf hw hcost hle hcash'
    exact ⟨⟨_, hy, le_drift_succ hdrift⟩, nofun⟩
  | short _ hv₁ hcost hlt hy =>
    obtain rfl := Except.ok.inj (hv.symm.trans hv₁)
    have hw0 : 0 ≤ w := hc.nonneg_of_finish hw (mul_nonneg hv0 (by norm_num [feeRate]))
    have hdrift := drift_refused hc hx.nonneg hx.lt hB hcash hw0 hcash'
    refine ⟨⟨x, hy, le_drift_succ hdrift⟩, fun _ => ⟨_, ?_, hlt, ?_⟩⟩
    · simp only [orderCost, bind_ok_iff]
      exact ⟨v, hv, fee, hfee, hcost⟩
    · cases hsized with
      | buy hmin hbudget hafford =>
        have hle := cost_le_budget hc hpx hmin hq.le hafford hv hf hcost
        have hgap := drift_mul_le k
        have hlt₁ := hx.lt
        linarith
  | sold hs => cases hs
  | lacking hs => cases hs

theorem sell_step (hc : c.Accurate ε) (hx : Holds db acct x)
    (hcash : p.cash ≤ x + drift (21 / 200000) k) (hpx : 0 < px) (hq : 0 < q)
    (hsized : Sized c (quantityOf p.pos sym) px p.cash .sell q)
    (hp : p.after c sym (quantityOf p.pos sym) px (some (.sell, q)) = .ok p')
    (hheld : ∃ row, held = some row ∧ row.quantity.val.val = .fin (quantityOf p.pos sym))
    (hfee : orderFee c px q = .ok fee)
    (hset : Settled c held acct .sell q px fee x db' o) :
    (∃ y, Holds db' acct y ∧ p'.cash ≤ y + drift (21 / 200000) (k + 1)) ∧ o ≠ .rejected := by
  obtain ⟨v, hv, hv0, hf⟩ := orderFee_ok hc (mul_pos hpx hq).le hfee
  obtain ⟨v', w, hv', hw, hcash'⟩ := after_sell hp
  obtain rfl : v = v' := Except.ok.inj (hv.symm.trans hv')
  cases hset with
  | sold _ hv₁ hpr hy =>
    obtain rfl := Except.ok.inj (hv.symm.trans hv₁)
    have hdrift := drift_sell hc hx.nonneg (drift_step_nonneg k) hcash hv0 hf hw hpr hy.lt hy.nonneg
      hcash'
    exact ⟨⟨_, hy, le_drift_succ hdrift⟩, nofun⟩
  | lacking _ hl =>
    cases hsized with
    | sell hle =>
      obtain ⟨row, hrow, hqty⟩ := hheld
      exact absurd (hl row _ hrow hqty) (not_lt.mpr hle)
  | bought hs => cases hs
  | short hs => cases hs

theorem SameBut.others (h : SameBut acct sym db db') : OthersKept acct db db' where
  accounts := h.accounts
  positions a ha := by
    ext1 t
    exact h.positions a t (Or.inl ha)

theorem ordersOf_cons {ds : List (Decision B S)} :
    ordersOf acct (d :: ds) = ordersOf acct [d] + ordersOf acct ds := by
  unfold ordersOf
  rw [List.countP_cons, List.countP_singleton, add_comm]

theorem ordersOf_trade (hacct : d.accountId = acct) (hs : d.action.side? = some side) :
    ordersOf acct [d] = 1 := by
  have hne : d.action ≠ .hold := by
    intro hh
    rw [hh] at hs
    cases hs
  simp [ordersOf, hacct, hne]

/-- One decision: it goes through as planned, or its buy is refused by a sliver. -/
theorem decision_step (hinj : Function.Injective uuid4) (hc : c.Accurate ε) (hs : s.Fresh uuid4)
    (ht : Tracks acct s.db p (sym :: syms) k) (hsym : sym ∉ syms)
    (hplan : planSymbol c band acct prices p sym a = .ok (d, p'))
    (hexec : executeDecision c uuid4 s d = .ok (s', out)) :
    s'.Fresh uuid4 ∧ OthersKept acct s.db s'.db ∧
      Tracks acct s'.db p' syms (k + ordersOf acct [d]) ∧
      (out = some .rejected → d.action = .buy ∧ ShortBy c s.db d (drift (11 / 100000) k)) := by
  obtain ⟨hacct, hdsym, hplanned⟩ := planSymbol_ok hplan
  cases hplanned with
  | hold hact hp =>
    rw [executeDecision_hold hact] at hexec
    cases hexec
    rw [hp, show ordersOf acct [d] = 0 by simp [ordersOf, hact]]
    exact ⟨hs, ⟨fun _ _ => rfl, fun _ _ => rfl⟩,
      ⟨ht.cash, fun t hm => ht.held t (List.mem_cons_of_mem _ hm)⟩, nofun⟩
  | @trade side q px hside hqty hprice hpx hq hsized hp =>
    obtain ⟨o, hexe, rfl⟩ := (executeDecision_trade hside hqty hprice).mp hexec
    rw [hacct, hdsym] at hexe
    obtain ⟨x, hx, hcash⟩ := ht.cash
    obtain ⟨hfresh, hsame, fee, hfee, hset⟩ := execute_settled hinj hs hx hexe
    rw [ordersOf_trade hacct hside]
    -- the quantities still to come are those of other symbols
    have hheld : ∀ t ∈ syms, 0 < quantityOf p'.pos t → ∃ row, s'.db.positions acct t = some row ∧
        row.quantity.val.val = .fin (quantityOf p'.pos t) := by
      intro t hm
      have hne : t ≠ sym := fun heq => hsym (heq ▸ hm)
      rw [quantityOf_after hp hne, hsame.positions acct t (Or.inr hne)]
      exact ht.held t (List.mem_cons_of_mem _ hm)
    cases side with
    | buy =>
      obtain ⟨hcash', hrej⟩ := buy_step hc hx hcash hpx hq hsized hp hfee hset
      refine ⟨hfresh, hsame.others, ⟨hcash', hheld⟩, ?_⟩
      intro ho
      obtain ⟨cost, hcost, hlt, hle⟩ := hrej (Option.some.inj ho)
      refine ⟨?_, q, px, cost, x, hqty, hprice, hcost, hacct ▸ hx, hlt, hle⟩
      cases hact : d.action with
      | buy => rfl
      | sell => simp [hact, Action.side?] at hside
      | hold => simp [hact, Action.side?] at hside
    | sell =>
      have hpos : 0 < quantityOf p.pos sym := by
        cases hsized with
        | sell hle => exact hq.trans_le hle
      obtain ⟨hcash', hrej⟩ := sell_step hc hx hcash hpx hq hsized hp
        (ht.held sym List.mem_cons_self hpos) hfee hset
      exact ⟨hfresh, hsame.others, ⟨hcash', hheld⟩, fun ho => absurd (Option.some.inj ho) hrej⟩

/-- What a list of decisions does: a rejection is of a buy, by a sliver that grows with the orders
of its account so far, `k` of them before the list. -/
def RejectsBySliver (c : Context) (uuid4 : ℕ → String) (s : Session) (ds : List (Decision B S))
    (k : ℕ) : Prop :=
  ∀ pre d post s₁ s₂, ds = pre ++ d :: post → executeAll c uuid4 s pre = .ok s₁ →
    executeDecision c uuid4 s₁ d = .ok (s₂, some .rejected) →
    d.action = .buy ∧ ShortBy c s₁.db d (drift (11 / 100000) (k + ordersOf d.accountId pre))

theorem account_run (hinj : Function.Injective uuid4) (hc : c.Accurate ε) {ds : List (Decision B S)}
    {items : List (String × Analysis B S)} (hs : s.Fresh uuid4)
    (ht : Tracks acct s.db p (items.map Prod.fst) k) (hnodup : (items.map Prod.fst).Nodup)
    (hplan : planAccount c band acct prices p items = .ok ds) :
    RejectsBySliver c uuid4 s ds k ∧
      ∀ s', executeAll c uuid4 s ds = .ok s' → s'.Fresh uuid4 ∧ OthersKept acct s.db s'.db := by
  induction items generalizing s p k ds with
  | nil =>
    obtain rfl := Except.ok.inj hplan
    constructor
    · intro pre d post s₁ s₂ h
      simp at h
    · intro s' h
      obtain rfl := Except.ok.inj h
      exact ⟨hs, fun _ _ => rfl, fun _ _ => rfl⟩
  | cons item items ih =>
    obtain ⟨sym, a⟩ := item
    simp only [planAccount, bind_ok_iff] at hplan
    obtain ⟨⟨d, p'⟩, hd, ds', hds, h⟩ := hplan
    obtain rfl := Except.ok.inj h
    obtain ⟨hsym, hnodup'⟩ := List.nodup_cons.mp hnodup
    have hacct := (planSymbol_ok hd).1
    constructor
    · intro pre e post s₁ s₂ hsplit hpre hrej
      cases pre with
      | nil =>
        obtain ⟨rfl, rfl⟩ := List.cons.inj hsplit
        obtain rfl := Except.ok.inj hpre
        obtain ⟨-, -, -, hshort⟩ := decision_step hinj hc hs ht hsym hd hrej
        exact hshort rfl
      | cons d₀ pre =>
        obtain ⟨rfl, hsplit'⟩ := List.cons.inj hsplit
        obtain ⟨s₃, out, hexec, hrest⟩ := executeAll_cons.mp hpre
        obtain ⟨hs₃, -, ht₃, -⟩ := decision_step hinj hc hs ht hsym hd hexec
        obtain ⟨hrejects, -⟩ := ih hs₃ ht₃ hnodup' hds
        have he : e.accountId = acct := planAccount_account hds e (by simp [hsplit'])
        have hshort := hrejects pre e post s₁ s₂ hsplit' hrest hrej
        rw [he] at hshort ⊢
        rwa [ordersOf_cons, ← add_assoc]
    · intro s' h
      obtain ⟨s₁, out, hexec, hrest⟩ := executeAll_cons.mp h
      obtain ⟨hs₁, ho₁, ht₁, -⟩ := decision_step hinj hc hs ht hsym hd hexec
      obtain ⟨-, hrun⟩ := ih hs₁ ht₁ hnodup' hds
      obtain ⟨hs', ho'⟩ := hrun s' hrest
      exact ⟨hs', fun a ha => (ho'.accounts a ha).trans (ho₁.accounts a ha),
        fun a ha => (ho'.positions a ha).trans (ho₁.positions a ha)⟩

theorem ShortBy.mono {db : Db} {gap gap' : ℚ} (h : ShortBy c db d gap) (hle : gap ≤ gap') :
    ShortBy c db d gap' := by
  obtain ⟨q, px, cost, x, hq, hpx, hcost, hx, hlt, hgap⟩ := h
  exact ⟨q, px, cost, x, hq, hpx, hcost, hx, hlt, hgap.trans (by linarith)⟩

/-- A snapshot is what the ledger holds: the balance, and the positive quantities. -/
structure Snapshot.Of (snap : Snapshot) (db : Db) (acct : String) : Prop where
  cash : Holds db acct snap.cash
  positions : ∀ sym q, snap.positions.lookup sym = some q ↔
    0 < q ∧ ∃ row, db.positions acct sym = some row ∧ row.quantity.val.val = .fin q

theorem Snapshot.Of.tracks {snap : Snapshot} {db : Db} (h : snap.Of db acct) (syms : List String) :
    Tracks acct db ⟨snap.cash, snap.positions⟩ syms 0 where
  cash := ⟨snap.cash, h.cash, by simp⟩
  held s _ hpos := by
    unfold quantityOf at hpos ⊢
    cases hl : snap.positions.lookup s with
    | none =>
      rw [hl] at hpos
      exact absurd hpos (lt_irrefl 0)
    | some q => exact ((h.positions s q).mp hl).2

theorem Snapshot.Of.of_others {snap : Snapshot} {db db' : Db} {acct' : String}
    (h : snap.Of db acct) (ho : OthersKept acct' db db') (hne : acct ≠ acct') :
    snap.Of db' acct := by
  constructor
  · obtain ⟨bal, ha, hx⟩ := h.cash
    exact ⟨bal, (ho.accounts acct hne).trans ha, hx⟩
  · intro sym q
    rw [ho.positions acct hne]
    exact h.positions sym q

theorem split_append {α : Type*} {l l' pre post : List α} {e : α} (h : l ++ l' = pre ++ e :: post) :
    (∃ mid, l = pre ++ e :: mid) ∨ ∃ mid, pre = l ++ mid ∧ l' = mid ++ e :: post := by
  rcases List.append_eq_append_iff.mp h with ⟨mid, hpre, hl'⟩ | ⟨mid, hl, hpost⟩
  · exact Or.inr ⟨mid, hpre, hl'⟩
  · cases mid with
    | nil => exact Or.inr ⟨[], by simpa using hl.symm, by simpa using hpost.symm⟩
    | cons e' mid =>
      obtain ⟨rfl, -⟩ := List.cons.inj hpost
      exact Or.inl ⟨mid, hl⟩

theorem RejectsBySliver.append {ds ds' : List (Decision B S)} (h : RejectsBySliver c uuid4 s ds k)
    (h' : ∀ s₁, executeAll c uuid4 s ds = .ok s₁ → RejectsBySliver c uuid4 s₁ ds' k) :
    RejectsBySliver c uuid4 s (ds ++ ds') k := by
  intro pre d post s₁ s₂ hsplit hpre hrej
  rcases split_append hsplit with ⟨mid, hds⟩ | ⟨mid, rfl, hds'⟩
  · exact h pre d mid s₁ s₂ hds hpre hrej
  · obtain ⟨s₃, hfirst, hrest⟩ := executeAll_append.mp hpre
    obtain ⟨hbuy, hshort⟩ := h' s₃ hfirst mid d post s₁ s₂ hds' hrest hrej
    refine ⟨hbuy, hshort.mono (drift_mono (by norm_num) ?_)⟩
    simp only [ordersOf, List.countP_append]
    omega

theorem decisions_run (hinj : Function.Injective uuid4) (hc : c.Accurate ε) {ds : List (Decision B S)}
    {analysis : List (String × Analysis B S)} {snapshots : List (String × Snapshot)}
    (hs : s.Fresh uuid4) (hsyms : (analysis.map Prod.fst).Nodup)
    (haccts : (snapshots.map Prod.fst).Nodup) (hof : ∀ e ∈ snapshots, e.2.Of s.db e.1)
    (hplan : planDecisions c band analysis snapshots = .ok ds) : RejectsBySliver c uuid4 s ds 0 := by
  induction snapshots generalizing s ds with
  | nil =>
    obtain rfl := Except.ok.inj hplan
    intro pre d post s₁ s₂ h
    simp at h
  | cons entry snapshots ih =>
    obtain ⟨acct, snap⟩ := entry
    simp only [planDecisions, bind_ok_iff] at hplan
    obtain ⟨ds₁, h₁, ds₂, h₂, h⟩ := hplan
    obtain rfl := Except.ok.inj h
    obtain ⟨hacct, haccts'⟩ := List.nodup_cons.mp haccts
    have ht := (hof _ List.mem_cons_self).tracks (analysis.map Prod.fst)
    obtain ⟨hrejects, hrun⟩ := account_run hinj hc hs ht hsyms h₁
    refine hrejects.append fun s₁ hfirst => ?_
    obtain ⟨hs₁, ho⟩ := hrun s₁ hfirst
    apply ih hs₁ haccts' _ h₂
    intro e he
    have hne : e.1 ≠ acct := by
      rintro rfl
      exact hacct (List.mem_map.mpr ⟨e, he, rfl⟩)
    exact (hof e (List.mem_cons_of_mem _ he)).of_others ho hne

end Runs

/-- No decision of a list is rejected. -/
def NeverRejected {B S : Type} (c : Context) (uuid4 : ℕ → String) (s : Session)
    (ds : List (Decision B S)) : Prop :=
  ∀ pre d post s₁ s₂, ds = pre ++ d :: post → executeAll c uuid4 s pre = .ok s₁ →
    executeDecision c uuid4 s₁ d ≠ .ok (s₂, some .rejected)

/-- A planned order is rejected only if it is a buy, not the first order of its account, and
dearer than the balance by no more than a sliver for each earlier order of the account. -/
theorem planned_orders_execute {B S : Type} {uuid4 : ℕ → String} {db : Db} {band : ℚ}
    {analysis : List (String × Analysis B S)} {snapshots : List (String × Snapshot)}
    {ds pre post : List (Decision B S)} {d : Decision B S} {s s' : Session}
    (hinj : Function.Injective uuid4) (hfresh : ∀ n, db.recorded (uuid4 n) = false)
    (hsyms : (analysis.map Prod.fst).Nodup) (haccts : (snapshots.map Prod.fst).Nodup)
    (hof : ∀ e ∈ snapshots, e.2.Of db e.1)
    (hplan : planDecisions Context.default band analysis snapshots = .ok ds)
    (hsplit : ds = pre ++ d :: post) (hpre : executeAll Context.default uuid4 ⟨db, 0⟩ pre = .ok s)
    (hrej : executeDecision Context.default uuid4 s d = .ok (s', some .rejected)) :
    d.action = .buy ∧ 0 < ordersOf d.accountId pre ∧
      ShortBy Context.default s.db d (drift (11 / 100000) (ordersOf d.accountId pre)) := by
  have hs : Session.Fresh uuid4 ⟨db, 0⟩ := fun n _ => hfresh n
  have hrun := decisions_run hinj Context.accurate_default hs hsyms haccts hof hplan
  obtain ⟨hbuy, hshort⟩ := hrun pre d post s s' hsplit hpre hrej
  rw [Nat.zero_add] at hshort
  refine ⟨hbuy, ?_, hshort⟩
  obtain ⟨q, px, cost, x, -, -, -, -, hlt, hle⟩ := hshort
  by_contra hno
  obtain hzero : ordersOf d.accountId pre = 0 := by omega
  rw [hzero, drift_zero] at hle
  linarith

/-! ## A rejected plan -/

def demoAnalysis : List (String × Analysis Unit Unit) :=
  [("KRW-BTC", ⟨some (1 / 2), none, []⟩), ("KRW-XRP", ⟨some 1, none, []⟩)]

def demoPrices (sym : String) : Option ℚ :=
  if sym = "KRW-BTC" then some 92402000 else if sym = "KRW-XRP" then some 626 else none

def demoSnapshot : Snapshot := ⟨1800000, [], demoPrices⟩

theorem demoBalance_lt : |((18000000000 : ℤ) : ℚ) * unit 4| < bound 20 4 := by
  norm_num [unit, bound]

theorem demoBalance_nonneg : NonNeg (ofCoeff 20 4 18000000000 demoBalance_lt).val := by
  show (0 : ℚ) ≤ _ * unit 4
  norm_num [unit]

def demoDb : Db where
  accounts a := if a = "demo" then some ⟨ofCoeff 20 4 18000000000 demoBalance_lt, demoBalance_nonneg⟩
    else none
  positions _ _ := none
  orders _ := none
  executions := []

/-- Ids that are told apart by their length. -/
def demoId (n : ℕ) : String := String.ofList (List.replicate n 'x')

theorem demoId_injective : Function.Injective demoId := by
  intro n m h
  have hlen := congrArg (fun s => s.toList.length) h
  simpa [demoId] using hlen

theorem demoSnapshot_of : demoSnapshot.Of demoDb "demo" where
  cash := by
    refine ⟨⟨ofCoeff 20 4 18000000000 demoBalance_lt, demoBalance_nonneg⟩, rfl, ?_⟩
    simp only [ofCoeff, demoSnapshot, unit]
    norm_num
  positions sym q := by simp [demoSnapshot, demoDb]

def buyBtc : Decision Unit Unit where
  accountId := "demo"
  symbol := "KRW-BTC"
  price := some 92402000
  target := some (1 / 2)
  equity := some 1800000
  action := .buy
  quantity := some (973518 / 10 ^ 8)
  amount := some (92402000 * 973518 / 10 ^ 8)
  reason := "목표비중 상향 — 차액 매수"
  barDate := none
  signals := []

/-- The second buy spends all the cash the plan has left. -/
def buyXrp : Decision Unit Unit where
  accountId := "demo"
  symbol := "KRW-XRP"
  price := some 626
  target := some 1
  equity := some (1800000 - 92402000 * 973518 / 10 ^ 8 * (5 / 10000))
  action := .buy
  quantity := some (143698138548 / 10 ^ 8)
  amount := some (626 * 143698138548 / 10 ^ 8)
  reason := "목표비중 상향 — 차액 매수"
  barDate := none
  signals := []

theorem demo_plan : planDecisions Context.default (1 / 2) demoAnalysis [("demo", demoSnapshot)] =
    .ok [buyBtc, buyXrp] := by
  decide +kernel

theorem demo_run : ∃ s s', executeAll Context.default demoId ⟨demoDb, 0⟩ [buyBtc] = .ok s ∧
    executeDecision Context.default demoId s buyXrp = .ok (s', some .rejected) := by
  have hrun : (executeAll Context.default demoId ⟨demoDb, 0⟩ [buyBtc] >>= fun s =>
      Prod.snd <$> executeDecision Context.default demoId s buyXrp) = .ok (some .rejected) := by
    decide +kernel
  obtain ⟨s, hs, h⟩ := bind_ok_iff.mp hrun
  obtain ⟨⟨s', out⟩, hd, rfl⟩ := map_ok_iff.mp h
  exact ⟨s, s', hs, hd⟩

/-- The second buy of the plan costs 900000.12251048 won, and 900000.1225 are left. -/
theorem planned_order_rejected :
    (∀ e ∈ demoAnalysis, ∀ w, e.2.target = some w → 0 ≤ w ∧ w ≤ 1) ∧
      (∀ sym px, demoPrices sym = some px → 0 < px) ∧ demoSnapshot.Of demoDb "demo" ∧
      ∃ ds, planDecisions Context.default (1 / 2) demoAnalysis [("demo", demoSnapshot)] = .ok ds ∧
        ¬ NeverRejected Context.default demoId ⟨demoDb, 0⟩ ds := by
  refine ⟨?_, ?_, demoSnapshot_of, _, demo_plan, ?_⟩
  · intro e he w hw
    simp only [demoAnalysis, List.mem_cons, List.not_mem_nil, or_false] at he
    rcases he with rfl | rfl
    · obtain rfl := Option.some.inj hw
      norm_num
    · obtain rfl := Option.some.inj hw
      norm_num
  · intro sym px h
    unfold demoPrices at h
    split_ifs at h
    · obtain rfl := Option.some.inj h
      norm_num
    · obtain rfl := Option.some.inj h
      norm_num
  · intro hnever
    obtain ⟨s, s', hs, hd⟩ := demo_run
    exact hnever [buyBtc] buyXrp [] s s' rfl hs hd

theorem planned_orders_execute_demo : ∃ s s',
    executeAll Context.default demoId ⟨demoDb, 0⟩ [buyBtc] = .ok s ∧
      executeDecision Context.default demoId s buyXrp = .ok (s', some .rejected) ∧
      ShortBy Context.default s.db buyXrp (drift (11 / 100000) 1) := by
  obtain ⟨s, s', hs, hd⟩ := demo_run
  have h := planned_orders_execute demoId_injective (fun _ => rfl) (by decide) (by decide)
    (by simpa using demoSnapshot_of) demo_plan rfl hs hd
  have hone : ordersOf buyXrp.accountId [buyBtc] = 1 := by decide
  rw [hone] at h
  exact ⟨s, s', hs, hd, h.2.2⟩

end QuantTrader.Rebalance
