import QuantTrader.Ledger.Updater
import QuantTrader.Orders.Writer
import QuantTrader.Rebalance.Decide

/-! # The daily job

`plan_decisions` turns targets and account snapshots into one decision for each
symbol, with a running book of cash and holdings for each account. `_execute`
sends a trade to the updater, and `run` sends the decisions in their order.
-/

namespace QuantTrader.Rebalance

open Ledger Postgres Transition

/-- What the job knows about one symbol. -/
structure Analysis (B S : Type) where
  target : Option ℚ
  barDate : Option B
  signals : List S

/-- One account as it was read: `cash`, `positions` and `latest_prices`. -/
structure Snapshot where
  cash : ℚ
  positions : List (String × ℚ)
  prices : String → Option ℚ

inductive Action | buy | sell | hold
  deriving DecidableEq, Repr

/-- The record of one decision. -/
structure Decision (B S : Type) where
  accountId : String
  symbol : String
  price : Option ℚ
  target : Option ℚ
  equity : Option ℚ
  action : Action
  quantity : Option ℚ
  amount : Option ℚ
  reason : String
  barDate : Option B
  signals : List S
  deriving DecidableEq

/-- The running book of one account while it is planned. -/
structure Plan where
  cash : ℚ
  pos : List (String × ℚ)

/-- `pos.get(sym, Decimal(0))`. -/
def quantityOf (pos : List (String × ℚ)) (sym : String) : ℚ := (pos.lookup sym).getD 0

/-- `pos[sym] = qty`: a known key keeps its place, a new one comes last. -/
def setQuantity (pos : List (String × ℚ)) (sym : String) (qty : ℚ) : List (String × ℚ) :=
  if (pos.lookup sym).isSome then pos.map fun e => if e.1 = sym then (sym, qty) else e
  else pos ++ [(sym, qty)]

/-- `classify`: an order and what it was decided on, as an action and its reason. -/
def classify (order : Option (Side × ℚ)) (targetW : Option ℚ) (qty : ℚ) : Action × String :=
  match targetW with
  | none => (.hold, "신호 불완전 — 일부 추세 부하가 같은 봉으로 보고하지 않음")
  | some w =>
    match order with
    | some (.buy, _) => (.buy, "목표비중 상향 — 차액 매수")
    | some (.sell, _) =>
      (.sell, if w ≤ 0 then "추세 반전 — 전량 청산" else "목표비중 하향 — 차액 매도")
    | none =>
      if w ≤ 0 then (.hold, "추세 미진입 — 현금 유지")
      else if 0 < qty then (.hold, "목표비중에 근접 — 리밸런스 밴드 내 유지(저회전)")
      else (.hold, "신규 진입액이 최소주문액 미만")

section Planning

variable (c : Context) {B S : Type} (band : ℚ)

/-- `oqty * px * (Decimal(1) + rate)`, the fee added for a buy and taken off for a sell. -/
def charged (rate qty price : ℚ) : Except Signal ℚ := do
  c.finish ((← c.finish (qty * price)) * (1 + rate))

/-- The amount of an order: its quantity at the price. -/
def amountOf : Option ℚ → Option ℚ → Except Signal (Option ℚ)
  | some oqty, some price => some <$> c.finish (oqty * price)
  | _, _ => return none

/-- `_decision`: the record of one decision. -/
def decision (acct sym : String) (price eq : Option ℚ) (action : Action) (oqty : Option ℚ)
    (reason : String) (a : Analysis B S) : Except Signal (Decision B S) := do
  let amount ← amountOf c oqty price
  return ⟨acct, sym, price, a.target, eq, action, oqty, amount, reason, a.barDate, a.signals⟩

/-- The book after an order, as the plan goes on. -/
def Plan.after (p : Plan) (sym : String) (qty px : ℚ) : Option (Side × ℚ) → Except Signal Plan
  | some (.buy, oqty) => do
    let cash ← c.finish (p.cash - (← charged c feeRate oqty px))
    return ⟨cash, setQuantity p.pos sym (← c.finish (qty + oqty))⟩
  | some (.sell, oqty) => do
    let cash ← c.finish (p.cash + (← charged c (-feeRate) oqty px))
    return ⟨cash, setQuantity p.pos sym (← c.finish (qty - oqty))⟩
  | none => return p

/-- The order for a symbol with a price; an incomplete target gives none. -/
def orderFor (qty px cash eq : ℚ) (target : Option ℚ) : Except Signal (Option (Side × ℚ)) :=
  match target with
  | none => return none
  | some w => Rebalance.decide c qty px cash eq w band

/-- One symbol of `plan_decisions`: its decision and the book for the next one. -/
def planSymbol (acct : String) (prices : String → Option ℚ) (p : Plan) (sym : String)
    (a : Analysis B S) : Except Signal (Decision B S × Plan) :=
  match (prices sym).filter (· ≠ 0) with
  | none => do return (← decision c acct sym none none .hold none "최신가 없음 — 체결 불가" a, p)
  | some px => do
    let qty := quantityOf p.pos sym
    let eq ← equity c p.cash p.pos prices
    let order ← orderFor c band qty px p.cash eq a.target
    let (action, reason) := classify order a.target qty
    let d ← decision c acct sym (some px) (some eq) action (order.map Prod.snd) reason a
    return (d, ← p.after c sym qty px order)

/-- The decisions of one account, symbol by symbol. -/
def planAccount (acct : String) (prices : String → Option ℚ) :
    Plan → List (String × Analysis B S) → Except Signal (List (Decision B S))
  | _, [] => return []
  | p, (sym, a) :: rest => do
    let (d, p') ← planSymbol c band acct prices p sym a
    let ds ← planAccount acct prices p' rest
    return d :: ds

/-- `plan_decisions`. -/
def planDecisions (analysis : List (String × Analysis B S)) :
    List (String × Snapshot) → Except Signal (List (Decision B S))
  | [] => return []
  | (acct, snap) :: rest => do
    let ds ← planAccount c band acct snap.prices ⟨snap.cash, snap.positions⟩ analysis
    let ds' ← planDecisions analysis rest
    return ds ++ ds'

end Planning

/-! ## Execution -/

/-- The tables, and how many ids `uuid4` has drawn. -/
structure Session where
  db : Db
  drawn : ℕ

section Execution

variable (c : Context) (uuid4 : ℕ → String) {B S : Type}

/-- `(price * qty * FEE_RATE).quantize(_FEE_QUANT)`. -/
def orderFee (price qty : ℚ) : Except Signal ℚ := do
  c.quantizeFin .halfEven 4 (← c.finish ((← c.finish (price * qty)) * feeRate))

/-- `_execute`: insert the order, then settle it at once. -/
def execute (s : Session) (acct sym : String) (side : Side) (qty price : ℚ) :
    Except Raise (Session × Outcome) := do
  let orderId := uuid4 s.drawn
  let db ← Raise.pg (Orders.insertOrder s.db
    ⟨orderId, acct, sym, side, .market, some (.fin price), .fin qty⟩)
  let fee ← Raise.py (orderFee c price qty)
  let (db, out) ← applyExecution c db
    ⟨uuid4 (s.drawn + 1), orderId, acct, sym, side, .fin price, .fin qty, .fin fee⟩
  return (⟨db, s.drawn + 2⟩, out)

def Action.side? : Action → Option Side
  | .buy => some .buy
  | .sell => some .sell
  | .hold => none

/-- One decision of the loop of `run`: a trade is executed, anything else is only recorded. -/
def executeDecision (s : Session) (d : Decision B S) : Except Raise (Session × Option Outcome) :=
  match d.action.side?, d.quantity, d.price with
  | some side, some qty, some price => do
    let (s, out) ← execute c uuid4 s d.accountId d.symbol side qty price
    return (s, some out)
  | _, _, _ => return (s, none)

/-- The loop of `run`. -/
def executeAll (s : Session) (ds : List (Decision B S)) : Except Raise Session :=
  ds.foldlM (fun s d => Prod.fst <$> executeDecision c uuid4 s d) s

end Execution

/-! ## One decision of the plan -/

theorem classify_none {targetW : Option ℚ} {qty : ℚ} : (classify none targetW qty).1 = .hold := by
  cases targetW with
  | none => rfl
  | some w =>
    rw [classify]
    split_ifs <;> rfl

theorem classify_some {side : Side} {q w qty : ℚ} :
    (classify (some (side, q)) (some w) qty).1.side? = some side := by
  cases side <;> rfl

section Planning

variable {c : Context} {B S : Type} {band ε : ℚ} {acct sym : String}
  {prices : String → Option ℚ} {p p' : Plan} {a : Analysis B S} {d : Decision B S}
  {price eq oqty : Option ℚ} {action : Action} {reason : String} {side : Side} {q px : ℚ}

theorem lookup_setQuantity_of_ne {pos : List (String × ℚ)} {q : ℚ} {s : String} (h : s ≠ sym) :
    (setQuantity pos sym q).lookup s = pos.lookup s := by
  have hbeq : (s == sym) = false := by simpa using h
  unfold setQuantity
  split_ifs with hmem
  · clear hmem
    induction pos with
    | nil => rfl
    | cons e pos ih =>
      obtain ⟨t, y⟩ := e
      rw [List.map_cons]
      split_ifs with ht
      · rw [List.lookup_cons, List.lookup_cons, hbeq, ih]
        simp only [show t = sym from ht, hbeq]
      · rw [List.lookup_cons, List.lookup_cons, ih]
  · rw [List.lookup_append]
    cases pos.lookup s with
    | none => simp [List.lookup_cons, hbeq]
    | some y => rfl

theorem quantityOf_setQuantity_of_ne {pos : List (String × ℚ)} {q : ℚ} {s : String} (h : s ≠ sym) :
    quantityOf (setQuantity pos sym q) s = quantityOf pos s := by
  rw [quantityOf, quantityOf, lookup_setQuantity_of_ne h]

theorem decision_ok (h : decision c acct sym price eq action oqty reason a = .ok d) :
    d.accountId = acct ∧ d.symbol = sym ∧ d.price = price ∧ d.action = action ∧
      d.quantity = oqty := by
  simp only [decision, bind_ok_iff] at h
  obtain ⟨amount, -, h⟩ := h
  obtain rfl := Except.ok.inj h
  exact ⟨rfl, rfl, rfl, rfl, rfl⟩

theorem orderFor_some {qty px cash eq q : ℚ} {target : Option ℚ} {side : Side}
    (h : orderFor c band qty px cash eq target = .ok (some (side, q))) :
    ∃ w, target = some w ∧ Rebalance.decide c qty px cash eq w band = .ok (some (side, q)) := by
  cases target with
  | none => cases h
  | some w => exact ⟨w, rfl, h⟩

/-- What one symbol adds to the plan: nothing, or an order that the book follows. -/
inductive Planned (c : Context) (p : Plan) (sym : String) (d : Decision B S) (p' : Plan) : Prop
  | hold : d.action = .hold → p' = p → Planned c p sym d p'
  | trade {side : Side} {q px : ℚ} : d.action.side? = some side → d.quantity = some q →
      d.price = some px → 0 < px → 0 < q → Sized c (quantityOf p.pos sym) px p.cash side q →
      p.after c sym (quantityOf p.pos sym) px (some (side, q)) = .ok p' → Planned c p sym d p'

theorem planSymbol_ok (h : planSymbol c band acct prices p sym a = .ok (d, p')) :
    d.accountId = acct ∧ d.symbol = sym ∧ Planned c p sym d p' := by
  unfold planSymbol at h
  split at h
  · simp only [bind_ok_iff] at h
    obtain ⟨d', hd, h⟩ := h
    cases h
    obtain ⟨hacct, hsym, -, hact, -⟩ := decision_ok hd
    exact ⟨hacct, hsym, .hold hact rfl⟩
  · rename_i px hpx
    simp only [bind_ok_iff] at h
    obtain ⟨eq, -, order, hord, d', hd, p₁, hp, h⟩ := h
    cases h
    obtain ⟨hacct, hsym, hprice, hact, hqty⟩ := decision_ok hd
    refine ⟨hacct, hsym, ?_⟩
    cases order with
    | none => exact .hold (hact.trans classify_none) (Except.ok.inj hp).symm
    | some o =>
      obtain ⟨side, q⟩ := o
      obtain ⟨w, htarget, hdec⟩ := orderFor_some hord
      obtain ⟨hpx0, hq0, hsized⟩ := decide_some hdec
      refine .trade ?_ hqty hprice hpx0 hq0 hsized hp
      rw [hact, htarget]
      exact classify_some

theorem after_buy {qty : ℚ} (h : p.after c sym qty px (some (.buy, q)) = .ok p') :
    ∃ v w, c.finish (px * q) = .ok v ∧ c.finish (v * (1 + feeRate)) = .ok w ∧
      c.finish (p.cash - w) = .ok p'.cash := by
  simp only [Plan.after, charged, bind_ok_iff] at h
  obtain ⟨w, ⟨v, hv, hw⟩, cash, hcash, y, -, h⟩ := h
  cases h
  exact ⟨v, w, by rwa [mul_comm], hw, hcash⟩

theorem after_sell {qty : ℚ} (h : p.after c sym qty px (some (.sell, q)) = .ok p') :
    ∃ v w, c.finish (px * q) = .ok v ∧ c.finish (v * (1 + -feeRate)) = .ok w ∧
      c.finish (p.cash + w) = .ok p'.cash := by
  simp only [Plan.after, charged, bind_ok_iff] at h
  obtain ⟨w, ⟨v, hv, hw⟩, cash, hcash, y, -, h⟩ := h
  cases h
  exact ⟨v, w, by rwa [mul_comm], hw, hcash⟩

/-- An order moves the plan's quantity of its own symbol only. -/
theorem quantityOf_after {qty : ℚ} {t : String} (h : p.after c sym qty px (some (side, q)) = .ok p')
    (ht : t ≠ sym) : quantityOf p'.pos t = quantityOf p.pos t := by
  cases side with
  | buy =>
    simp only [Plan.after, bind_ok_iff] at h
    obtain ⟨w, -, cash, -, y, -, h⟩ := h
    cases h
    exact quantityOf_setQuantity_of_ne ht
  | sell =>
    simp only [Plan.after, bind_ok_iff] at h
    obtain ⟨w, -, cash, -, y, -, h⟩ := h
    cases h
    exact quantityOf_setQuantity_of_ne ht

theorem planAccount_account {ds : List (Decision B S)} {items : List (String × Analysis B S)}
    (h : planAccount c band acct prices p items = .ok ds) : ∀ d ∈ ds, d.accountId = acct := by
  induction items generalizing p ds with
  | nil =>
    obtain rfl := Except.ok.inj h
    simp
  | cons item items ih =>
    simp only [planAccount, bind_ok_iff] at h
    obtain ⟨⟨d, p'⟩, hd, ds', hds, h⟩ := h
    obtain rfl := Except.ok.inj h
    intro e he
    rcases List.mem_cons.mp he with rfl | he
    · exact (planSymbol_ok hd).1
    · exact ih hds e he

end Planning

section Execution

variable {c : Context} {uuid4 : ℕ → String} {B S : Type} {d : Decision B S} {s s' : Session}
  {side : Side} {q px : ℚ} {out : Option Outcome} {ds ds' : List (Decision B S)}

theorem executeDecision_hold (h : d.action = .hold) : executeDecision c uuid4 s d = .ok (s, none) := by
  simp [executeDecision, h, Action.side?]
  rfl

theorem executeDecision_trade (hs : d.action.side? = some side) (hq : d.quantity = some q)
    (hp : d.price = some px) : executeDecision c uuid4 s d = .ok (s', out) ↔
      ∃ o, execute c uuid4 s d.accountId d.symbol side q px = .ok (s', o) ∧ out = some o := by
  simp only [executeDecision, hs, hq, hp, bind_ok_iff]
  constructor
  · rintro ⟨⟨s₁, o⟩, he, h⟩
    cases h
    exact ⟨o, he, rfl⟩
  · rintro ⟨o, he, rfl⟩
    exact ⟨_, he, rfl⟩

theorem executeAll_cons : executeAll c uuid4 s (d :: ds) = .ok s' ↔
    ∃ s₁ out, executeDecision c uuid4 s d = .ok (s₁, out) ∧ executeAll c uuid4 s₁ ds = .ok s' := by
  unfold executeAll
  simp only [List.foldlM_cons, bind_ok_iff, map_ok_iff]
  constructor
  · rintro ⟨_, ⟨⟨s₁, out⟩, hd, rfl⟩, h⟩
    exact ⟨s₁, out, hd, h⟩
  · rintro ⟨s₁, out, hd, h⟩
    exact ⟨s₁, ⟨_, hd, rfl⟩, h⟩

theorem executeAll_append :
    executeAll c uuid4 s (ds ++ ds') = .ok s' ↔
      ∃ s₁, executeAll c uuid4 s ds = .ok s₁ ∧ executeAll c uuid4 s₁ ds' = .ok s' := by
  unfold executeAll
  rw [List.foldlM_append, bind_ok_iff]

end Execution

end QuantTrader.Rebalance
