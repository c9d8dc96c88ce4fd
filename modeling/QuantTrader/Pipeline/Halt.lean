import QuantTrader.Engine.Progress
import QuantTrader.Ledger.Answers
import QuantTrader.Pipeline.Restart

/-! # Orders that halt the pipeline

The route accepts a NaN and a quantity that the table rounds to zero, and a
reset deletes the order of an execution that is still under way. Where none of
this happens and the numbers stay in their ranges, no handler and no delivery
raises.
-/

namespace QuantTrader.Pipeline

open Postgres Ledger Engine Orders Transition

variable {c : Context} {uuid5 : String → String} {db : Db} {w : World} {o : Order}
  {ex : Execution} {m : Msg} {e : Event} {ε p q : ℚ}

/-- Orders come from the route, ticks carry positive numbers. -/
def Accepted : Event → Prop
  | .place o => ∃ req acct, createOrder o.orderId acct req = .ok o
  | .handle (.tick _ price) => ∃ p, 0 < p ∧ price = .fin p
  | _ => True

/-- An order without NaN whose bought quantity the table does not round to zero. -/
structure Placeable (o : Order) : Prop where
  quantity : o.quantity ≠ .nan
  limit : o.type = .limit → o.price ≠ some .nan
  bought : o.side = .buy → ∀ q, o.quantity = .fin q → 0 < roundTo 12 q

/-- An event on which no number leaves its range and no order is missing. -/
def Digestible (w : World) : Event → Prop
  | .place o => Placeable o
  | .handle m => ∀ st, w.engine = some st → ∀ o p q, Executes st m o (.fin p) →
      o.quantity = .fin q → p * q < amountBound
  | .deliver ex => w.db.recorded ex.executionId = false → Covers Context.default w.db ex →
      Bookable Context.default w.db ex
  | _ => True

/-- The engine's handler or `apply_execution` raises. -/
def Raises (uuid5 : String → String) (w : World) : Event → Prop
  | .handle m => ∃ st e, w.engine = some st ∧ step Context.default uuid5 st m = .error e
  | .deliver ex => ∃ e, applyExecution Context.default w.db ex = .error e
  | _ => False

/-- Tables of finite numbers without orders. -/
structure Opening (db : Db) : Prop where
  orders : ∀ id, db.orders id = none
  finite : db.Finite

/-- An order in the engine's memory whose numbers are finite. -/
structure Sound (o : Order) : Prop where
  quantity : ∃ q, 0 ≤ q ∧ o.quantity = .fin q ∧ Fits 28 12 (.fin q) ∧
    (o.side = .buy → 0 < roundTo 12 q)
  price : o.type ≠ .market → ∃ x, o.price = some (.fin x)

/-- The numbers in the system are finite, and every order has its account. -/
structure Healthy (w : World) : Prop where
  orders : ∀ o ∈ w.placed, Sound o
  accounts : ∀ o ∈ w.placed, (w.db.accounts o.accountId).isSome
  finite : w.db.Finite
  prices : ∀ st, w.engine = some st → ∀ s d, st.latestPrice s = some d → ∃ p, 0 < p ∧ d = .fin p
  executions : ∀ ex ∈ w.executions, ∃ p q, 0 < p ∧ ex.price = .fin p ∧ ex.quantity = .fin q ∧
    p * q < amountBound

/-! ## Orders -/

/-- What the route accepts and the table stores is sound, if it has no NaN. -/
theorem sound_of_placed {acct : String} {req : OrderRequest} {row : OrderRow}
    (hreq : createOrder o.orderId acct req = .ok o) (hp : Placeable o) (hrow : rowOf o = .ok row) :
    Sound o := by
  obtain ⟨hpos, hsome, htype, -, -⟩ := createOrder_ok hreq
  obtain ⟨hprice, hqty, -⟩ := rowOf_ok_iff.mp hrow
  constructor
  · cases hq : o.quantity with
    | fin q =>
      rw [hq] at hpos hqty
      have hpos : 0 < q := by simpa [nonPositive] using hpos
      exact ⟨q, hpos.le, rfl, ⟨_, hqty⟩, fun hs => hp.bought hs q hq⟩
    | inf neg =>
      rw [hq] at hqty
      cases hqty
    | nan => exact absurd hq hp.quantity
  · intro hne
    have hlimit : o.type = .limit := htype.resolve_left hne
    cases hd : o.price with
    | none => exact absurd hd (hsome hlimit)
    | some d =>
      cases d with
      | fin x => exact ⟨x, rfl⟩
      | inf neg =>
        rw [hd] at hprice
        obtain ⟨n, hn, -⟩ := map_ok_iff.mp hprice
        cases hn
      | nan => exact absurd hd (hp.limit hlimit)

theorem Sound.ofRow {row : OrderRow} (h : Sound o) (hrow : rowOf o = .ok row) :
    Sound (ofRow o.orderId row) := by
  obtain ⟨hprice, hqty, hrow'⟩ := rowOf_ok_iff.mp hrow
  have htype : (Engine.ofRow o.orderId row).type = o.type := by rw [hrow']; rfl
  have hside : (Engine.ofRow o.orderId row).side = o.side := by rw [hrow']; rfl
  constructor
  · obtain ⟨q, h0, hq, -, hbought⟩ := h.quantity
    rw [hq] at hqty
    have hval := (store_fin_iff.mp hqty).2
    refine ⟨roundTo 12 q, roundTo_nonneg 12 h0, hval, ⟨row.quantity, ?_⟩, ?_⟩
    · rw [← hval]
      exact store_val row.quantity
    · rw [hside, roundTo_of_onGrid (onGrid_roundTo 12 q)]
      exact hbought
  · rw [htype]
    intro hne
    obtain ⟨x, hx⟩ := h.price hne
    rw [hx] at hprice
    obtain ⟨n, hn, hprice⟩ := map_ok_iff.mp hprice
    refine ⟨roundTo 4 x, ?_⟩
    change row.price.map Subtype.val = _
    rw [← hprice, Option.map_some, (store_fin_iff.mp hn).2]

theorem Version.sound {placed : List Order} (h : Version placed o)
    (hs : ∀ o ∈ placed, Sound o) : Sound o := by
  obtain ⟨o₀, h₀, rfl | ⟨row, hrow, rfl⟩⟩ := h
  · exact hs o h₀
  · exact (hs o₀ h₀).ofRow hrow

theorem Version.accountId {placed : List Order} (h : Version placed o) :
    ∃ o₀ ∈ placed, o₀.accountId = o.accountId := by
  obtain ⟨o₀, h₀, rfl | ⟨row, hrow, rfl⟩⟩ := h
  · exact ⟨o, h₀, rfl⟩
  · exact ⟨o₀, h₀, by rw [(rowOf_ok_iff.mp hrow).2.2]; rfl⟩

theorem finite_reset {acct : String} (h : db.Finite) : (resetAccount db acct).Finite := by
  have hpos : ∀ a s r, (resetAccount db acct).positions a s = some r →
      db.positions a s = some r := by
    intro a s r hr
    simp only [resetAccount] at hr
    rcases eq_or_ne a acct with rfl | hne
    · simp at hr
    · rwa [Function.update_of_ne hne] at hr
  refine ⟨?_, ?_, ?_⟩
  · intro a bal hbal
    simp only [resetAccount] at hbal
    split_ifs at hbal
    · obtain ⟨_, -, rfl⟩ := Option.map_eq_some_iff.mp hbal
      trivial
    · exact h.balance a bal hbal
  · intro a s r hr
    exact h.quantity a s r (hpos a s r hr)
  · intro a s r hr
    exact h.avg a s r (hpos a s r hr)

/-! ## Executions -/

theorem charged_of_execute (hc : c.Accurate ε) (hs : Sound o) (hp : 0 < p)
    (hex : execute c uuid5 o (.fin p) = .ok ex) (hq : ex.quantity = .fin q)
    (hlt : p * q < amountBound) : ∃ v fee, Charged c ex p q v fee := by
  obtain ⟨d, d', d'', hv, hr, hf, rfl⟩ := execute_ok_iff.mp hex
  obtain ⟨q', h0, hq', hfit, hbought⟩ := hs.quantity
  obtain rfl : q' = q := Decimal.fin.inj (hq'.symm.trans hq)
  rw [hq'] at hv
  obtain ⟨v, hamount, rfl⟩ := map_ok_iff.mp hv
  obtain ⟨r, hrated, rfl⟩ := map_ok_iff.mp hr
  obtain ⟨fee, hfee, rfl⟩ := map_ok_iff.mp hf
  have hpq : 0 ≤ p * q' := mul_nonneg hp.le h0
  have hv0 := hc.nonneg_of_finish hamount hpq
  obtain ⟨hfee0, hle⟩ := fee_le_amount hc hv0 hrated hfee
  have hvlt : v < 10 ^ 28 := by
    have herr := (abs_le.mp (hc.error_le hamount)).2
    rw [abs_of_nonneg hpq] at herr
    unfold amountBound at hlt
    linarith
  exact ⟨v, fee, rfl, hq', rfl, hamount, hvlt, h0, hfee0, hle, hfit, hbought⟩

namespace Healthy

theorem charged (h : Healthy w) (ht : Traced c uuid5 w) (hc : c.Accurate ε)
    (hex : ex ∈ w.executions) : (∃ p q v fee, Charged c ex p q v fee) ∧
      (w.db.accounts ex.accountId).isSome := by
  obtain ⟨o, d, hv, -, hexe⟩ := ht.executions ex hex
  obtain ⟨p, q, hp, hprice, hq, hlt⟩ := h.executions ex hex
  have hd : d = ex.price ∧ o.accountId = ex.accountId := by
    obtain ⟨_, _, _, -, -, -, rfl⟩ := execute_ok_iff.mp hexe
    exact ⟨rfl, rfl⟩
  obtain ⟨rfl, hacct⟩ := hd
  rw [hprice] at hexe
  obtain ⟨v, fee, hch⟩ := charged_of_execute hc (hv.sound h.orders) hp hexe hq hlt
  obtain ⟨o₀, h₀, hacct₀⟩ := hv.accountId
  refine ⟨⟨p, q, v, fee, hch⟩, ?_⟩
  rw [← hacct, ← hacct₀]
  exact h.accounts o₀ h₀

/-- An order that a handler fills or compares comes from one that was placed. -/
theorem version (ht : Traced c uuid5 w) {st : State} (hst : w.engine = some st)
    (he : Enabled w (.handle m)) (ho : Holds st o ∨ m = .order o) : Version w.placed o := by
  rcases ho with ho | rfl
  · exact ht.memory st hst o ho
  · exact ⟨o, ht.topic o he.2, Or.inl rfl⟩

theorem price_pos (h : Healthy w) {st : State} (hst : w.engine = some st)
    (ha : Accepted (.handle m)) {d : Decimal} (hexe : Executes st m o d) :
    ∃ p, 0 < p ∧ d = .fin p := by
  cases m with
  | tick symbol price =>
    obtain ⟨rfl, -⟩ := hexe
    exact ha
  | order o' =>
    obtain ⟨-, hlast, -⟩ := hexe
    exact h.prices st hst _ d hlast

theorem fresh (h : Opening db) : Healthy (fresh db) where
  orders _ ho := by cases ho
  accounts _ ho := by cases ho
  finite := h.finite
  prices _ he := by cases he
  executions _ he := by cases he

theorem handle (h : Healthy w) (ht : Traced Context.default uuid5 w)
    (he : Enabled w (.handle m)) (ha : Accepted (.handle m)) (hd : Digestible w (.handle m)) :
    Healthy (handle Context.default uuid5 w m) := by
  unfold Pipeline.handle
  cases hst : w.engine with
  | none => exact h
  | some st =>
    refine ⟨h.orders, h.accounts, h.finite, ?_, ?_⟩
    · intro st' hst' s d hlast
      rcases latestPrice_step (toOption_eq_some_iff.mp hst') hlast with hlast | rfl
      · exact h.prices st hst s d hlast
      · exact ha
    · intro ex hex
      rcases List.mem_append.mp hex with hex | hex
      · exact h.executions ex hex
      · obtain ⟨o, d, hexe, hok⟩ := mem_sent hex
        obtain ⟨p, hp, rfl⟩ := h.price_pos hst ha hexe
        obtain ⟨q, -, hq, -⟩ := ((version ht hst he hexe.source).sound h.orders).quantity
        obtain ⟨_, _, _, -, -, -, rfl⟩ := execute_ok_iff.mp hok
        exact ⟨p, q, hp, rfl, hq, hd st hst o p q hexe hq⟩

theorem next (h : Healthy w) (ht : Traced Context.default uuid5 w) (he : Enabled w e)
    (ha : Accepted e) (hd : Digestible w e) : Healthy (next Context.default uuid5 w e) := by
  cases e with
  | place o =>
    simp only [Pipeline.next]
    cases hins : insertOrder w.db o with
    | error _ => exact h
    | ok db =>
      obtain ⟨row, hrow, -, hacct, rfl⟩ := insertOrder_ok_iff.mp hins
      obtain ⟨req, acct, hreq⟩ := ha
      refine ⟨?_, ?_, ⟨h.finite.balance, h.finite.quantity, h.finite.avg⟩, h.prices, h.executions⟩
      · intro o' ho'
        rcases List.mem_append.mp ho' with ho' | ho'
        · exact h.orders o' ho'
        · rw [List.mem_singleton.mp ho']
          exact sound_of_placed hreq hd hrow
      · intro o' ho'
        rcases List.mem_append.mp ho' with ho' | ho'
        · exact h.accounts o' ho'
        · rw [List.mem_singleton.mp ho']
          exact hacct
  | publish o => exact ⟨h.orders, h.accounts, h.finite, h.prices, h.executions⟩
  | start rows =>
    refine ⟨h.orders, h.accounts, h.finite, ?_, h.executions⟩
    intro st hst s d hlast
    obtain rfl := Option.some.inj hst
    rw [latestPrice_start] at hlast
    cases hlast
  | handle m => exact h.handle ht he ha hd
  | crash =>
    refine ⟨h.orders, h.accounts, h.finite, ?_, h.executions⟩
    intro st hst
    cases hst
  | deliver ex =>
    obtain ⟨⟨p, q, v, fee, hch⟩, -⟩ := h.charged ht Context.accurate_default he
    refine ⟨h.orders, ?_, h.finite.deliver Context.accurate_default hch, h.prices, h.executions⟩
    intro o ho
    exact isSome_accounts_deliver (h.accounts o ho)
  | reset acct =>
    refine ⟨h.orders, ?_, ?_, h.prices, h.executions⟩
    · intro o ho
      have hacct := h.accounts o ho
      simp only [Pipeline.next, resetAccount]
      split_ifs
      · rwa [Option.isSome_map]
      · exact hacct
    · exact finite_reset h.finite

/-- No handler raises on an event it can digest. -/
theorem handle_returns (h : Healthy w) (ht : Traced Context.default uuid5 w) {st : State}
    (hst : w.engine = some st) (he : Enabled w (.handle m)) (ha : Accepted (.handle m))
    (hd : Digestible w (.handle m)) : ∃ st', step Context.default uuid5 st m = .ok st' := by
  have hsound : ∀ o, Holds st o ∨ m = .order o → Sound o :=
    fun o ho => (version ht hst he ho).sound h.orders
  refine exists_step ⟨?_, ?_⟩ ?_ ?_
  · rintro symbol d rfl
    obtain ⟨p, -, rfl⟩ := ha
    exact ⟨p, rfl⟩
  · intro s d hlast
    obtain ⟨p, -, rfl⟩ := h.prices st hst s d hlast
    exact ⟨p, rfl⟩
  · rintro o (⟨s, ho⟩ | ⟨rfl, htype⟩)
    · exact (hsound o (Or.inl ⟨s, Or.inr ho⟩)).price ((ht.waiting st hst).resting s o ho)
    · exact (hsound o (Or.inr rfl)).price (by rw [htype]; exact nofun)
  · intro o p hexe
    obtain ⟨q, h0, hq, -⟩ := (hsound o hexe.source).quantity
    obtain ⟨p', hp, hpp⟩ := h.price_pos hst ha hexe
    obtain rfl := Decimal.fin.inj hpp
    exact exists_execute hq (mul_nonneg hp.le h0) (hd st hst o p q hexe hq)

end Healthy

theorem healthy (hdb : Opening db)
    (hw : ((system Context.default uuid5).restrict fun w e => Accepted e ∧ Digestible w e).Reaches
      (fresh db) w) : Healthy w := by
  induction hw with
  | start => exact Healthy.fresh hdb
  | step e hw he ih => exact ih.next (traced hdb.orders hw.of_restrict) he.1 he.2.1 he.2.2

/-- In a run of events the pipeline can digest no handler and no delivery raises. -/
theorem no_order_halts (hdb : Opening db)
    (hw : ((system Context.default uuid5).restrict fun w e => Accepted e ∧ Digestible w e).Reaches
      (fresh db) w) (he : Enabled w e) (ha : Accepted e) (hd : Digestible w e) :
    ¬ Raises uuid5 w e := by
  have ht : Traced Context.default uuid5 w := traced hdb.orders hw.of_restrict
  have hh := healthy hdb hw
  cases e with
  | handle m =>
    rintro ⟨st, err, hst, herr⟩
    obtain ⟨st', hok⟩ := hh.handle_returns ht hst he ha hd
    rw [herr] at hok
    cases hok
  | deliver ex =>
    rintro ⟨err, herr⟩
    obtain ⟨⟨p, q, v, fee, hch⟩, hacct⟩ := hh.charged ht Context.accurate_default he
    obtain ⟨r, hok⟩ := (answered_iff Context.accurate_default hh.finite hch hacct).mpr hd
    rw [herr] at hok
    cases hok
  | place o => exact id
  | publish o => exact id
  | start rows => exact id
  | crash => exact id
  | reset acct => exact id

/-! ## Runs of one order -/

theorem opening_demoDb : Opening demoDb where
  orders _ := rfl
  finite := by
    refine ⟨?_, nofun, nofun⟩
    intro a bal hbal
    simp only [demoDb] at hbal
    split_ifs at hbal
    obtain rfl := Option.some.inj hbal
    trivial

/-- The row of `keptOrder`. -/
def keptRow : OrderRow :=
  ⟨"demo", "KRW-BTC", .buy, .limit, some (ofCoeff 20 4 995000 (by decide +kernel)),
    ofCoeff 28 12 (2 * 10 ^ 12) (by decide +kernel), .pending⟩

def keptExecution : Execution :=
  ⟨"o1", "o1", "demo", "KRW-BTC", .buy, .fin 99, .fin 2, .fin (99 / 1000)⟩

theorem digestible_kept :
    Digestible (started keptOrder keptRow) (.handle (.tick "KRW-BTC" (.fin 99))) := by
  rintro st hst o p q hexe hq
  obtain rfl := Option.some.inj hst
  obtain ⟨r, hr, rfl⟩ := holds_start (hexe.source.resolve_right nofun)
  obtain rfl := List.mem_singleton.mp hr
  obtain rfl : (99 : ℚ) = p := (Decimal.fin.inj hexe.1).symm
  obtain rfl : (2 * 10 ^ 12 : ℤ) * unit 12 = q := Decimal.fin.inj hq
  norm_num [unit, amountBound]

theorem bookable_kept : Bookable Context.default
    (filled keptOrder keptRow (.tick "KRW-BTC" (.fin 99))).db keptExecution where
  order := by decide +kernel
  price := fits_fin_iff.mpr (by decide +kernel)
  fee := fits_fin_iff.mpr (by decide +kernel)
  unitCost := by
    intro _ cost u hcost hu
    have hcost' : keptExecution.cost Context.default = .ok (.fin (198099 / 1000)) := by
      decide +kernel
    obtain rfl := Except.ok.inj (hcost'.symm.trans hcost)
    have hu' : Context.default.div (.fin (198099 / 1000)) keptExecution.quantity =
        .ok (.fin (198099 / 2000)) := by
      decide +kernel
    obtain rfl := Except.ok.inj (hu'.symm.trans hu)
    exact fits_fin_iff.mpr (by decide +kernel)
  holding := by
    intro _ r n hr
    cases hr
  balance := by
    intro hs
    cases hs

theorem no_order_halts_demo :
    keptExecution ∈ (filled keptOrder keptRow (.tick "KRW-BTC" (.fin 99))).executions ∧
      ¬ Raises id (filled keptOrder keptRow (.tick "KRW-BTC" (.fin 99))) (.deliver keptExecution) := by
  have hmem : keptExecution ∈ (filled keptOrder keptRow (.tick "KRW-BTC" (.fin 99))).executions := by
    decide +kernel
  have hplaceable : Placeable keptOrder := by
    refine ⟨nofun, ?_, ?_⟩
    · rintro - ⟨⟩
    · intro _ q hq
      obtain rfl : (2 : ℚ) = q := Decimal.fin.inj hq
      decide +kernel
  have hstarted := reaches_started
    (Q := fun w e => Accepted e ∧ Digestible w e) (show keptOrder.accountId = "demo" from rfl)
    (show rowOf keptOrder = .ok keptRow by decide +kernel)
    ⟨⟨⟨"KRW-BTC", "BUY", "LIMIT", .fin 2, some (.fin (995 / 10))⟩, "demo", by decide +kernel⟩,
      hplaceable⟩ ⟨trivial, trivial⟩
  have hfilled := hstarted.step (Event.handle (.tick "KRW-BTC" (.fin 99)))
    ⟨rfl, ⟨99, by norm_num, rfl⟩, digestible_kept⟩
  exact ⟨hmem, no_order_halts opening_demoDb hfilled hmem trivial fun _ _ => bookable_kept⟩

/-- A run of accepted requests that places one order only reaches an event that raises. -/
def Halts (o : Order) : Prop :=
  ∃ w e, ((system Context.default id).restrict fun _ e => Accepted e).Reaches (fresh demoDb) w ∧
    w.placed = [o] ∧ Enabled w e ∧ Accepted e ∧ Raises id w e

/-- An order for one coin at a limit that is not a number. -/
def nanLimit : Order := ⟨"o1", "demo", "KRW-BTC", .buy, .limit, some .nan, .fin 1⟩

/-- A market order for a quantity that is not a number. -/
def nanQuantity : Order := ⟨"o1", "demo", "KRW-BTC", .buy, .market, none, .nan⟩

/-- A market order for a tenth of the unit of the quantity column. -/
def tinyBuy : Order := ⟨"o1", "demo", "KRW-BTC", .buy, .market, none, .fin (1 / 10 ^ 13)⟩

def plainBuy : Order := ⟨"o1", "demo", "KRW-BTC", .buy, .market, none, .fin 1⟩

theorem reaches_accepted {row : OrderRow} (req : OrderRequest)
    (hreq : createOrder o.orderId "demo" req = .ok o) (hrow : rowOf o = .ok row) :
    ((system Context.default id).restrict fun _ e => Accepted e).Reaches (fresh demoDb)
      (started o row) := by
  obtain ⟨-, -, -, -, hacct⟩ := createOrder_ok hreq
  exact reaches_started hacct hrow ⟨req, "demo", hreq⟩ trivial

theorem reaches_tick {row : OrderRow} (req : OrderRequest)
    (hreq : createOrder o.orderId "demo" req = .ok o) (hrow : rowOf o = .ok row) :
    ((system Context.default id).restrict fun _ e => Accepted e).Reaches (fresh demoDb)
      (filled o row (.tick o.symbol (.fin 100))) :=
  (reaches_accepted req hreq hrow).step (Event.handle (.tick o.symbol (.fin 100)))
    ⟨rfl, ⟨100, by norm_num, rfl⟩⟩

theorem halts_nanLimit : Halts nanLimit := by
  let row : OrderRow := ⟨"demo", "KRW-BTC", .buy, .limit, some ⟨.nan, trivial⟩,
    ofCoeff 28 12 (10 ^ 12) (by decide +kernel), .pending⟩
  have hw := reaches_accepted ⟨"KRW-BTC", "BUY", "LIMIT", .fin 1, some .nan⟩
    (show createOrder nanLimit.orderId _ _ = .ok nanLimit by decide +kernel)
    (show rowOf nanLimit = .ok row by decide +kernel)
  exact ⟨_, .handle (.tick "KRW-BTC" (.fin 100)), hw, rfl, rfl, ⟨100, by norm_num, rfl⟩,
    _, .invalidOperation, rfl, rfl⟩

theorem halts_nanQuantity : Halts nanQuantity := by
  let row : OrderRow := ⟨"demo", "KRW-BTC", .buy, .market, none, ⟨.nan, trivial⟩, .pending⟩
  let ex : Execution := ⟨"o1", "o1", "demo", "KRW-BTC", .buy, .fin 100, .nan, .nan⟩
  have hw := reaches_tick ⟨"KRW-BTC", "BUY", "MARKET", .nan, none⟩
    (show createOrder nanQuantity.orderId _ _ = .ok nanQuantity by decide +kernel)
    (show rowOf nanQuantity = .ok row by decide +kernel)
  have hex : ex ∈ (filled nanQuantity row (.tick "KRW-BTC" (.fin 100))).executions := by
    decide +kernel
  exact ⟨_, .deliver ex, hw, rfl, hex, trivial, exists_error_of_isOk (by decide +kernel)⟩

theorem halts_tinyBuy : Halts tinyBuy := by
  let row : OrderRow := ⟨"demo", "KRW-BTC", .buy, .market, none,
    ofCoeff 28 12 0 (by decide +kernel), .pending⟩
  let ex : Execution := ⟨"o1", "o1", "demo", "KRW-BTC", .buy, .fin 100, .fin 0, .fin 0⟩
  have hw := reaches_tick ⟨"KRW-BTC", "BUY", "MARKET", .fin (1 / 10 ^ 13), none⟩
    (show createOrder tinyBuy.orderId _ _ = .ok tinyBuy by decide +kernel)
    (show rowOf tinyBuy = .ok row by decide +kernel)
  have hex : ex ∈ (filled tinyBuy row (.tick "KRW-BTC" (.fin 100))).executions := by
    decide +kernel
  exact ⟨_, .deliver ex, hw, rfl, hex, trivial, exists_error_of_isOk (by decide +kernel)⟩

/-- The account is reset between the fill and its delivery. -/
theorem halts_plainBuy : Halts plainBuy := by
  let row : OrderRow := ⟨"demo", "KRW-BTC", .buy, .market, none,
    ofCoeff 28 12 (10 ^ 12) (by decide +kernel), .pending⟩
  let ex : Execution := ⟨"o1", "o1", "demo", "KRW-BTC", .buy, .fin 100, .fin 1, .fin (5 / 100)⟩
  have hw := reaches_tick ⟨"KRW-BTC", "BUY", "MARKET", .fin 1, none⟩
    (show createOrder plainBuy.orderId _ _ = .ok plainBuy by decide +kernel)
    (show rowOf plainBuy = .ok row by decide +kernel)
  have hreset := hw.step (Event.reset "demo") ⟨trivial, trivial⟩
  have hex : ex ∈ (filled plainBuy row (.tick "KRW-BTC" (.fin 100))).executions := by
    decide +kernel
  exact ⟨_, .deliver ex, hreset, rfl, hex, trivial, exists_error_of_isOk (by decide +kernel)⟩

/-- Two orders on NaN, one the table rounds to zero, and one whose row a reset deletes. -/
theorem orders_halt : Opening demoDb ∧ Halts nanLimit ∧ Halts nanQuantity ∧ Halts tinyBuy ∧
    Halts plainBuy :=
  ⟨opening_demoDb, halts_nanLimit, halts_nanQuantity, halts_tinyBuy, halts_plainBuy⟩

end QuantTrader.Pipeline
