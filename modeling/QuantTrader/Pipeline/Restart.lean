import QuantTrader.Pipeline.World

/-! # Restarts and the two encodings of an order

An order reaches the engine as its message or, after a restart, as its row,
whose columns round the quantity and the price. Executions keep what was
submitted as long as that rounding keeps the quantity and does not worsen the
limit.
-/

namespace QuantTrader.Pipeline

open Postgres Ledger Engine Orders Transition

variable {c : Context} {uuid5 : String → String} {db : Db} {w : World} {o o₀ : Order}
  {ex : Execution} {p : Decimal}

/-- A positive finite quantity and, for LIMIT, a positive finite price. -/
structure Submitted (o : Order) : Prop where
  quantity : ∃ q, 0 < q ∧ o.quantity = .fin q
  limit : o.type = .limit → ∃ p, 0 < p ∧ o.price = some (.fin p)

/-- A limit that admits no price the other one would refuse. -/
def NoLooser : Side → ℚ → ℚ → Prop
  | .buy, limit, limit' => limit ≤ limit'
  | .sell, limit, limit' => limit' ≤ limit

/-- The columns keep the quantity and do not round the limit to the worse side. -/
structure KeptByTable (o : Order) : Prop where
  quantity : ∀ q, o.quantity = .fin q → OnGrid (unit 12) q
  limit : ∀ p, o.type = .limit → o.price = some (.fin p) → NoLooser o.side (roundTo 4 p) p

/-- The quantity and the price have no more decimals than their columns. -/
structure SameInTable (o : Order) : Prop where
  quantity : ∀ q, o.quantity = .fin q → OnGrid (unit 12) q
  price : ∀ p, o.price = some (.fin p) → OnGrid (unit 4) p

/-- The execution carries the quantity of the order and a price no worse than its limit. -/
def Faithful (o : Order) (ex : Execution) : Prop :=
  ex.quantity = o.quantity ∧ (o.type = .limit → NoWorse o ex.price)

/-- An order in one of its encodings: as submitted, or rebuilt from its row. -/
def Version (placed : List Order) (o : Order) : Prop :=
  ∃ o₀ ∈ placed, o = o₀ ∨ ∃ row, rowOf o₀ = .ok row ∧ o = ofRow o₀.orderId row

/-- Every order and execution in the system comes from one that was placed. -/
structure Traced (c : Context) (uuid5 : String → String) (w : World) : Prop where
  distinct : (w.placed.map Order.orderId).Nodup
  outbox : ∀ o ∈ w.outbox, o ∈ w.placed
  topic : ∀ o ∈ w.topic, o ∈ w.placed
  rows : ∀ id row, w.db.orders id = some row →
    ∃ o ∈ w.placed, o.orderId = id ∧ ∃ row₀, rowOf o = .ok row₀ ∧ ofRow id row = ofRow id row₀
  waiting : ∀ st, w.engine = some st → Filed st
  memory : ∀ st, w.engine = some st → ∀ o, Holds st o → Version w.placed o
  executions : ∀ ex ∈ w.executions, ∃ o p, Version w.placed o ∧ (o.type ≠ .market → NoWorse o p) ∧
    execute c uuid5 o p = .ok ex

/-! ## The system keeps the trace -/

theorem Version.mono {placed placed' : List Order} (hs : placed ⊆ placed') (h : Version placed o) :
    Version placed' o := by
  obtain ⟨o₀, h₀, ho⟩ := h
  exact ⟨o₀, hs h₀, ho⟩

theorem traced_fresh (h : ∀ id, db.orders id = none) : Traced c uuid5 (fresh db) where
  distinct := List.nodup_nil
  outbox _ ho := by cases ho
  topic _ ho := by cases ho
  rows id row hr := by
    rw [show (fresh db).db.orders id = none from h id] at hr
    cases hr
  waiting _ he := by cases he
  memory _ he := by cases he
  executions _ he := by cases he

namespace Traced

theorem place (h : Traced c uuid5 w) (hnew : ∀ o' ∈ w.placed, o'.orderId ≠ o.orderId)
    (hins : insertOrder w.db o = .ok db) :
    Traced c uuid5 { w with db, placed := w.placed ++ [o], outbox := w.outbox ++ [o] } := by
  obtain ⟨row, hrow, -, -, rfl⟩ := insertOrder_ok_iff.mp hins
  have hsub : w.placed ⊆ w.placed ++ [o] := List.subset_append_left _ _
  refine ⟨?_, ?_, ?_, ?_, h.waiting, ?_, ?_⟩
  · rw [List.map_append, List.nodup_append]
    refine ⟨h.distinct, by simp, ?_⟩
    intro id hid id' hid'
    obtain ⟨o', ho', rfl⟩ := List.mem_map.mp hid
    simp only [List.map_cons, List.map_nil, List.mem_singleton] at hid'
    rw [hid']
    exact hnew o' ho'
  · intro o' ho'
    rcases List.mem_append.mp ho' with ho' | ho'
    · exact hsub (h.outbox o' ho')
    · exact List.mem_append_right _ ho'
  · intro o' ho'
    exact hsub (h.topic o' ho')
  · intro id row' hr
    rcases eq_or_ne id o.orderId with rfl | hne
    · simp only [Function.update_self, Option.some.injEq] at hr
      exact ⟨o, by simp, rfl, row, hrow, by rw [hr]⟩
    · simp only [Function.update_of_ne hne] at hr
      obtain ⟨o', ho', hrest⟩ := h.rows id row' hr
      exact ⟨o', hsub ho', hrest⟩
  · intro st he o' ho'
    exact (h.memory st he o' ho').mono hsub
  · intro ex hex
    obtain ⟨o', p, hv, hrest⟩ := h.executions ex hex
    exact ⟨o', p, hv.mono hsub, hrest⟩

theorem start {rows : List (String × OrderRow)} (h : Traced c uuid5 w)
    (hp : PendingRows rows w.db) : Traced c uuid5 { w with engine := some (start rows) } where
  distinct := h.distinct
  outbox := h.outbox
  topic := h.topic
  rows := h.rows
  waiting st he := by
    obtain rfl := Option.some.inj he
    exact filed_start rows
  memory st he o ho := by
    obtain rfl := Option.some.inj he
    obtain ⟨r, hr, rfl⟩ := holds_start ho
    obtain ⟨o₀, h₀, hid, row₀, hrow, he⟩ := h.rows r.1 r.2 ((hp.mem_iff r.1 r.2).mp hr).1
    exact ⟨o₀, h₀, Or.inr ⟨row₀, hrow, by rw [hid, he]⟩⟩
  executions := h.executions

theorem handle {m : Msg} (h : Traced c uuid5 w) (hm : Enabled w (.handle m)) :
    Traced c uuid5 (handle c uuid5 w m) := by
  unfold Pipeline.handle
  cases he : w.engine with
  | none => exact h
  | some st =>
    have hmsg : ∀ o, m = .order o → Version w.placed o := by
      rintro o rfl
      exact ⟨o, h.topic o hm.2, Or.inl rfl⟩
    refine ⟨h.distinct, h.outbox, h.topic, h.rows, ?_, ?_, ?_⟩
    · intro st' hst'
      have hs := toOption_eq_some_iff.mp hst'
      exact (h.waiting st he).step hs
    · intro st' hst' o ho
      have hs := toOption_eq_some_iff.mp hst'
      rcases holds_step hs ho with ho | ho
      · exact h.memory st he o ho
      · exact hmsg o ho
    · intro ex hex
      rcases List.mem_append.mp hex with hex | hex
      · exact h.executions ex hex
      · obtain ⟨o, p, hexe, hok⟩ := mem_sent hex
        refine ⟨o, p, ?_, hexe.noWorse (h.waiting st he), hok⟩
        rcases hexe.source with ho | ho
        · exact h.memory st he o ho
        · exact hmsg o ho

theorem next {e : Event} (h : Traced c uuid5 w) (he : Enabled w e) :
    Traced c uuid5 (next c uuid5 w e) := by
  cases e with
  | place o =>
    simp only [Pipeline.next]
    cases hins : insertOrder w.db o with
    | error _ => exact h
    | ok db => exact h.place he hins
  | publish o =>
    refine ⟨h.distinct, h.outbox, ?_, h.rows, h.waiting, h.memory, h.executions⟩
    intro o' ho'
    rcases List.mem_append.mp ho' with ho' | ho'
    · exact h.topic o' ho'
    · rw [List.mem_singleton.mp ho']
      exact h.outbox o he
  | start rows => exact h.start he.2
  | handle m => exact h.handle he
  | crash =>
    refine ⟨h.distinct, h.outbox, h.topic, h.rows, ?_, ?_, h.executions⟩
    · intro st hst
      cases hst
    · intro st hst
      cases hst
  | deliver ex =>
    refine ⟨h.distinct, h.outbox, h.topic, ?_, h.waiting, h.memory, h.executions⟩
    intro id row hr
    obtain ⟨row₀, h₀, heq⟩ := orders_deliver hr
    rw [heq]
    exact h.rows id row₀ h₀
  | reset acct =>
    refine ⟨h.distinct, ?_, h.topic, ?_, h.waiting, h.memory, h.executions⟩
    · intro o ho
      exact h.outbox o (List.mem_of_mem_filter ho)
    · intro id row hr
      exact h.rows id row (orders_reset hr)

end Traced

theorem traced (hdb : ∀ id, db.orders id = none) (hw : (system c uuid5).Reaches (fresh db) w) :
    Traced c uuid5 w :=
  hw.invariant (traced_fresh hdb) fun _ _ h he => h.next he

/-! ## The two encodings -/

theorem within_mono {limit limit' : ℚ} {side : Side} (h : Within side p (.fin limit))
    (hle : NoLooser side limit limit') : Within side p (.fin limit') := by
  cases side with
  | buy => exact h.trans ((Decimal.atMost_fin _ _).mpr hle)
  | sell => exact ((Decimal.atMost_fin _ _).mpr hle).trans h

/-- A rebuilt order executes as faithfully as the submitted one where the table keeps it. -/
theorem faithful_ofRow {row : OrderRow} (hsub : Submitted o) (hk : KeptByTable o)
    (hrow : rowOf o = .ok row) (hno : (ofRow o.orderId row).type ≠ .market →
      NoWorse (ofRow o.orderId row) p)
    (hex : execute c uuid5 (ofRow o.orderId row) p = .ok ex) : Faithful o ex := by
  obtain ⟨hprice, hqty, hrow'⟩ := rowOf_ok_iff.mp hrow
  obtain ⟨_, _, _, -, -, -, rfl⟩ := execute_ok_iff.mp hex
  have htype : row.type = o.type := by rw [hrow']
  have hside : row.side = o.side := by rw [hrow']
  constructor
  · obtain ⟨q, -, hq⟩ := hsub.quantity
    rw [hq] at hqty ⊢
    exact ((store_of_onGrid (hk.quantity q hq)).mp hqty).2
  · intro ht
    obtain ⟨limit, -, hl⟩ := hsub.limit ht
    have hne : (ofRow o.orderId row).type ≠ .market := by
      rw [show (ofRow o.orderId row).type = row.type from rfl, htype, ht]
      exact nofun
    obtain ⟨limit', hl', hm⟩ := hno hne
    simp only [ofRow, hside] at hl' hm
    rw [hl] at hprice
    obtain ⟨n, hn, hprice⟩ := map_ok_iff.mp hprice
    rw [← hprice, Option.map_some, Option.some.injEq] at hl'
    rw [← hl', (store_fin_iff.mp hn).2] at hm
    exact ⟨.fin limit, hl, within_mono hm (hk.limit limit ht hl)⟩

theorem ofRow_eq_iff {row : OrderRow} (hrow : rowOf o = .ok row) :
    ofRow o.orderId row = o ↔ SameInTable o := by
  obtain ⟨hprice, hqty, hrow'⟩ := rowOf_ok_iff.mp hrow
  have hsplit : ofRow o.orderId row = o ↔
      row.price.map Subtype.val = o.price ∧ row.quantity.val = o.quantity := by
    constructor
    · intro h
      exact ⟨congrArg Order.price h, congrArg Order.quantity h⟩
    · rintro ⟨hp, hq⟩
      unfold ofRow
      rw [hp, hq, hrow']
  have hqiff : row.quantity.val = o.quantity ↔ ∀ q, o.quantity = .fin q → OnGrid (unit 12) q := by
    cases hq : o.quantity with
    | fin q =>
      rw [hq] at hqty
      simp [(store_fin_iff.mp hqty).2, roundTo_eq_self_iff]
    | inf neg =>
      rw [hq] at hqty
      cases hqty
    | nan =>
      rw [hq] at hqty
      rw [← Except.ok.inj hqty]
      simp
  have hpiff : row.price.map Subtype.val = o.price ↔
      ∀ p, o.price = some (.fin p) → OnGrid (unit 4) p := by
    cases hp : o.price with
    | none =>
      rw [hp] at hprice
      rw [← Except.ok.inj hprice]
      simp
    | some d =>
      rw [hp] at hprice
      obtain ⟨n, hn, hprice⟩ := map_ok_iff.mp hprice
      rw [← hprice, Option.map_some, Option.some.injEq]
      cases d with
      | fin x =>
        simp [(store_fin_iff.mp hn).2, roundTo_eq_self_iff]
      | inf neg => cases hn
      | nan =>
        rw [← Except.ok.inj hn]
        simp
  rw [hsplit, hqiff, hpiff]
  exact ⟨fun h => ⟨h.2, h.1⟩, fun h => ⟨h.price, h.quantity⟩⟩

theorem placed_eq (ht : Traced c uuid5 w) (ho : o ∈ w.placed) (h₀ : o₀ ∈ w.placed)
    (hid : o.orderId = o₀.orderId) : o = o₀ :=
  List.inj_on_of_nodup_map ht.distinct ho h₀ hid

/-- Executions keep what was submitted where the table keeps it; the encodings are equal exactly
where no column rounds. -/
theorem restarts_keep_orders (hdb : ∀ id, db.orders id = none)
    (hw : (system c uuid5).Reaches (fresh db) w) : ∀ o ∈ w.placed, Submitted o →
      (KeptByTable o → ∀ ex ∈ w.executions, ex.orderId = o.orderId → Faithful o ex) ∧
      ∀ row, rowOf o = .ok row → (ofRow o.orderId row = o ↔ SameInTable o) := by
  have ht := traced hdb hw
  intro o ho hsub
  refine ⟨?_, fun row hrow => ofRow_eq_iff hrow⟩
  intro hk ex hex hid
  obtain ⟨v, p, ⟨o₀, h₀, hv⟩, hno, hexe⟩ := ht.executions ex hex
  have hexid : ex.orderId = v.orderId := by
    obtain ⟨_, _, _, -, -, -, rfl⟩ := execute_ok_iff.mp hexe
    rfl
  rcases hv with rfl | ⟨row, hrow, rfl⟩
  · obtain rfl := placed_eq ht ho h₀ (hid.symm.trans hexid)
    obtain ⟨_, _, _, -, -, -, rfl⟩ := execute_ok_iff.mp hexe
    refine ⟨rfl, ?_⟩
    intro htype
    exact hno (by rw [htype]; exact nofun)
  · obtain rfl := placed_eq ht ho h₀ (hid.symm.trans hexid)
    exact faithful_ofRow hsub hk hrow hno hexe

/-! ## A rounded limit -/

def demoDb : Db where
  accounts a := if a = "demo" then some initialBalance else none
  positions _ _ := none
  orders _ := none
  executions := []

/-- One order is placed, and the engine starts from its row. -/
def started (o : Order) (row : OrderRow) : World where
  db := { demoDb with orders := Function.update demoDb.orders o.orderId (some row) }
  placed := [o]
  outbox := [o]
  topic := []
  engine := some (start [(o.orderId, row)])
  executions := []

/-- The engine of `started` handles one message. -/
def filled (o : Order) (row : OrderRow) (m : Msg) : World :=
  handle Context.default id (started o row) m

theorem reaches_started {Q : World → Event → Prop} {row : OrderRow} (hacct : o.accountId = "demo")
    (hrow : rowOf o = .ok row) (hplace : Q (fresh demoDb) (.place o))
    (hstart : Q { started o row with engine := none } (.start [(o.orderId, row)])) :
    ((system Context.default id).restrict Q).Reaches (fresh demoDb) (started o row) := by
  let w₁ : World := { started o row with engine := none }
  have hw₁ : next Context.default id (fresh demoDb) (.place o) = w₁ := by
    have hins : insertOrder demoDb o = .ok w₁.db :=
      insertOrder_ok_iff.mpr ⟨row, hrow, rfl, by simp [hacct, demoDb], rfl⟩
    simp only [next, fresh, hins]
    rfl
  have hstatus : row.status = .pending := by rw [(rowOf_ok_iff.mp hrow).2.2]
  have hrows : PendingRows [(o.orderId, row)] w₁.db := by
    refine ⟨by simp, ?_⟩
    intro id row'
    simp only [List.mem_singleton, Prod.mk.injEq, w₁, started, demoDb]
    constructor
    · rintro ⟨rfl, rfl⟩
      exact ⟨by simp, hstatus⟩
    · rintro ⟨h, -⟩
      rcases eq_or_ne id o.orderId with rfl | hne
      · simpa [eq_comm] using h
      · simp [hne] at h
  have hnew : Enabled (fresh demoDb) (.place o) := by
    intro o' ho'
    cases ho'
  have h₁ : ((system Context.default id).restrict Q).Reaches (fresh demoDb) w₁ :=
    hw₁ ▸ System.Reaches.step (Event.place o) .start ⟨hnew, hplace⟩
  exact h₁.step (Event.start [(o.orderId, row)]) ⟨⟨rfl, hrows⟩, hstart⟩

theorem reaches_filled {row : OrderRow} (symbol : String) (p : Decimal)
    (hacct : o.accountId = "demo") (hrow : rowOf o = .ok row) :
    (system Context.default id).Reaches (fresh demoDb) (filled o row (.tick symbol p)) :=
  (reaches_started (Q := fun _ _ => True) hacct hrow trivial trivial).of_restrict.step
    (Event.handle (.tick symbol p)) rfl

/-- A limit buy at 99.5 of two coins, which the table keeps. -/
def keptOrder : Order :=
  ⟨"o1", "demo", "KRW-BTC", .buy, .limit, some (.fin (995 / 10)), .fin 2⟩

theorem restarts_keep_order_demo : ∃ w, (system Context.default id).Reaches (fresh demoDb) w ∧
    w.executions.length = 1 ∧ ∀ ex ∈ w.executions, ex.orderId = "o1" → Faithful keptOrder ex := by
  let row : OrderRow := ⟨"demo", "KRW-BTC", .buy, .limit,
    some (ofCoeff 20 4 995000 (by decide +kernel)), ofCoeff 28 12 (2 * 10 ^ 12) (by decide +kernel),
    .pending⟩
  have hw := reaches_filled "KRW-BTC" (.fin 99) (show keptOrder.accountId = "demo" from rfl)
    (show rowOf keptOrder = .ok row by decide +kernel)
  have hkept : KeptByTable keptOrder := by
    refine ⟨?_, ?_⟩
    · rintro q ⟨⟩
      exact ⟨2 * 10 ^ 12, by norm_num [unit]⟩
    · rintro p - hp
      obtain rfl : (995 / 10 : ℚ) = p := Decimal.fin.inj (Option.some.inj hp)
      change roundTo 4 (995 / 10 : ℚ) ≤ 995 / 10
      decide +kernel
  refine ⟨_, hw, by decide +kernel, ?_⟩
  exact (restarts_keep_orders (fun _ => rfl) hw keptOrder List.mem_cons_self
    ⟨⟨2, by norm_num, rfl⟩, fun _ => ⟨995 / 10, by norm_num, rfl⟩⟩).1 hkept

/-- A limit buy at half a unit of the price column, of a quantity with thirteen decimals. -/
def roundedOrder : Order :=
  ⟨"o1", "demo", "KRW-SHIB", .buy, .limit, some (.fin (5 / 100000)), .fin (1000 + 15 / 10 ^ 13)⟩

/-- The restarted engine buys above the submitted limit, and another quantity. -/
theorem restart_worsens_limit : (∀ id, demoDb.orders id = none) ∧
    ∃ w, (system Context.default id).Reaches (fresh demoDb) w ∧ ∃ o ∈ w.placed, Submitted o ∧
      ∃ ex ∈ w.executions, ex.orderId = o.orderId ∧ ex.quantity ≠ o.quantity ∧
        ¬ NoWorse o ex.price := by
  let row : OrderRow := ⟨"demo", "KRW-SHIB", .buy, .limit,
    some (ofCoeff 20 4 1 (by decide +kernel)), ofCoeff 28 12 (10 ^ 15 + 2) (by decide +kernel),
    .pending⟩
  have hw := reaches_filled "KRW-SHIB" (.fin (1 / 10000))
    (show roundedOrder.accountId = "demo" from rfl)
    (show rowOf roundedOrder = .ok row by decide +kernel)
  refine ⟨fun _ => rfl, _, hw, roundedOrder, List.mem_cons_self,
    ⟨⟨1000 + 15 / 10 ^ 13, by norm_num, rfl⟩, fun _ => ⟨5 / 100000, by norm_num, rfl⟩⟩, ?_⟩
  refine ⟨⟨"o1", "o1", "demo", "KRW-SHIB", .buy, .fin (1 / 10000), .fin (1000 + 2 / 10 ^ 12),
    .fin (1 / 10000)⟩, by decide +kernel, rfl, by decide +kernel, ?_⟩
  · rintro ⟨limit, hl, hm⟩
    obtain rfl : Decimal.fin (5 / 100000) = limit := Option.some.inj hl
    have hle := (Decimal.atMost_fin _ _).mp hm
    norm_num at hle

end QuantTrader.Pipeline
