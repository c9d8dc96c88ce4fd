import QuantTrader.Rebalance.DailyJob

/-! # The decisions and the ledger

While no other program writes the ledger, the decisions of the job are a log of it:
each recorded trade has one order and, if it says that it was executed, one
execution, whatever point its boots ended at.
-/

namespace QuantTrader.Rebalance

open Ledger Postgres Transition

section Booking

variable {c : Context} {db mid : Db} {ex : Execution}

theorem booked_stored (hcov : Covers c db ex) (h : Booked c db ex mid) :
    (∃ row, StoredAs ex row ∧ mid.executions = db.executions ++ [row]) ∧
      OthersKept ex.accountId db mid := by
  unfold Covers at hcov
  unfold Booked at h
  cases hs : ex.side with
  | buy =>
    rw [hs] at hcov h
    obtain ⟨bal, _, hbal, -, -⟩ := hcov
    obtain ⟨cost, -, h⟩ := h
    obtain ⟨bal', row, unitCost, new, pos, hw⟩ := (bookBuy_ok_iff hbal).mp h
    rw [hw.result]
    exact ⟨⟨row, hw.stored, rfl⟩, othersKept_writes⟩
  | sell =>
    rw [hs] at hcov h
    obtain ⟨held, hheld, -⟩ := hcov
    obtain ⟨bal, bal', row, proceeds, quantity, hw⟩ := (bookSell_ok_iff hheld).mp h
    rw [hw.result]
    exact ⟨⟨row, hw.stored, rfl⟩, othersKept_writes⟩

end Booking

section Orders

variable {c : Context} {uuid4 : ℕ → String} {s s' : Session} {acct sym : String} {side : Side}
  {qty price : ℚ} {out : Outcome}

/-- No order and no execution has an id that is still to be drawn. -/
structure Session.Unused (uuid4 : ℕ → String) (s : Session) : Prop where
  executions : s.Fresh uuid4
  orders : ∀ n, s.drawn ≤ n → s.db.orders (uuid4 n) = none

theorem Session.Unused.skip {db : Db} {n m : ℕ} (h : Session.Unused uuid4 ⟨db, n⟩) (hle : n ≤ m) :
    Session.Unused uuid4 ⟨db, m⟩ where
  executions k hk := h.executions k (hle.trans hk)
  orders k hk := h.orders k (hle.trans hk)

/-- A row of `orders` under its id, with its execution. -/
structure Ticket where
  orderId : String
  order : OrderRow
  execution : Option ExecutionRow

/-- The orders after a ticket. -/
def Ticket.place (t : Ticket) (orders : String → Option OrderRow) : String → Option OrderRow :=
  Function.update orders t.orderId (some t.order)

/-- A ticket for an order of a quantity at a price, filled or rejected. -/
structure Ticket.For (t : Ticket) (acct sym : String) (side : Side) (qty price : ℚ)
    (executed : Bool) : Prop where
  price : ∃ p, store 20 4 (.fin price) = .ok p ∧ t.order.price = some p
  quantity : store 28 12 (.fin qty) = .ok t.order.quantity
  order : t.order = ⟨acct, sym, side, .market, t.order.price, t.order.quantity,
    if executed then .filled else .rejected⟩
  some_iff : t.execution.isSome = executed
  execution : ∀ e ∈ t.execution, e.orderId = t.orderId ∧ e.accountId = acct ∧ e.symbol = sym ∧
    e.side = side ∧ some e.price = t.order.price ∧ e.quantity = t.order.quantity

/-- What settling one order does to the tables. -/
structure Tickets (s s' : Session) (acct : String) (executed : Bool) (t : Ticket) : Prop where
  orders : s'.db.orders = t.place s.db.orders
  executions : s'.db.executions = s.db.executions ++ t.execution.toList
  others : OthersKept acct s.db s'.db
  refused : executed = false → s'.db.accounts = s.db.accounts ∧ s'.db.positions = s.db.positions

theorem orders_reject_insert {db : Db} {oid : String} {row : OrderRow}
    (h : row.status = .pending) :
    (Db.reject { db with orders := Function.update db.orders oid (some row) } oid).orders =
      Function.update db.orders oid (some { row with status := .rejected }) := by
  funext o
  simp only [Db.reject, Db.setStatus]
  by_cases ho : o = oid
  · subst ho
    simp [h]
  · simp [ho]

theorem orders_fill_insert {db mid : Db} {oid : String} {row : OrderRow}
    (h : mid.orders = Function.update db.orders oid (some row)) :
    (mid.fill oid).orders =
      Function.update db.orders oid (some { row with status := .filled }) := by
  funext o
  simp only [Db.fill, Db.setStatus, h]
  by_cases ho : o = oid
  · subst ho
    simp
  · simp [ho]

theorem execute_ticket (hu : s.Unused uuid4)
    (h : execute c uuid4 s acct sym side qty price = .ok (s', out)) :
    ∃ t : Ticket, t.orderId = uuid4 s.drawn ∧ s'.drawn = s.drawn + 2 ∧
      (∀ e ∈ t.execution, e.executionId = uuid4 (s.drawn + 1)) ∧
      t.For acct sym side qty price (out = .applied) ∧
      Tickets s s' acct (out = .applied) t := by
  simp only [execute, bind_ok_iff, Raise.pg_ok_iff, Raise.py_ok_iff] at h
  obtain ⟨db, hdb, fee, -, ⟨db', out'⟩, ha, h⟩ := h
  cases h
  obtain ⟨row, hrow, -, -, rfl⟩ := Orders.insertOrder_ok_iff.mp hdb
  obtain ⟨hprice, hqty, hrow⟩ := Orders.rowOf_ok_iff.mp hrow
  obtain ⟨p, hp, hprice⟩ := map_ok_iff.mp hprice
  have hpending : row.status = .pending := by rw [hrow]
  rcases applyExecution_cases ha with ⟨-, hdup, -⟩ | ⟨rfl, -, -, rfl⟩ | ⟨rfl, -, hcov, mid, hm, rfl⟩
  · have hfresh := hu.executions (s.drawn + 1) (by omega)
    exact absurd (show s.db.recorded (uuid4 (s.drawn + 1)) = true from hdup) (by simp [hfresh])
  · refine ⟨⟨uuid4 s.drawn, { row with status := .rejected }, none⟩, rfl, rfl, by simp, ?_, ?_⟩
    · exact ⟨⟨p, hp, hprice.symm⟩, hqty, by rw [hrow]; rfl, rfl, by simp⟩
    · exact ⟨orders_reject_insert hpending, (List.append_nil _).symm,
        ⟨fun _ _ => rfl, fun _ _ => rfl⟩, fun _ => ⟨rfl, rfl⟩⟩
  · obtain ⟨⟨e, hst, hex⟩, hothers⟩ := booked_stored hcov hm
    refine ⟨⟨uuid4 s.drawn, { row with status := .filled }, some e⟩, rfl, rfl, ?_, ?_, ?_⟩
    · rintro _ ⟨⟩
      exact hst.executionId
    · refine ⟨⟨p, hp, hprice.symm⟩, hqty, by rw [hrow]; rfl, rfl, ?_⟩
      rintro _ ⟨⟩
      refine ⟨hst.orderId, hst.accountId, hst.symbol, hst.side, ?_, ?_⟩
      · rw [← hprice, Except.ok.inj (hst.price.symm.trans hp)]
      · exact Except.ok.inj (hst.quantity.symm.trans hqty)
    · refine ⟨orders_fill_insert hm.appends.orders, hex, ⟨hothers.accounts, hothers.positions⟩, ?_⟩
      intro hne
      cases hne

end Orders

section Log

variable {c : Context} {uuid4 : ℕ → String} {band : ℚ} {S : Type}

/-- A recorded trade has the order of the ticket, and its execution if it was executed. -/
structure Ticket.Of (t : Ticket) (r : DecisionRow S) : Prop where
  side : r.action.side? = some t.order.side
  accountId : t.order.accountId = r.accountId
  symbol : t.order.symbol = r.symbol
  type : t.order.type = .market
  price : t.order.price = r.price
  quantity : some t.order.quantity = r.quantity
  status : t.order.status = if r.executed then .filled else .rejected
  some_iff : t.execution.isSome = r.executed
  execution : ∀ e ∈ t.execution, e.orderId = t.orderId ∧ e.accountId = r.accountId ∧
    e.symbol = r.symbol ∧ r.action.side? = some e.side ∧ some e.price = r.price ∧
    some e.quantity = r.quantity

def trades (rows : List (DecisionRow S)) : List (DecisionRow S) :=
  rows.filter fun r => r.action ≠ .hold

/-- The tables are those of the start with one ticket for each recorded trade. -/
structure Logs (start : Db) (rows : List (DecisionRow S)) (db : Db) (ts : List Ticket) : Prop where
  trades : List.Forall₂ (fun r t => Ticket.Of t r) (trades rows) ts
  nodup : (ts.map Ticket.orderId).Nodup
  new : ∀ t ∈ ts, start.orders t.orderId = none
  placed : ∀ t ∈ ts, db.orders t.orderId = some t.order
  kept : ∀ o, o ∉ ts.map Ticket.orderId → db.orders o = start.orders o
  executions : db.executions = start.executions ++ ts.flatMap fun t => t.execution.toList
  others : ∀ a, (∀ r ∈ rows, r.executed = true → r.accountId ≠ a) →
    db.accounts a = start.accounts a ∧ db.positions a = start.positions a

/-- A trade that is planned has a quantity and a price. -/
def Decision.Complete (d : Decision ℤ S) : Prop :=
  ∀ side, d.action.side? = some side → ∃ q px, d.quantity = some q ∧ d.price = some px

/-- The decisions a boot still has before it. -/
def Job.todo : Job S → List (Decision ℤ S)
  | .idle | .planning => []
  | .planned ds | .deciding _ ds => ds

/-- The ledger is written by the job alone. -/
def Alone (_ : World S) : Event S → Prop
  | .outside _ => False
  | _ => True

instance (w : World S) : (e : Event S) → Decidable (Alone w e)
  | .outside _ => isFalse id
  | .wait _ | .boot | .plan _ _ | .stamp | .commit | .stop _ => isTrue trivial

variable {rows : List (DecisionRow S)} {s s' : Session} {start : Session} {ts : List Ticket}
  {runTs : ℤ} {d : Decision ℤ S} {r : DecisionRow S} {out : Option Outcome} {w : World S}
  {e : Event S}

theorem side?_eq_none_iff {a : Action} : a.side? = none ↔ a = .hold := by
  cases a <;> simp [Action.side?]

theorem planAccount_complete {acct : String} {prices : String → Option ℚ} {p : Plan}
    {items : List (String × Analysis ℤ S)} {ds : List (Decision ℤ S)}
    (h : planAccount c band acct prices p items = .ok ds) : ∀ d ∈ ds, d.Complete := by
  induction items generalizing p ds with
  | nil =>
    obtain rfl := Except.ok.inj h
    simp
  | cons item items ih =>
    simp only [planAccount, bind_ok_iff] at h
    obtain ⟨⟨d, p'⟩, hd, ds', hds, h⟩ := h
    obtain rfl := Except.ok.inj h
    intro e he
    rcases List.mem_cons.mp he with rfl | he
    · intro side hside
      cases (planSymbol_ok hd).2.2 with
      | hold hact =>
        rw [hact] at hside
        cases hside
      | trade _ hq hp => exact ⟨_, _, hq, hp⟩
    · exact ih hds e he

theorem planDecisions_complete {analysis : List (String × Analysis ℤ S)}
    {snapshots : List (String × Snapshot)} {ds : List (Decision ℤ S)}
    (h : planDecisions c band analysis snapshots = .ok ds) : ∀ d ∈ ds, d.Complete := by
  induction snapshots generalizing ds with
  | nil =>
    obtain rfl := Except.ok.inj h
    simp
  | cons e snapshots ih =>
    simp only [planDecisions, bind_ok_iff] at h
    obtain ⟨ds₁, h₁, ds₂, h₂, h⟩ := h
    obtain rfl := Except.ok.inj h
    intro d hd
    rcases List.mem_append.mp hd with hd | hd
    · exact planAccount_complete h₁ d hd
    · exact ih h₂ d hd

theorem Ticket.For.of {t : Ticket} {side : Side} {q px : ℚ}
    (h : t.For d.accountId d.symbol side q px r.executed) (hr : Recorded runTs d r)
    (hside : d.action.side? = some side) (hq : d.quantity = some q) (hp : d.price = some px) :
    t.Of r := by
  obtain ⟨p, hprice, htp⟩ := h.price
  have hpr := hr.price
  have hqr := hr.quantity
  rw [hp] at hpr
  rw [hq] at hqr
  obtain ⟨p', hp', hpr⟩ := map_ok_iff.mp hpr
  obtain ⟨q', hq', hqr⟩ := map_ok_iff.mp hqr
  obtain rfl : p = p' := Except.ok.inj (hprice.symm.trans hp')
  have hqe : t.order.quantity = q' := Except.ok.inj (h.quantity.symm.trans hq')
  have hprice' : t.order.price = r.price := htp.trans hpr
  have hquantity : some t.order.quantity = r.quantity := by rw [hqe, hqr]
  refine ⟨?_, ?_, ?_, ?_, hprice', hquantity, ?_, h.some_iff, ?_⟩
  · rw [hr.action, hside, h.order]
  · rw [hr.accountId, h.order]
  · rw [hr.symbol, h.order]
  · rw [h.order]
  · rw [h.order]
  · intro e he
    obtain ⟨ho, ha, hs, hsd, hpe, hqe⟩ := h.execution e he
    refine ⟨ho, ha.trans hr.accountId.symm, hs.trans hr.symbol.symm, ?_, hpe.trans hprice', ?_⟩
    · rw [hr.action, hside, hsd]
    · rw [hqe, hquantity]

/-- The log together with the ids that were drawn for it. -/
structure Drawn (uuid4 : ℕ → String) (start : Session) (rows : List (DecisionRow S)) (s : Session)
    (ts : List Ticket) : Prop where
  logs : Logs start.db rows s.db ts
  unused : s.Unused uuid4
  ids : ∀ t ∈ ts, ∃ k, start.drawn ≤ k ∧ k < s.drawn ∧ t.orderId = uuid4 k
  start_le : start.drawn ≤ s.drawn

theorem Drawn.skip {n : ℕ} (h : Drawn uuid4 start rows s ts) (hle : s.drawn ≤ n) :
    Drawn uuid4 start rows ⟨s.db, n⟩ ts where
  logs := h.logs
  unused := h.unused.skip hle
  ids t ht := by
    obtain ⟨k, hk, hlt, hid⟩ := h.ids t ht
    exact ⟨k, hk, hlt.trans_le hle, hid⟩
  start_le := h.start_le.trans hle

theorem trades_append_hold (h : r.action = .hold) : trades (rows ++ [r]) = trades rows := by
  simp [trades, h]

theorem trades_append_trade (h : r.action ≠ .hold) : trades (rows ++ [r]) = trades rows ++ [r] := by
  simp [trades, h]

theorem Logs.hold {start db : Db} (h : Logs start rows db ts) (hact : r.action = .hold) :
    Logs start (rows ++ [r]) db ts where
  trades := by
    rw [trades_append_hold hact]
    exact h.trades
  nodup := h.nodup
  new := h.new
  placed := h.placed
  kept := h.kept
  executions := h.executions
  others a ha := h.others a fun r' hr' => ha r' (List.mem_append_left _ hr')

theorem Logs.trade {t : Ticket} {acct : String} (h : Logs start.db rows s.db ts)
    (ht : t.Of r) (hacct : r.accountId = acct) (hs : Tickets s s' acct r.executed t)
    (hid : t.orderId ∉ ts.map Ticket.orderId) (hnew : start.db.orders t.orderId = none) :
    Logs start.db (rows ++ [r]) s'.db (ts ++ [t]) where
  trades := by
    have hact : r.action ≠ .hold := by
      intro hh
      have hside := ht.side
      rw [hh] at hside
      cases hside
    rw [trades_append_trade hact]
    exact List.rel_append h.trades (.cons ht .nil)
  nodup := by
    rw [List.map_append]
    refine List.nodup_append.mpr ⟨h.nodup, by simp, ?_⟩
    intro x hx y hy hxy
    rw [List.map_singleton, List.mem_singleton] at hy
    exact hid (hy ▸ hxy ▸ hx)
  new t' ht' := by
    rcases List.mem_append.mp ht' with ht' | ht'
    · exact h.new t' ht'
    · rw [List.mem_singleton.mp ht']
      exact hnew
  placed t' ht' := by
    rw [hs.orders, Ticket.place]
    rcases List.mem_append.mp ht' with ht' | ht'
    · have hne : t'.orderId ≠ t.orderId := fun he => hid (he ▸ List.mem_map_of_mem ht')
      rw [Function.update_of_ne hne]
      exact h.placed t' ht'
    · rw [List.mem_singleton.mp ht', Function.update_self]
  kept o ho := by
    rw [List.map_append, List.mem_append, not_or] at ho
    have hne : o ≠ t.orderId := by simpa using ho.2
    rw [hs.orders, Ticket.place, Function.update_of_ne hne]
    exact h.kept o ho.1
  executions := by
    rw [hs.executions, h.executions, List.flatMap_append, List.append_assoc, List.flatMap_singleton]
  others a ha := by
    obtain ⟨hacc, hpos⟩ := h.others a fun r' hr' => ha r' (List.mem_append_left _ hr')
    rw [← hacc, ← hpos]
    cases hex : r.executed with
    | false =>
      obtain ⟨hacc', hpos'⟩ := hs.refused hex
      exact ⟨by rw [hacc'], by rw [hpos']⟩
    | true =>
      have hne : a ≠ acct := by
        rw [← hacct]
        exact (ha r (by simp) hex).symm
      exact ⟨hs.others.accounts a hne, hs.others.positions a hne⟩

theorem Drawn.commit (hinj : Function.Injective uuid4) (h : Drawn uuid4 start rows s ts)
    (hd : d.Complete) (hc : Commits c uuid4 s rows runTs d s' out r) :
    ∃ ts', Drawn uuid4 start (rows ++ [r]) ⟨s'.db, s'.drawn + 1⟩ ts' := by
  cases hside : d.action.side? with
  | none =>
    have hhold := side?_eq_none_iff.mp hside
    have hexec := hc.executed
    rw [executeDecision_hold hhold] at hexec
    cases hexec
    have hlogs := h.logs.hold (hc.recorded.action.trans hhold)
    exact ⟨ts, (Drawn.mk hlogs h.unused h.ids h.start_le).skip (Nat.le_succ _)⟩
  | some side =>
    obtain ⟨q, px, hq, hp⟩ := hd side hside
    obtain ⟨o, hexe, rfl⟩ := (executeDecision_trade hside hq hp).mp hc.executed
    obtain ⟨t, hid, hdrawn, hexid, hfor, htick⟩ := execute_ticket h.unused hexe
    have hout : r.executed = decide (o = .applied) := by simpa using hc.outcome
    rw [← hout] at hfor htick
    have hnot : t.orderId ∉ ts.map Ticket.orderId := by
      intro hmem
      obtain ⟨t', ht', he⟩ := List.mem_map.mp hmem
      obtain ⟨k, -, hlt, hk⟩ := h.ids t' ht'
      have := hinj (hk.symm.trans (he.trans hid))
      omega
    have hfree : start.db.orders t.orderId = none := by
      rw [← h.logs.kept t.orderId hnot, hid]
      exact h.unused.orders s.drawn le_rfl
    have hlogs := h.logs.trade (hfor.of hc.recorded hside hq hp) hc.recorded.accountId htick hnot
      hfree
    refine ⟨ts ++ [t], Drawn.skip (s := s') ⟨hlogs, ⟨?_, ?_⟩, ?_, ?_⟩ (Nat.le_succ _)⟩
    · intro n hn
      have hold := h.unused.executions n (by omega)
      rw [← Bool.not_eq_true, Db.recorded_iff] at hold ⊢
      rw [htick.executions]
      rintro ⟨e, he, heid⟩
      rcases List.mem_append.mp he with he | he
      · exact hold ⟨e, he, heid⟩
      · have := hinj ((hexid e (Option.mem_toList.mp he)).symm.trans heid)
        omega
    · intro n hn
      have hne : uuid4 n ≠ t.orderId := by
        rw [hid]
        intro he
        have := hinj he
        omega
      rw [htick.orders, Ticket.place, Function.update_of_ne hne]
      exact h.unused.orders n (by omega)
    · intro t' ht'
      rcases List.mem_append.mp ht' with ht' | ht'
      · obtain ⟨k, hk, hlt, hk'⟩ := h.ids t' ht'
        exact ⟨k, hk, by omega, hk'⟩
      · rw [List.mem_singleton.mp ht']
        exact ⟨s.drawn, h.start_le, by omega, hid⟩
    · have := h.start_le
      omega

theorem Drawn.next (hinj : Function.Injective uuid4)
    (h : ∃ ts, Drawn uuid4 start w.decisions w.session ts) (hjob : ∀ d ∈ w.job.todo, d.Complete)
    (he : w.Enabled c uuid4 band e) (ha : Alone w e) :
    (∃ ts, Drawn uuid4 start (w.next c uuid4 band e).decisions
      (w.next c uuid4 band e).session ts) ∧
      ∀ d ∈ (w.next c uuid4 band e).job.todo, d.Complete := by
  cases e with
  | wait t => exact ⟨h, hjob⟩
  | outside db => exact ha.elim
  | boot => exact ⟨h, fun d hd => absurd hd List.not_mem_nil⟩
  | plan analysis snapshots =>
    obtain ⟨-, ds, hds⟩ := he
    simp only [World.next, hds.plan]
    exact ⟨h, planDecisions_complete hds.plan⟩
  | stamp =>
    obtain ⟨ds, hplanned⟩ := he
    rw [hplanned] at hjob
    simp only [World.next, hplanned]
    exact ⟨h, hjob⟩
  | commit =>
    obtain ⟨w', hw'⟩ := Option.isSome_iff_exists.mp he
    obtain ⟨runTs, d, rest, session, decisions, hdec, hset, rfl⟩ := commit_eq_some_iff.mp hw'
    obtain ⟨s₁, out, r, hc, rfl, rfl⟩ := settleDecision_ok_iff.mp hset
    rw [hdec] at hjob
    obtain ⟨ts, hts⟩ := h
    simp only [World.next, hw', Option.getD_some]
    exact ⟨hts.commit hinj (hjob d List.mem_cons_self) hc,
      fun d' hd' => hjob d' (List.mem_cons_of_mem _ hd')⟩
  | stop k =>
    obtain ⟨ts, hts⟩ := h
    exact ⟨⟨ts, hts.skip (Nat.le_add_right _ _)⟩, fun d hd => absurd hd List.not_mem_nil⟩

/-- While the job alone writes the ledger, its decisions are a log of it at whatever point its boots
have ended: each recorded trade has one order, filled if it was executed and rejected if not, and
an executed one has one execution. There is no other new order or execution, and no account
without an executed trade changes. -/
theorem decisions_log_ledger (hinj : Function.Injective uuid4) {session : Session} {clock : ℤ}
    (hu : session.Unused uuid4)
    (h : ((dailyJob c uuid4 band).restrict Alone).Reaches ⟨session, [], clock, .idle⟩ w) :
    ∃ ts, Logs session.db w.decisions w.session.db ts := by
  have hinv : (∃ ts, Drawn uuid4 session w.decisions w.session ts) ∧
      ∀ d ∈ w.job.todo, d.Complete := by
    induction h with
    | start =>
      have hlogs : Logs session.db ([] : List (DecisionRow S)) session.db [] :=
        ⟨.nil, .nil, by simp, by simp, fun _ _ => rfl, (List.append_nil _).symm,
          fun _ _ => ⟨rfl, rfl⟩⟩
      exact ⟨⟨[], hlogs, hu, by simp, le_rfl⟩, fun d hd => absurd hd List.not_mem_nil⟩
    | step e _ he ih => exact Drawn.next hinj ih.1 ih.2 he.1 he.2
  obtain ⟨⟨ts, hts⟩, -⟩ := hinv
  exact ⟨ts, hts.logs⟩

end Log

section Demo

theorem demo_alone : (demoJob.restrict Alone).Allowed demoStart demoEvents := by decide +kernel

theorem demo_unused : demoStart.session.Unused demoId := ⟨fun _ _ => rfl, fun _ _ => rfl⟩

/-- Three trades are recorded; the two that were executed have an execution each. -/
theorem decisions_log_ledger_demo :
    (trades (demoJob.run demoStart demoEvents).decisions).length = 3 ∧
      ((demoJob.run demoStart demoEvents).session.db.executions.map fun e => e.symbol) =
        ["KRW-BTC", "KRW-XRP"] ∧
      ∃ ts, Logs demoDb (demoJob.run demoStart demoEvents).decisions
        (demoJob.run demoStart demoEvents).session.db ts :=
  ⟨by decide +kernel, by decide +kernel,
    decisions_log_ledger demoId_injective demo_unused (.run .start demo_alone)⟩

end Demo

end QuantTrader.Rebalance
