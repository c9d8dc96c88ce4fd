import QuantTrader.Ledger.Book
import QuantTrader.Rebalance.TradeOnce

/-! # One order of the job on the tables

`_execute` settles a message of finite numbers under ids that were never drawn:
its balance moves by the cost or the proceeds, or the order is refused because
the balance is short or the holding lacks the quantity.
-/

namespace QuantTrader.Rebalance

open Ledger Postgres Transition

def Holds (db : Db) (acct : String) (x : ℚ) : Prop :=
  ∃ bal, db.accounts acct = some bal ∧ bal.val.val = .fin x

/-- Only one account and its holding of one symbol may differ. -/
structure SameBut (acct sym : String) (db db' : Db) : Prop where
  accounts : ∀ a, a ≠ acct → db'.accounts a = db.accounts a
  positions : ∀ a s, a ≠ acct ∨ s ≠ sym → db'.positions a s = db.positions a s

/-- No id that is still to be drawn has been recorded. -/
def Session.Fresh (uuid4 : ℕ → String) (s : Session) : Prop :=
  ∀ n, s.drawn ≤ n → s.db.recorded (uuid4 n) = false

section Orders

variable {c : Context} {uuid4 : ℕ → String} {s s' : Session} {n : ℕ} {db db' mid : Db}
  {acct sym : String} {side : Side} {qty price fee x : ℚ} {d : Decimal} {held : Option Position}
  {out : Outcome}

theorem Holds.nonneg (h : Holds db acct x) : 0 ≤ x := by
  obtain ⟨bal, -, hx⟩ := h
  have hn := bal.2
  rw [hx] at hn
  exact hn

theorem Holds.lt (h : Holds db acct x) : x < 10 ^ 16 := by
  obtain ⟨bal, -, hx⟩ := h
  have hb := bal.val.2
  rw [hx] at hb
  exact (le_abs_self x).trans_lt (by simpa [bound] using hb.2)

theorem Holds.unique {y : ℚ} (h : Holds db acct x) (h' : Holds db acct y) : x = y := by
  obtain ⟨bal, ha, hx⟩ := h
  obtain ⟨bal', ha', hy⟩ := h'
  obtain rfl := Option.some.inj (ha.symm.trans ha')
  exact Decimal.fin.inj (hx.symm.trans hy)

/-- The message `_execute` settles, after `n` ids. -/
def message (uuid4 : ℕ → String) (n : ℕ) (acct sym : String) (side : Side) (qty price fee : ℚ) :
    Execution :=
  ⟨uuid4 (n + 1), uuid4 n, acct, sym, side, .fin price, .fin qty, .fin fee⟩

theorem message_cost :
    (message uuid4 n acct sym side qty price fee).cost c = .ok d ↔
      ∃ v cost, c.finish (price * qty) = .ok v ∧ c.finish (v + fee) = .ok cost ∧ d = .fin cost := by
  simp only [Execution.cost, message, Context.mul, Context.add, bind_ok_iff, map_ok_iff]
  constructor
  · rintro ⟨_, ⟨v, hv, rfl⟩, h⟩
    obtain ⟨cost, hx, rfl⟩ := map_ok_iff.mp h
    exact ⟨v, cost, hv, hx, rfl⟩
  · rintro ⟨v, cost, hv, hx, rfl⟩
    exact ⟨_, ⟨v, hv, rfl⟩, map_ok_iff.mpr ⟨cost, hx, rfl⟩⟩

theorem message_proceeds :
    (message uuid4 n acct sym side qty price fee).proceeds c = .ok d ↔
      ∃ v p, c.finish (price * qty) = .ok v ∧ c.finish (v - fee) = .ok p ∧ d = .fin p := by
  simp only [Execution.proceeds, message, Context.mul, bind_ok_iff, map_ok_iff]
  constructor
  · rintro ⟨_, ⟨v, hv, rfl⟩, h⟩
    rw [Context.sub_fin] at h
    obtain ⟨p, hx, rfl⟩ := map_ok_iff.mp h
    exact ⟨v, p, hv, hx, rfl⟩
  · rintro ⟨v, p, hv, hx, rfl⟩
    refine ⟨_, ⟨v, hv, rfl⟩, ?_⟩
    rw [Context.sub_fin]
    exact map_ok_iff.mpr ⟨p, hx, rfl⟩

/-- What settling a message does to a balance. -/
inductive Settled (c : Context) (held : Option Position) (acct : String) (side : Side)
    (qty price fee x : ℚ) (db' : Db) : Outcome → Prop
  | bought {v cost : ℚ} : side = .buy → c.finish (price * qty) = .ok v →
      c.finish (v + fee) = .ok cost → cost ≤ x → Holds db' acct (roundTo 4 (x - cost)) →
      Settled c held acct side qty price fee x db' .applied
  | sold {v proceeds : ℚ} : side = .sell → c.finish (price * qty) = .ok v →
      c.finish (v - fee) = .ok proceeds → Holds db' acct (roundTo 4 (x + proceeds)) →
      Settled c held acct side qty price fee x db' .applied
  | short {v cost : ℚ} : side = .buy → c.finish (price * qty) = .ok v →
      c.finish (v + fee) = .ok cost → x < cost → Holds db' acct x →
      Settled c held acct side qty price fee x db' .rejected
  | lacking : side = .sell →
      (∀ row y, held = some row → row.quantity.val.val = .fin y → y < qty) →
      Settled c held acct side qty price fee x db' .rejected

theorem sameBut_writes {bal : NonNegNumeric 20 4} {row : ExecutionRow} {p : Position} :
    SameBut acct sym db (writes db acct sym bal row p) := by
  constructor
  · exact othersKept_writes.accounts
  · intro a t hne
    rcases eq_or_ne a acct with rfl | ha
    · simp [writes, Db.setPosition, hne.resolve_left (not_not_intro rfl)]
    · simp [writes, Db.setPosition, ha]

theorem holds_writes {bal : NonNegNumeric 20 4} {row : ExecutionRow} {p : Position}
    (h : bal.val.val = .fin x) : Holds (writes db acct sym bal row p) acct x :=
  ⟨bal, by simp [writes, Db.setPosition], h⟩

theorem bookBuy_settled {cost : ℚ} (hx : Holds db acct x)
    (h : bookBuy c db (message uuid4 n acct sym .buy qty price fee) (.fin cost) = .ok mid) :
    Holds mid acct (roundTo 4 (x - cost)) ∧ SameBut acct sym db mid := by
  obtain ⟨bal, hbal, hfin⟩ := hx
  obtain ⟨bal', row, u, new, pos, hw⟩ := (bookBuy_ok_iff (by exact hbal)).mp h
  have hst := hw.balance
  rw [hfin, sub_fin] at hst
  rw [hw.result]
  exact ⟨holds_writes (store_fin_iff.mp hst).2, sameBut_writes⟩

theorem bookSell_settled {held : Position} (hx : Holds db acct x)
    (hp : db.positions acct sym = some held)
    (h : bookSell c db (message uuid4 n acct sym .sell qty price fee) = .ok mid) :
    SameBut acct sym db mid ∧ ∃ v proceeds, c.finish (price * qty) = .ok v ∧
      c.finish (v - fee) = .ok proceeds ∧ Holds mid acct (roundTo 4 (x + proceeds)) := by
  obtain ⟨bal, hbal, hfin⟩ := hx
  obtain ⟨bal₀, bal', row, d, q, hw⟩ := (bookSell_ok_iff (by exact hp)).mp h
  obtain rfl : bal = bal₀ := Option.some.inj (hbal.symm.trans hw.account)
  obtain ⟨v, proceeds, hv, hpr, rfl⟩ := message_proceeds.mp hw.earned
  have hst := hw.balance
  rw [hfin, add_fin] at hst
  rw [hw.result]
  exact ⟨sameBut_writes, v, proceeds, hv, hpr, holds_writes (store_fin_iff.mp hst).2⟩

theorem exists_cost {ex : Execution} (hs : ex.side = .buy) (hr : db.recorded ex.executionId = false)
    (h : applyExecution c db ex = .ok (db', out)) : ∃ d, ex.cost c = .ok d := by
  simp only [applyExecution, hr, hs, applyBuy, bind_ok_iff, Raise.py_ok_iff, Bool.false_eq_true,
    if_false] at h
  obtain ⟨d, hd, -⟩ := h
  exact ⟨d, hd⟩

theorem settled_of_refused (hx : Holds db acct x) (hr : db.recorded (uuid4 (n + 1)) = false)
    (hn : ¬ Covers c db (message uuid4 n acct sym side qty price fee))
    (h : applyExecution c db (message uuid4 n acct sym side qty price fee) = .ok (db', out))
    (hd : Holds db' acct x) :
    Settled c (db.positions acct sym) acct side qty price fee x db' .rejected := by
  cases side with
  | buy =>
    obtain ⟨d, hcost⟩ := exists_cost rfl (by exact hr) h
    obtain ⟨v, cost, hv, hc, rfl⟩ := message_cost.mp hcost
    refine .short rfl hv hc ?_ hd
    obtain ⟨bal, hbal, hfin⟩ := hx
    by_contra hle
    exact hn ⟨bal, _, hbal, hcost, by simpa [hfin] using hle⟩
  | sell =>
    refine .lacking rfl ?_
    intro row y hrow hy
    by_contra hle
    exact hn ⟨row, hrow, by simpa [hy, message] using hle⟩

theorem settled_of_booked (hx : Holds db acct x)
    (hcov : Covers c db (message uuid4 n acct sym side qty price fee))
    (hb : Booked c db (message uuid4 n acct sym side qty price fee) mid) :
    Settled c (db.positions acct sym) acct side qty price fee x mid .applied ∧
      SameBut acct sym db mid := by
  cases side with
  | buy =>
    obtain ⟨bal, d, hbal, hcost, hlt⟩ := hcov
    obtain ⟨d', hcost', hbook⟩ := hb
    obtain rfl : d = d' := Except.ok.inj (hcost.symm.trans hcost')
    obtain ⟨v, cost, hv, hc, rfl⟩ := message_cost.mp hcost
    obtain ⟨hh, hsame⟩ := bookBuy_settled hx hbook
    have hle : cost ≤ x := by
      obtain ⟨bal', hbal', hfin⟩ := hx
      obtain rfl : bal = bal' := Option.some.inj (hbal.symm.trans hbal')
      simpa [hfin] using hlt
    exact ⟨.bought rfl hv hc hle hh, hsame⟩
  | sell =>
    obtain ⟨held, hp, -⟩ := hcov
    obtain ⟨hsame, v, proceeds, hv, hpr, hh⟩ := bookSell_settled hx hp hb
    exact ⟨.sold rfl hv hpr hh, hsame⟩

theorem Settled.fill (h : Settled c held acct side qty price fee x mid out) (oid : String) :
    Settled c held acct side qty price fee x (mid.fill oid) out := by
  cases h with
  | bought hs hv hc hle hh => exact .bought hs hv hc hle hh
  | sold hs hv hp hh => exact .sold hs hv hp hh
  | short hs hv hc hlt hh => exact .short hs hv hc hlt hh
  | lacking hs hl => exact .lacking hs hl

theorem fresh_of_appends {ex : Execution} (hinj : Function.Injective uuid4)
    (hs : Session.Fresh uuid4 ⟨db, n⟩) (hid : ex.executionId = uuid4 (n + 1))
    (ha : Appends db ex mid) : Session.Fresh uuid4 ⟨mid, n + 2⟩ := by
  intro k hk
  obtain ⟨row, hrow, hex⟩ := ha.executions
  dsimp only at hk ⊢
  rw [← Bool.not_eq_true, Db.recorded_iff, hex]
  rintro ⟨r, hr, hreq⟩
  rcases List.mem_append.mp hr with hr | hr
  · have hold := hs k (by dsimp only; omega)
    rw [← Bool.not_eq_true, Db.recorded_iff] at hold
    exact hold ⟨r, hr, hreq⟩
  · obtain rfl := List.mem_singleton.mp hr
    have := hinj (hid.symm.trans (hrow.symm.trans hreq))
    omega

/-- One message: its ids stay fresh, nothing else moves, and the balance is settled. -/
theorem applyExecution_settled (hinj : Function.Injective uuid4)
    (hs : Session.Fresh uuid4 ⟨db, n⟩) (hx : Holds db acct x)
    (h : applyExecution c db (message uuid4 n acct sym side qty price fee) = .ok (db', out)) :
    Session.Fresh uuid4 ⟨db', n + 2⟩ ∧ SameBut acct sym db db' ∧
      Settled c (db.positions acct sym) acct side qty price fee x db' out := by
  have hr : db.recorded (uuid4 (n + 1)) = false := hs (n + 1) (by dsimp only; omega)
  rcases applyExecution_cases h with ⟨-, hdup, -⟩ | ⟨rfl, -, hn, rfl⟩ | ⟨rfl, -, hcov, mid, hm, rfl⟩
  · exact absurd hdup (by simpa [message] using hr)
  · refine ⟨fun k hk => hs k (by dsimp only at hk ⊢; omega), ⟨fun _ _ => rfl, fun _ _ _ => rfl⟩, ?_⟩
    exact settled_of_refused hx hr hn h hx
  · obtain ⟨hset, hsame⟩ := settled_of_booked hx hcov hm
    have hfresh := fresh_of_appends hinj hs rfl hm.appends
    exact ⟨hfresh, ⟨hsame.accounts, hsame.positions⟩, hset.fill _⟩

theorem execute_settled (hinj : Function.Injective uuid4) (hs : s.Fresh uuid4)
    (hx : Holds s.db acct x) (h : execute c uuid4 s acct sym side qty price = .ok (s', out)) :
    s'.Fresh uuid4 ∧ SameBut acct sym s.db s'.db ∧
      ∃ fee, orderFee c price qty = .ok fee ∧
        Settled c (s.db.positions acct sym) acct side qty price fee x s'.db out := by
  simp only [execute, bind_ok_iff, Raise.pg_ok_iff, Raise.py_ok_iff] at h
  obtain ⟨db, hdb, fee, hf, ⟨db', out'⟩, ha, h⟩ := h
  cases h
  obtain ⟨row, -, -, -, rfl⟩ := Orders.insertOrder_ok_iff.mp hdb
  obtain ⟨hfresh, hsame, hset⟩ := applyExecution_settled hinj (by exact hs) (by exact hx) ha
  exact ⟨hfresh, ⟨hsame.accounts, hsame.positions⟩, fee, hf, hset⟩

end Orders

end QuantTrader.Rebalance
